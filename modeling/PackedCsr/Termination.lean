-- The runs of one thread whose calls fit: where a removal ends, and how small the array can get.
import PackedCsr.Degrees

namespace packed_csr

open effects

section

variable {s s' : PCSR} {e x : Edge} {p : Nat}

/-! ## A lone removal -/

/-- The last slot holds an item that comes before the edge. -/
def EndsBefore (s : PCSR) (e : Edge) : Prop :=
  ∃ x, s.items[s.N - 1]? = some x ∧ full x = true ∧ Before x e

theorem Place.not_ends_before (hp : Place s e p) (hs : is_sentinel e = false) : ¬ EndsBefore s e := by
  rintro ⟨x, hx, hf, hbefore⟩
  have hlt := hp.lt
  have hafter : ¬ Before e x := fun h => before_irrefl _ (h.trans hbefore)
  rcases Nat.lt_or_ge p (s.N - 1) with h | h
  · exact hafter (hp.after _ x h hx hf)
  · obtain rfl : p = s.N - 1 := by omega
    rcases hp.at_ x hx hf with hst | ⟨h, -⟩
    · exact (hst.not_before hs hx).1 hbefore
    · exact hafter h

theorem PastEnd.ends_before (hp : PastEnd s e p) : EndsBefore s e := by
  obtain ⟨x, hx, hf, hbefore, -⟩ := hp.full
  rw [hp.last] at hx
  exact ⟨x, hx, hf, hbefore⟩

/-- The locks of a removal at the place of its edge, with no other thread active: no test fails. -/
theorem exec_acquire_remove_locks {v : Nat} (h : WellFormed s) (hplace : Place s e p)
    (he : IsEdge s.get_n e) (hv : s.load (p / logN s.N) = .ok v) :
    ∃ a, exec (acquire_remove_locks s.N p e e.src v (s.N + 2) none) s = .ok (a, s) ∧
      a ≠ .special .NEED_RETRY := by
  have hlen : p ≤ s.items.length := by
    rw [h.sized.items]
    exact hplace.lt.le
  have hread : PositionRead s e.src p :=
    .inr (prev_item_exists (j := 0) hlen hplace.pos h.first (by simp))
  have hfree : Free .sound s.N ⟨s, no_locks⟩ := ⟨⟨rfl, h.sized.pow, fun _ => h.sized⟩, rfl⟩
  have hleaf : p / logN s.N < s.N + 2 := by
    have := Nat.div_le_self p (logN s.N)
    have := hplace.lt
    omega
  have hmeets : Prog.Meets (locking .sound true) _ _ _ :=
    meets_acquire_remove_locks p e e.src v (s.N + 2) none hfree (fun l hl => by cases hl)
      (fun _ => ⟨hplace.lt, hread⟩) fun _ => hleaf
  obtain ⟨a, u, hrun, hk, hend⟩ := meets_exec hmeets
  rw [hk.2 (by decide)] at hrun
  refine ⟨a, hrun, ?_⟩
  rintro rfl
  exact (hend.2 rfl).2 ⟨hplace.accepted h.laid_out he, hv⟩

end

/-- The removal calls itself for ever. -/
theorem EndsBefore.stuck {s s' : PCSR} {src dest : Nat} (h : EndsBefore s ⟨src, dest, 1⟩) (hg : Good s)
    (he : IsEdge s.get_n ⟨src, dest, 1⟩) : ¬ Returns s (.remove_edge src dest) s' := by
  rintro ⟨calls, hrun⟩
  obtain ⟨p, v, -, hfind, hp | hp, -, -⟩ := hg.finds he
  · exact hp.not_ends_before he.not_sentinel h
  · have hstuck := remove_edge_never_ends hg he ⟨p, hfind, hp⟩ calls
    cases hstuck.symm.trans hrun

/-! ## The height of the tree -/

section

variable {s s' : PCSR} {e x : Edge} {p : Nat}

/-- The leaves of an array of 8 slots, by the number of their items. -/
theorem sparse_eight_iff (h8 : s.N = 8) : SparseToRoot s s.N p ↔
    filled s.items (find_node p 4) 4 ≤ 1 ∧ filled s.items (find_node p 8) 8 ≤ 2 := by
  have hh : height 8 = 1 := by decide +kernel
  have hL : logN 8 = 4 := by decide +kernel
  have hleaf : Below 8 0 (filled s.items (find_node p 4) 4 - 1) ↔ filled s.items (find_node p 4) 4 ≤ 1 := by
    unfold Below
    rw [hh, hL]
    constructor
    · rintro ⟨-, hlt⟩
      by_contra hc
      have hc' : (2 : ℚ) ≤ filled s.items (find_node p 4) 4 := by exact_mod_cast Nat.lt_of_not_le hc
      norm_num at hlt
      linarith
    · intro hc
      have hc' : (filled s.items (find_node p 4) 4 : ℚ) ≤ 1 := by exact_mod_cast hc
      refine ⟨by decide, ?_⟩
      norm_num
      linarith
  have hroot : Below 8 1 (filled s.items (find_node p 8) 8 - 1) ↔ filled s.items (find_node p 8) 8 ≤ 2 := by
    unfold Below
    rw [hh, hL]
    constructor
    · rintro ⟨-, hlt⟩
      by_contra hc
      have hc' : (3 : ℚ) ≤ filled s.items (find_node p 8) 8 := by exact_mod_cast Nat.lt_of_not_le hc
      norm_num at hlt
      linarith
    · intro hc
      have hc' : (filled s.items (find_node p 8) 8 : ℚ) ≤ 2 := by exact_mod_cast hc
      refine ⟨by decide, ?_⟩
      norm_num
      linarith
  rw [h8]
  unfold SparseToRoot SparseBelow
  rw [hh, hL]
  constructor
  · intro h
    exact ⟨hleaf.mp (h 0 (by decide)), hroot.mp (h 1 (by decide))⟩
  · rintro ⟨h0, h1⟩ j hj
    obtain rfl | rfl : j = 0 ∨ j = 1 := by omega
    · exact hleaf.mpr h0
    · exact hroot.mpr h1

/-- A removal of an item from an array of 8 slots halves it where the item is in the second leaf and
no third item is there. -/
theorem halves_eight_iff (hw : WellFormed s) (h8 : s.N = 8) (hx : s.items[p]? = some x)
    (hf : full x = true) (hpos : 0 < p) :
    SparseToRoot s s.N p ↔ 4 ≤ p ∧ (s.items.filter full).length ≤ 2 := by
  have hlen := hw.sized.items
  have hp := (List.getElem?_eq_some_iff.mp hx).1
  have hroot : find_node p 8 = 0 := by
    unfold find_node
    rw [Nat.div_eq_of_lt (by omega), Nat.zero_mul]
  have htotal : (s.items.filter full).length = filled s.items 0 4 + filled s.items 4 4 := by
    have hall : filled s.items 0 8 = (s.items.filter full).length := by
      unfold filled
      rw [List.drop_zero, List.take_of_length_le (by omega), List.countP_eq_length_filter]
      rfl
    rw [← hall, filled_eq, filled_eq, filled_eq]
    exact gapped.count_add s.items 0 4 4
  -- the first leaf holds the first sentinel
  have hone : gapped.count full s.items 0 1 = 1 := by
    rw [gapped.count_one hw.first, if_pos (full_sentinel 0)]
  have hitem : gapped.count full s.items p 1 = 1 := by
    rw [gapped.count_one hx, if_pos hf]
  have hsplit : gapped.count full s.items 0 4 =
      gapped.count full s.items 0 1 + gapped.count full s.items 1 3 := gapped.count_add s.items 0 1 3
  rw [sparse_eight_iff h8, hroot]
  have hall : filled s.items 0 8 = filled s.items 0 4 + filled s.items 4 4 := by
    rw [filled_eq, filled_eq, filled_eq]
    exact gapped.count_add s.items 0 4 4
  have hfront := filled_eq s.items 0 4
  rw [hall, htotal]
  by_cases hlt : p < 4
  · have hnode : find_node p 4 = 0 := by
      unfold find_node
      rw [Nat.div_eq_of_lt hlt, Nat.zero_mul]
    have hfirst : gapped.count full s.items 1 3 =
        gapped.count full s.items 1 (p - 1) + gapped.count full s.items p (4 - p) := by
      rw [show 3 = p - 1 + (4 - p) by omega, gapped.count_add, show 1 + (p - 1) = p by omega]
    have hsecond : gapped.count full s.items p (4 - p) =
        gapped.count full s.items p 1 + gapped.count full s.items (p + 1) (3 - p) := by
      rw [show 4 - p = 1 + (3 - p) by omega, gapped.count_add]
    rw [hnode]
    omega
  · have hnode : find_node p 4 = 4 := by
      unfold find_node
      rw [show p / 4 = 1 by omega]
    rw [hnode]
    omega

/-- A removal does not leave an array of 8 slots behind without a second leaf: its edge stands in the
first leaf, or there is a third item. -/
def Call.KeepsLeaves (s : PCSR) : Call → Prop
  | .add_edge _ _ _ => True
  | .remove_edge src dest => s.N = 8 → ∀ p, Stores s ⟨src, dest, 1⟩ p → 4 ≤ p →
      3 ≤ (s.items.filter full).length

theorem eight_of_half {N : Nat} (hN : Pow N) (h8 : 8 ≤ N) : 8 ≤ N / 2 ↔ N ≠ 8 := by
  obtain ⟨k, rfl⟩ := hN
  constructor
  · intro h hc
    omega
  · intro hne
    have hk3 : 3 ≤ k := (Nat.pow_le_pow_iff_right (by decide : 1 < 2)).mp (show 2 ^ 3 ≤ 2 ^ k from h8)
    have hk4 : 3 ≠ k := fun hc => hne (by rw [← hc]; rfl)
    have hpow : 2 ^ 4 ≤ 2 ^ k := Nat.pow_le_pow_right (by decide) (by omega)
    omega

/-- A call on an array with two leaves: whether it leaves two. -/
theorem Call.Does.leaves {c : Call} (h : c.Does s s') (hg : Good s) (h8 : 8 ≤ s.N) :
    8 ≤ s'.N ↔ c.KeepsLeaves s := by
  cases c with
  | add_edge src dest value =>
    have hle := Grows.size h
    exact ⟨fun _ => trivial, fun _ => h8.trans hle⟩
  | remove_edge src dest =>
    have hspec : ∀ p, Stores s ⟨src, dest, 1⟩ p → s.N = 8 →
        (SparseToRoot s s.N p ↔ 4 ≤ p ∧ (s.items.filter full).length ≤ 2) := by
      rintro p ⟨x, hx, hf, hs, -, -⟩ hN
      apply halves_eight_iff hg.wf hN hx hf
      rw [Nat.pos_iff_ne_zero]
      rintro rfl
      rw [hg.wf.first] at hx
      cases hx
      simp at hs
    constructor
    · intro hle hN p hst hp4
      rcases Shrinks.size h p hst with ⟨hdense, -⟩ | ⟨-, -, hN', -⟩
      · rw [hspec p hst hN] at hdense
        omega
      · omega
    · intro hkeep
      by_cases hst : ∃ p, Stores s ⟨src, dest, 1⟩ p
      · obtain ⟨p, hst⟩ := hst
        rcases Shrinks.size h p hst with ⟨-, hN'⟩ | ⟨hsparse, -, hN', -⟩
        · rw [hN']
          exact h8
        · rw [hN', eight_of_half hg.wf.sized.pow h8]
          intro hN
          obtain ⟨hp4, hfew⟩ := (hspec p hst hN).mp hsparse
          have := hkeep hN p hst hp4
          omega
      · rw [(Shrinks.absent h fun p hp => hst ⟨p, hp⟩).2]
        exact h8

end

/-- A call that fits comes to an end, or it is a removal that calls itself for ever. No window and no
level of it is outside the array. -/
theorem call_is_safe {s : PCSR} {c : Call} (hg : Good s) (hc : c.Valid s.get_n) (hfit : c.Fits s)
    (calls : Nat) : (∃ s', exec (c.prog calls) s = .ok ((), s')) ∨ exec (c.prog calls) s = .error .fuel := by
  have he := hc.is_edge
  cases c with
  | add_edge src dest value =>
    obtain ⟨s', hrun, -⟩ := add_edge_grows hg he hfit
    exact .inl ⟨s', hrun⟩
  | remove_edge src dest =>
    obtain ⟨p, v, -, hfind, hp, -, -⟩ := hg.finds he
    rcases hp with hp | hp
    · obtain ⟨s', hrun, -⟩ := remove_edge_shrinks hg he (by
        intro q _ hpast
        exact hp.not_ends_before he.not_sentinel hpast.ends_before)
      cases calls with
      | zero => exact .inr rfl
      | succ calls => exact .inl ⟨s', hrun calls⟩
    · exact .inr (remove_edge_never_ends hg he ⟨p, hfind, hp⟩ calls)

end packed_csr
