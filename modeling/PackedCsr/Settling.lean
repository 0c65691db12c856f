-- The end of an insertion: the leaf of the new item is redistributed, then the window of
-- the plan or of the climb, or the array is doubled.
import PackedCsr.RemoveLocks
import PackedCsr.Steps

namespace packed_csr

section

variable {s s1 s' : PCSR} {i0 j len ni : Nat}

/-! ## The climb -/

theorem insert_climb_spec {rest : Nat} (hs : Sized s) (hi0 : i0 < s.N)
    (hwin : Window s.N i0 (logN s.N * 2 ^ j) ni) (hrest : s.N < logN s.N * 2 ^ j * 2 ^ rest) :
    ∃ r, insert_climb s rest (logN s.N * 2 ^ j) (height s.N - j) ni = .ok r ∧
      ∀ len ni', r = some (len, ni') → Window s.N i0 len ni' := by
  induction rest generalizing j ni with
  | zero => exact absurd hwin.le (by simpa using hrest)
  | succ rest ih =>
    have hlevel := level_nonneg hs.pow hwin.le
    have hin := hwin.in_array hs.pow hi0
    obtain ⟨b, hb⟩ := density_bound_exists (show 0 ≤ (height s.N : Int) - j by omega)
      (show (height s.N : Int) - j ≤ height s.N by omega)
    obtain ⟨d, hd⟩ := get_density_exists
      (show ni + logN s.N * 2 ^ j ≤ s.items.length by rw [hs.items]; exact hin)
    unfold insert_climb
    simp only [hb, hd, bind, Except.bind]
    split
    · split
      · rename_i hle
        have hup := hwin.up hle
        have hj : logN s.N * 2 ^ j * 2 = logN s.N * 2 ^ (j + 1) := by rw [Nat.pow_succ, Nat.mul_assoc]
        rw [hj] at hup ⊢
        have hr : s.N < logN s.N * 2 ^ (j + 1) * 2 ^ rest := by
          rw [← hj, Nat.mul_assoc _ 2, Nat.mul_comm 2, ← Nat.pow_succ]
          exact hrest
        rw [show (height s.N : Int) - j - 1 = height s.N - (j + 1 : Nat) by push_cast; ring]
        exact ih hup hr
      · exact ⟨none, rfl, fun len ni' h => by cases h⟩
    · refine ⟨some (logN s.N * 2 ^ j, ni), rfl, fun len ni' h => ?_⟩
      cases h
      exact hwin

/-! ## The last redistribution -/

/-- What the end of an insertion does: it keeps the items, and the array grows or not. -/
structure Settled (s s' : PCSR) : Prop extends Kept s s' where
  contents : s'.items.filter full = s.items.filter full
  size : s'.N = s.N ∨ s'.N = s.N * 2

theorem Settled.refl (h : WellFormed s) : Settled s s := ⟨Kept.refl h, rfl, .inl rfl⟩

theorem Redistributed.settled (hk : Kept s s') (h : Redistributed s s' ni len) : Settled s s' :=
  ⟨hk, h.contents, .inl h.frame.N⟩

theorem Resized.settled (h : Resized s s' (s.N * 2)) (hgap : IsGap s' (s.N * 2 - 1)) : Settled s s' :=
  ⟨h.kept hgap, h.contents, .inr h.N⟩

/-- The plan of an insertion, where it has one: to double the array, or a window. -/
def PlanOk (N : Nat) (info : Option insertion_info) : Prop :=
  ∀ i, info = some i → i.double_list = true ∨
    ∃ i0 < N, Window N i0 i.max_len i.node_index_final

/-- The slots outside the window of the plan, where the plan is a window. -/
def PlanKeeps (s s' : PCSR) (info : Option insertion_info) : Prop :=
  ∀ i, info = some i → i.double_list = false → s'.N = s.N ∧
    ∀ k, ¬ (i.node_index_final ≤ k ∧ k < i.node_index_final + i.max_len) → s'.items[k]? = s.items[k]?

theorem insert_finish_spec {info : Option insertion_info} (h : WellFormed s) (hi0 : i0 < s.N)
    (hwin : Window s.N i0 (logN s.N * 2 ^ 0) ni) (hinfo : PlanOk s.N info) :
    ∃ s', insert_finish s ni info = .ok s' ∧ Settled s s' ∧ PlanKeeps s s' info := by
  -- the last redistribution, over a window
  have hlast : ∀ len ni' i1, i1 < s.N → Window s.N i1 len ni' →
      ∃ s', (if logN s.N < len then redistribute s ni' len else pure s) = .ok s' ∧ Settled s s' ∧
        s'.N = s.N ∧ ∀ k, ¬ (ni' ≤ k ∧ k < ni' + len) → s'.items[k]? = s.items[k]? := by
    intro len ni' i1 hi1 hw
    split
    · obtain ⟨s', hrun, hk, hred⟩ := redistribute_window h hi1 hw
      exact ⟨s', hrun, hred.settled hk, hred.frame.N, hred.outside⟩
    · exact ⟨s, rfl, Settled.refl h, rfl, fun _ _ => rfl⟩
  have hdouble : ∃ s', double_list s = .ok s' ∧ Settled s s' := by
    obtain ⟨s', hrun, hres, hgap⟩ := double_list_spec h
    exact ⟨s', hrun, hres.settled hgap⟩
  unfold insert_finish
  cases info with
  | none =>
    obtain ⟨r, hclimb, hwindow⟩ := insert_climb_spec h.sized hi0 hwin
      (lt_leaf_mul_two_pow s.N)
    rw [Nat.pow_zero, Nat.mul_one] at hclimb
    simp only [Int.natCast_zero, sub_zero] at hclimb
    simp only [hclimb, bind, Except.bind]
    have hno : ∀ s', PlanKeeps s s' none := fun s' i hi => by cases hi
    rcases r with _ | ⟨len, ni'⟩
    · obtain ⟨s', hrun, hset⟩ := hdouble
      exact ⟨s', hrun, hset, hno s'⟩
    · obtain ⟨s', hrun, hset, -⟩ := hlast len ni' i0 hi0 (hwindow len ni' rfl)
      exact ⟨s', hrun, hset, hno s'⟩
  | some i =>
    rcases hinfo i rfl with hd | ⟨i1, hi1, hw⟩
    · obtain ⟨s', hrun, hset⟩ := hdouble
      refine ⟨s', ?_, hset, fun i' hi' hd' => ?_⟩
      · simpa [hd] using hrun
      · cases hi'
        rw [hd] at hd'
        cases hd'
    · cases hd : i.double_list with
      | true =>
        obtain ⟨s', hrun, hset⟩ := hdouble
        refine ⟨s', ?_, hset, fun i' hi' hd' => ?_⟩
        · simpa [hd] using hrun
        · cases hi'
          rw [hd] at hd'
          cases hd'
      | false =>
        obtain ⟨s', hrun, hset, hN, hout⟩ := hlast i.max_len i.node_index_final i1 hi1 hw
        refine ⟨s', ?_, hset, fun i' hi' _ => ?_⟩
        · simpa [hd] using hrun
        · cases hi'
          exact ⟨hN, hout⟩

/-! ## The write of the item -/

theorem filled_full {d : ℚ} (hpos : 0 < len) (hd : get_density s ni len = .ok d) :
    d = 1 ↔ filled s.items ni len = len := by
  obtain ⟨-, rfl⟩ := get_density_ok hd
  have hne : (len : ℚ) ≠ 0 := by exact_mod_cast hpos.ne'
  rw [div_eq_one_iff_eq hne]
  exact_mod_cast Iff.rfl

theorem Window.leaf_of {m : Nat} (hwin : Window s.N i0 m ni) :
    Window s.N ni (logN s.N * 2 ^ 0) ni := by
  obtain ⟨j, rfl⟩ := hwin.pow
  rw [Nat.pow_zero, Nat.mul_one]
  refine ⟨⟨0, by simp⟩, hwin.leaf_le.trans hwin.le, ?_⟩
  rw [find_node_of_dvd]
  rw [hwin.at_]
  exact (Nat.dvd_mul_right (logN s.N) (2 ^ j)).trans (dvd_find_node i0 _)

/-- The insertion from the write on: the leaf of slot `i0` is redistributed, or the pair of
leaves over it where the leaf is full. -/
theorem insert_item_spec {i : Nat} {e : Edge} {info : Option insertion_info}
    (hput : s.put i e = .ok s1) (hs : Sized s1) (hi0 : i0 < s1.N)
    (hred : ∀ len ni, Window s1.N i0 len ni →
      ∃ s2, redistribute s1 ni len = .ok s2 ∧ Kept s1 s2 ∧ Redistributed s1 s2 ni len)
    (hroom : filled s1.items (find_leaf s1.N i0) (logN s1.N) = logN s1.N → logN s1.N * 2 ≤ s1.N)
    (hinfo : PlanOk s1.N info) :
    ∃ len ni s2 s', insert_item s i (find_leaf s1.N i0) e info = .ok s' ∧ Window s1.N i0 len ni ∧
      (len = logN s1.N ∨
        (len = logN s1.N * 2 ∧ filled s1.items (find_leaf s1.N i0) (logN s1.N) = logN s1.N)) ∧
      Kept s1 s2 ∧ Redistributed s1 s2 ni len ∧ Settled s2 s' ∧ PlanKeeps s2 s' info := by
  have hleaf := leaf_window hs i0
  rw [Nat.pow_zero, Nat.mul_one] at hleaf
  obtain ⟨d, hd⟩ := get_density_exists
    (show find_leaf s1.N i0 + logN s1.N ≤ s1.items.length by
      rw [hs.items]
      exact hleaf.in_array hs.pow hi0)
  have hN : s1.N = s.N := (put_frame hput).N
  -- the redistribution of the leaf or the pair, and the end
  have hrest : ∀ len ni, Window s1.N i0 len ni → ∃ s2 s', redistribute s1 ni len = .ok s2 ∧
      insert_finish s2 ni info = .ok s' ∧ Kept s1 s2 ∧ Redistributed s1 s2 ni len ∧ Settled s2 s' ∧
      PlanKeeps s2 s' info := by
    intro len ni hwin
    obtain ⟨s2, hrun, hk, hr⟩ := hred len ni hwin
    have hN2 := hr.frame.N
    rw [← hN2] at hwin hi0 hinfo
    have hni : ni < s2.N := by
      have := hwin.in_array hk.wf.sized.pow hi0
      have := hwin.len_pow.pos
      omega
    obtain ⟨s', hfin, hset, hkeeps⟩ := insert_finish_spec hk.wf hni hwin.leaf_of hinfo
    exact ⟨s2, s', hrun, hfin, hk, hr, hset, hkeeps⟩
  unfold insert_item
  rw [← hN]
  simp only [hput, hd, bind, Except.bind]
  by_cases hd1 : d = 1
  · rw [if_pos hd1]
    have hfull := (filled_full (logN_pos s1.N) hd).mp hd1
    have hpair := hleaf.up (hroom hfull)
    have hfind : find_node (find_leaf s1.N i0) (logN s1.N * 2) = find_node i0 (logN s1.N * 2) :=
      find_node_find_node (Nat.dvd_mul_right _ _) (logN_pos s1.N)
    obtain ⟨s2, s', hrun, hfin, hk, hr, hset, hkeeps⟩ := hrest _ _ hpair
    refine ⟨_, _, s2, s', ?_, hpair, .inr ⟨rfl, hfull⟩, hk, hr, hset, hkeeps⟩
    simp only [hrun, hfin]
  · rw [if_neg hd1]
    obtain ⟨s2, s', hrun, hfin, hk, hr, hset, hkeeps⟩ := hrest _ _ hleaf
    refine ⟨_, _, s2, s', ?_, hleaf, .inl rfl, hk, hr, hset, hkeeps⟩
    simp only [hrun, hfin]

end

end packed_csr
