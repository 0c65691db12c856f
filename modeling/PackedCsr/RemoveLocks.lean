-- The plan of a removal: the locks of `acquire_remove_locks`, and the levels of
-- the implicit tree at which its window is too sparse.
import PackedCsr.InsertLocks

namespace packed_csr

open effects

section

variable {w : World} {may : Bool} {t u : Own} {N mn mx : Nat}

/-! ## Sparse windows -/

/-- `c` items are below the lower density bound of a window on level `j` over the leaves. -/
def Below (N j : Nat) (c : ℚ) : Prop :=
  height N ≠ 0 ∧
    c / (logN N * 2 ^ j : Nat) < 1 / 4 - (1 / 8 * ((height N - j : Int) : ℚ)) / height N

theorem too_empty_iff {j : Nat} {c : ℚ} {b : Option pair_double}
    (hb : density_bound N (height N - j) = .ok b) :
    too_empty (c / (logN N * 2 ^ j : Nat)) b = true ↔ Below N j c := by
  obtain ⟨-, -, rfl⟩ := density_bound_ok hb
  unfold Below
  by_cases hh : height N = 0
  · rw [if_pos hh]
    simp [too_empty, hh]
  · rw [if_neg hh]
    simp [too_empty, hh]

/-- Without the item of slot `i0`, its windows on the levels below `m` are too sparse. -/
def SparseBelow (s : PCSR) (N i0 m : Nat) : Prop :=
  ∀ j < m, Below N j (filled s.items (find_node i0 (logN N * 2 ^ j)) (logN N * 2 ^ j) - 1)

/-- The climb of a removal stops at a window of level `j`. -/
def StopsAt (s : PCSR) (N i0 j : Nat) : Prop :=
  j ≤ height N ∧ SparseBelow s N i0 j ∧
    ¬ Below N j (filled s.items (find_node i0 (logN N * 2 ^ j)) (logN N * 2 ^ j) - 1)

/-- The climb of a removal runs past the root. -/
def SparseToRoot (s : PCSR) (N i0 : Nat) : Prop := SparseBelow s N i0 (height N + 1)

theorem SparseBelow.succ {s : PCSR} {i0 j : Nat} (h : SparseBelow s N i0 j)
    (hj : Below N j (filled s.items (find_node i0 (logN N * 2 ^ j)) (logN N * 2 ^ j) - 1)) :
    SparseBelow s N i0 (j + 1) := by
  intro k hk
  rcases Nat.eq_or_lt_of_le (Nat.le_of_lt_succ hk) with rfl | hlt
  · exact hj
  · exact h k hlt

theorem StopsAt.not_root {s : PCSR} {i0 j : Nat} (h : StopsAt s N i0 j) : ¬ SparseToRoot s N i0 :=
  fun hr => h.2.2 (hr j (Nat.lt_succ_of_le h.1))

/-! ## The climb -/

/-- How the climb of a removal leaves the locks. -/
def RemoveClimb (w : World) (N : Nat) (t : Own) (i0 mn mx : Nat) : Climb → Own → Prop
  | .root, t' =>
    Keeps w t t' ∧ mn = 0 ∧ Held w N t' 0 (N / logN N - 1) ∧ (w ≠ .crowd → SparseToRoot t.s N i0)
  | .restart left, t' => Keeps w t t' ∧ Free w N t' ∧ left < mn
  | .window len ni mn' mx', t' =>
    Keeps w t t' ∧ mn' = mn ∧ mx ≤ mx' ∧ Held w N t' mn mx' ∧ mn * logN N ≤ ni ∧
      ni + len ≤ (mx' + 1) * logN N ∧ Window N i0 len ni ∧
      ∃ j, len = logN N * 2 ^ j ∧ (w ≠ .crowd → StopsAt t.s N i0 j)

theorem RemoveClimb.of_keeps {c : Climb} {v : Own} {i0 mx0 : Nat} (hk : Keeps w t u)
    (hmx : mx0 ≤ mx) (h : RemoveClimb w N u i0 mn mx c v) : RemoveClimb w N t i0 mn mx0 c v := by
  cases c with
  | root =>
    obtain ⟨hk', hmn, hheld, hs⟩ := h
    exact ⟨hk.trans hk', hmn, hheld, fun hw => by rw [← hk.2 hw]; exact hs hw⟩
  | restart left => exact ⟨hk.trans h.1, h.2⟩
  | window len ni mn' mx' =>
    obtain ⟨hk', rfl, hmx', hheld, hni, hend, hwin, j, hj, hs⟩ := h
    exact ⟨hk.trans hk', rfl, by omega, hheld, hni, hend, hwin, j, hj,
      fun hw => by rw [← hk.2 hw]; exact hs hw⟩

theorem meets_remove_plan_climb (rest j ni i0 : Nat) (h : Held w N t mn mx) (hi0 : i0 < N)
    (hni : mn * logN N ≤ ni) (hwin : Window N i0 (logN N * 2 ^ j) ni)
    (hend : ni + logN N * 2 ^ j ≤ (mx + 1) * logN N)
    (hsparse : w ≠ .crowd → SparseBelow t.s N i0 j) (hrest : N < logN N * 2 ^ j * 2 ^ rest) :
    Prog.Meets (locking w may)
      (remove_plan_climb N rest (logN N * 2 ^ j) (height N - j) ni mn mx)
      (RemoveClimb w N t i0 mn mx) t := by
  induction rest generalizing j ni mx t with
  | zero => exact absurd hwin.le (by simpa using hrest)
  | succ rest ih =>
    have hin := hwin.in_array h.pow hi0
    have hlevel := level_nonneg h.pow hwin.le
    unfold remove_plan_climb
    refine Prog.meets_seq (meets_look _ t fun _ => ?_) ?_
    · exact density_bound_exists (by omega) (by omega)
    rintro density_b t1 ⟨hk1, hm1, s1, -, hb⟩
    refine Prog.meets_seq (meets_look _ t1 fun hw => ?_) ?_
    · have hw := fixed_of_sound hw
      exact get_density_exists (by rw [hk1.2 hw, (h.sized hw).items, h.size]; exact hin)
    rintro density t2 ⟨hk2, hm2, s2, hs2, hd⟩
    have hk := hk1.trans hk2
    have h2 := (h.keeps hk1 hm1).keeps hk2 hm2
    have hd' : w ≠ .crowd → density - 1 / (logN N * 2 ^ j : Nat) =
        ((filled t.s.items (find_node i0 (logN N * 2 ^ j)) (logN N * 2 ^ j) : ℚ) - 1) /
          (logN N * 2 ^ j : Nat) := by
      intro hw
      rw [hs2.2 hw, hk1.2 hw] at hd
      rw [(get_density_ok hd).2, sub_div, hwin.at_]
    split
    · rename_i hempty
      have hsp : w ≠ .crowd → SparseBelow t.s N i0 (j + 1) := by
        intro hw
        refine (hsparse hw).succ ((too_empty_iff hb).mp ?_)
        rw [← hd' hw]
        exact hempty
      dsimp only
      split
      · rename_i hle
        split
        · rename_i hleft
          refine Prog.meets_seq (meets_release h2) ?_
          rintro _ t3 ⟨hk3, hf⟩
          exact ⟨hk.trans hk3, hf, hleft.2⟩
        · rename_i hleft
          have hup := hwin.up hle
          have hmn : mn * logN N ≤ find_node ni (logN N * 2 ^ j * 2) := by
            by_cases hlt : find_node ni (logN N * 2 ^ j * 2) < ni
            · exact mul_le_of_le_div (Nat.le_of_not_lt fun hc => hleft ⟨hlt, hc⟩)
            · omega
          refine Prog.meets_seq (meets_lock_up_to _ h2 fun _ =>
            h2.up_to_end (hup.in_array h.pow hi0)) ?_
          rintro mx' t3 ⟨rfl, hk3, h3⟩
          have hj : logN N * 2 ^ j * 2 = logN N * 2 ^ (j + 1) := by rw [Nat.pow_succ, Nat.mul_assoc]
          have hend' := hup.end_le (m := mx)
          unfold get_node_id at h3 ⊢
          rw [hj] at hup hmn h3 hend' ⊢
          have hr : N < logN N * 2 ^ (j + 1) * 2 ^ rest := by
            rw [← hj, Nat.mul_assoc _ 2, Nat.mul_comm 2, ← Nat.pow_succ]
            exact hrest
          have hkt := hk.trans hk3
          have := ih (j + 1) _ h3 hmn hup hend' (fun hw => by rw [hkt.2 hw]; exact hsp hw) hr
          rw [show (height N : Int) - j - 1 = height N - (j + 1 : Nat) by push_cast; ring]
          exact Prog.meets_mono this fun c v hc => hc.of_keeps hkt (by omega)
      · rename_i hlt
        obtain ⟨hlen, rfl⟩ := hwin.whole h.pow hlt hi0
        have hmn : mn = 0 := by
          have := logN_pos N
          rcases Nat.eq_zero_or_pos mn with hz | hp
          · exact hz
          · exact absurd hni (by have := Nat.mul_pos hp this; omega)
        subst hmn
        have htab := h2.in_table
        have hmx : mx = N / logN N - 1 := by
          rw [Nat.zero_add, hlen] at hend
          have : N / logN N ≤ mx + 1 := by
            have := Nat.div_le_div_right (c := logN N) hend
            rwa [Nat.mul_div_cancel _ (logN_pos N)] at this
          omega
        subst hmx
        have hj : j = height N := by
          have heq : logN N * 2 ^ j = logN N * 2 ^ height N := hlen.trans (height_eq h.pow)
          exact Nat.pow_right_injective (le_refl 2) (Nat.eq_of_mul_eq_mul_left (logN_pos N) heq)
        subst hj
        exact ⟨hk, rfl, h2, hsp⟩
    · rename_i hempty
      refine ⟨hk, rfl, le_refl mx, h2, hni, hend, hwin, j, rfl, fun hw => ?_⟩
      refine ⟨hlevel, hsparse hw, fun hbelow => hempty ?_⟩
      rw [hd' hw]
      exact (too_empty_iff hb).mpr hbelow

/-! ## The planner -/

/-- The edge is stored at the slot. -/
def StoredAt (s : PCSR) (index : Nat) (elem : Edge) : Prop :=
  ∃ item, s.items[index]? = some item ∧ item.is_null = false ∧ is_sentinel elem = false ∧
    item.dest = elem.dest

/-- The slot passes the two tests of a removal. -/
def Passes (s : PCSR) (N src index : Nat) (elem : Edge) (v : Nat) : Prop :=
  correct_position s src index elem.dest = true ∧ s.load (index / logN N) = .ok v

/-- How `acquire_remove_locks` ends. -/
def RemoveEnd (w : World) (may : Bool) (N : Nat) (t : Own) (src index : Nat) (elem : Edge)
    (v : Nat) : Acquired → Own → Prop
  | .special .NEED_RETRY, t' =>
    Free w N t' ∧ (w = .sound → may = true ∧ ¬ Passes t.s N src index elem v)
  | .special .EDGE_NOT_FOUND, t' =>
    Free w N t' ∧ (w ≠ .crowd → ¬ StoredAt t.s index elem) ∧
      (w = .sound → may = true → Passes t.s N src index elem v)
  | .special .NEED_GLOBAL_WRITE, t' =>
    Held w N t' 0 (N / logN N - 1) ∧
      (w ≠ .crowd → StoredAt t.s index elem ∧ PositionRead t.s src index ∧
        SparseToRoot t.s N index) ∧
      (w = .sound → may = true → Passes t.s N src index elem v)
  | .range a b, t' =>
    Held w N t' a b ∧ (w ≠ .crowd → StoredAt t.s index elem ∧ ∃ j, StopsAt t.s N index j ∧
        a * logN N ≤ find_node index (logN N * 2 ^ j) ∧
        find_node index (logN N * 2 ^ j) + logN N * 2 ^ j ≤ (b + 1) * logN N) ∧
      (w = .sound → may = true → Passes t.s N src index elem v)

theorem RemoveEnd.of_eq {src index v : Nat} {elem : Edge} {a : Acquired} {t' : Own}
    (hk : w ≠ .crowd → u.s = t.s) (h : RemoveEnd w may N u src index elem v a t') :
    RemoveEnd w may N t src index elem v a t' := by
  by_cases hw : w = .crowd
  · subst hw
    rcases a with (_ | _ | _) | ⟨a, b⟩
    · exact ⟨h.1, fun hw => absurd rfl hw, fun hw => by cases hw⟩
    · exact ⟨h.1, fun hw => by cases hw⟩
    · exact ⟨h.1, fun hw => absurd rfl hw, fun hw => by cases hw⟩
    · exact ⟨h.1, fun hw => absurd rfl hw, fun hw => by cases hw⟩
  · unfold RemoveEnd at h ⊢
    rw [hk hw] at h
    exact h

/-- How a try ends, from the left bound `m`. -/
def RemovePlan (w : World) (may : Bool) (N : Nat) (t : Own) (src index : Nat) (elem : Edge)
    (v m : Nat) : Nat ⊕ Acquired → Own → Prop
  | .inl left, t' => Keeps w t t' ∧ Free w N t' ∧ left < m
  | .inr a, t' => Keeps w t t' ∧ RemoveEnd w may N t src index elem v a t'

theorem meets_remove_first_locks (node_id : Nat) (left : Option Nat)
    (h : Free w N t) (hleft : ∀ l, left = some l → l ≤ node_id)
    (hi : w = .sound → node_id < N / logN N) :
    Prog.Meets (locking w may) (remove_first_locks node_id left)
      (fun mn t' => Keeps w t t' ∧ mn = left.getD node_id ∧ Held w N t' mn node_id) t := by
  have hi' : w = .sound → Sized t.s ∧ node_id < t.s.N / logN t.s.N := fun hw => by
    rw [h.size]
    exact ⟨h.sized (fixed_of_sound hw), hi hw⟩
  unfold remove_first_locks
  rcases left with _ | l
  · refine Prog.meets_seq (meets_take_first .exclusive node_id h.mode hi') ?_
    rintro _ t1 ⟨htab, rfl⟩
    rw [h.size] at htab
    exact ⟨Keeps.refl _, rfl, held_of_range h (le_refl _) htab⟩
  · have hle := hleft l rfl
    refine Prog.meets_seq (meets_take_range .exclusive l node_id h.mode fun hw _ => hi' hw) ?_
    rintro _ t1 ⟨htab, rfl⟩
    rw [h.size] at htab
    exact ⟨Keeps.refl _, rfl, held_of_range h hle (htab hle)⟩

theorem find_leaf_window (hpow : Pow N) (index : Nat) :
    Window N index (logN N * 2 ^ 0) (find_leaf N index) := by
  refine ⟨⟨0, rfl⟩, ?_, ?_⟩
  · rw [Nat.pow_zero, Nat.mul_one]
    exact logN_le hpow
  · rw [Nat.pow_zero, Nat.mul_one]
    rfl

theorem lt_leaf_mul_two_pow (N : Nat) : N < logN N * 2 ^ 0 * 2 ^ (N + 1) := by
  have : N + 1 < 2 ^ (N + 1) := Nat.lt_two_pow_self
  rw [Nat.pow_zero, Nat.mul_one]
  calc N < 2 ^ (N + 1) := by omega
    _ ≤ logN N * 2 ^ (N + 1) := Nat.le_mul_of_pos_left _ (logN_pos N)

theorem meets_remove_plan_window (src index : Nat) (elem : Edge) (v : Nat) (hindex : index < N)
    (h : Held w N t mn mx) (hmn : mn ≤ index / logN N) (hmx : index / logN N ≤ mx)
    (hstored : w ≠ .crowd → StoredAt t.s index elem) (hread : w ≠ .crowd → PositionRead t.s src index)
    (hpass : w = .sound → may = true → Passes t.s N src index elem v) :
    Prog.Meets (locking w may) (remove_plan_window N (find_leaf N index) mn mx)
      (RemovePlan w may N t src index elem v mn) t := by
  unfold remove_plan_window
  have hclimb : Prog.Meets (locking w may) _ _ t := meets_remove_plan_climb (N + 1) 0 _ index h hindex
    (Nat.mul_le_mul_right _ hmn) (find_leaf_window h.pow index)
    (by
      rw [Nat.pow_zero, Nat.mul_one, ← Nat.succ_mul]
      exact Nat.mul_le_mul_right _ (by omega))
    (fun _ j hj => absurd hj (Nat.not_lt_zero j)) (lt_leaf_mul_two_pow N)
  rw [Nat.pow_zero, Nat.mul_one, Int.natCast_zero, sub_zero] at hclimb
  refine Prog.meets_seq hclimb ?_
  rintro c t1 hc
  cases c with
  | root =>
    obtain ⟨hk, rfl, hheld, hs⟩ := hc
    exact ⟨hk, hheld, fun hw => ⟨hstored hw, hread hw, hs hw⟩, hpass⟩
  | restart left => exact hc
  | window len ni mn' mx' =>
    obtain ⟨hk, rfl, hmx', h1, hni, hend, hwin, j, hj, hs⟩ := hc
    have hsame : find_node ni len = ni := by
      refine find_node_of_dvd ?_
      rw [hwin.at_]
      exact dvd_find_node _ _
    dsimp only
    rw [hsame, if_neg (fun hc => lt_irrefl ni hc.1)]
    refine Prog.meets_seq (meets_lock_up_to _ h1 fun _ =>
      h1.up_to_end (hwin.in_array h.pow hindex)) ?_
    rintro mx'' t2 ⟨rfl, hk2, h2⟩
    rw [hwin.at_, hj] at hni
    have hend' : find_node index (logN N * 2 ^ j) + logN N * 2 ^ j ≤ (mx' + 1) * logN N := by
      rw [← hj, ← hwin.at_]
      exact hend
    have hle : (mx' + 1) * logN N ≤ (mx' + ((ni + len) / logN N - (mx' + 1)) + 1) * logN N :=
      Nat.mul_le_mul_right _ (by omega)
    exact ⟨hk.trans hk2, h2, fun hw => ⟨hstored hw, j, hs hw, hni, hend'.trans hle⟩, hpass⟩

theorem meets_remove_try (index : Nat) (elem : Edge) (src v : Nat) (left : Option Nat)
    (h : Free w N t) (hleft : ∀ l, left = some l → l ≤ index / logN N)
    (hslot : w = .sound → index < N ∧ PositionRead t.s src index) :
    Prog.Meets (locking w may) (remove_try N index elem src v left)
      (RemovePlan w may N t src index elem v (left.getD (index / logN N))) t := by
  unfold remove_try
  dsimp only
  rw [get_node_id_find_leaf]
  refine Prog.meets_seq (meets_remove_first_locks _ _ h hleft fun hw =>
    slot_in_table h.pow (hslot hw).1) ?_
  rintro mn t1 ⟨hk1, rfl, h1⟩
  have hindex : index < N := lt_of_div_lt h.pow h1.in_table
  refine Prog.meets_seq (meets_item h1 hindex) ?_
  rintro ins_edge t2 ⟨hk2, h2, hget⟩
  have hk := hk1.trans hk2
  refine Prog.meets_seq (meets_got_correct ins_edge src index elem _ h2 (fun hw => ?_)
    fun hw => ?_) ?_
  · refine ⟨le_refl _, hindex, ?_⟩
    rw [hk2.2 hw]
    exact hget hw
  · have hw := fixed_of_sound hw
    rw [hk.2 hw]
    have hread := (hslot ‹_›).2
    unfold PositionRead at hread
    rw [List.getD_eq_getElem?_getD] at hread
    rw [hk1.2 hw] at hget
    rwa [hget hw] at hread
  rintro ⟨correct, mx⟩ t3 ⟨hmx, hk3, h3, hread⟩
  have hget : w ≠ .crowd → t.s.items[index]? = some ins_edge := by
    intro hw
    rw [← hk1.2 hw]
    exact hget hw
  have hcorrect : w ≠ .crowd → correct = correct_position t.s src index elem.dest := by
    intro hw
    rw [← hk.2 hw]
    exact (hread hw).1
  replace hread : w ≠ .crowd → ins_edge.is_null = false → elem.dest ≤ ins_edge.dest →
      PositionRead t.s src index := by
    intro hw
    rw [← hk.2 hw]
    exact (hread hw).2
  replace hk := hk.trans hk3
  dsimp only at hmx h3 ⊢
  refine Prog.meets_seq (meets_test _ _ t3) ?_
  rintro rejected t4 ⟨rfl, hrej, -⟩
  split
  · rename_i hr
    refine Prog.meets_seq (meets_release h3) ?_
    rintro _ t5 ⟨hk5, hf⟩
    refine ⟨hk.trans hk5, hf, fun hw => ?_⟩
    have hrej := hrej hw
    rw [hr, hcorrect (fixed_of_sound hw), eq_comm, Bool.and_eq_true] at hrej
    exact ⟨hrej.1, fun hp => by simp [hp.1] at hrej⟩
  rename_i hr
  refine Prog.meets_seq (meets_load h3 _ hmx) ?_
  rintro version t5 ⟨hk5, h5, hload⟩
  have hload : w ≠ .crowd → t.s.load (index / logN N) = .ok version := by
    intro hw
    rw [← hk.2 hw]
    exact hload hw
  replace hk := hk.trans hk5
  refine Prog.meets_seq (meets_test _ _ t5) ?_
  rintro changed t6 ⟨rfl, hch, -⟩
  split
  · rename_i hc
    refine Prog.meets_seq (meets_release h5) ?_
    rintro _ t7 ⟨hk7, hf⟩
    refine ⟨hk.trans hk7, hf, fun hw => ?_⟩
    have hch := hch hw
    rw [hc, eq_comm, Bool.and_eq_true, decide_eq_true_eq] at hch
    refine ⟨hch.1, fun hp => hch.2 ?_⟩
    have := hp.2
    rw [hload (fixed_of_sound hw)] at this
    exact Except.ok.inj this
  rename_i hc
  have hpass : w = .sound → may = true → Passes t.s N src index elem v := by
    intro hw hmay
    have hw' := fixed_of_sound hw
    constructor
    · have h1 := hrej hw
      rw [Bool.not_eq_true] at hr
      rw [hr, hmay, Bool.true_and] at h1
      rw [← hcorrect hw']
      simpa using h1.symm
    · have h1 := hch hw
      rw [Bool.not_eq_true] at hc
      rw [hc, hmay, Bool.true_and] at h1
      have hv : version = v := by simpa using h1.symm
      rw [← hv]
      exact hload hw'
  refine Prog.meets_seq (meets_item h5 hindex) ?_
  rintro item t7 ⟨hk7, h7, hitem⟩
  have hitem : w ≠ .crowd → t.s.items[index]? = some item := by
    intro hw
    rw [← hk.2 hw]
    exact hitem hw
  replace hk := hk.trans hk7
  split
  · rename_i hno
    refine Prog.meets_seq (meets_release h7) ?_
    rintro _ t8 ⟨hk8, hf⟩
    refine ⟨hk.trans hk8, hf, fun hw hst => ?_, hpass⟩
    obtain ⟨item', hi', hn, hs, hd⟩ := hst
    rw [hitem hw] at hi'
    cases hi'
    simp [hn, hs, hd] at hno
  · rename_i hno
    have hst : w ≠ .crowd → StoredAt t.s index elem := by
      intro hw
      refine ⟨item, hitem hw, ?_⟩
      simpa [and_assoc] using hno
    have hpr : w ≠ .crowd → PositionRead t.s src index := by
      intro hw
      obtain ⟨item', hi', hn, -, hd⟩ := hst hw
      rw [hget hw] at hi'
      cases hi'
      exact hread hw hn (le_of_eq hd.symm)
    have hle : left.getD (index / logN N) ≤ index / logN N := by
      rcases left with _ | l
      · exact le_refl _
      · exact hleft l rfl
    refine Prog.meets_mono (meets_remove_plan_window src index elem v hindex h7 hle hmx
      (fun hw => by rw [hk.2 hw]; exact hst hw) (fun hw => by rw [hk.2 hw]; exact hpr hw)
      fun hw => by rw [hk.2 (fixed_of_sound hw)]; exact hpass hw) ?_
    rintro r t8 hr8
    rcases r with l | a
    · exact ⟨hk.trans hr8.1, hr8.2⟩
    · exact ⟨hk.trans hr8.1, hr8.2.of_eq hk.2⟩

/-- `acquire_remove_locks`: it ends with a range of leaves that it holds, or with all leaves, or
it holds none. Each restart moves the left bound to the left. -/
theorem meets_acquire_remove_locks (index : Nat) (elem : Edge) (src v : Nat) (rest : Nat)
    (left : Option Nat) (h : Free w N t) (hleft : ∀ l, left = some l → l ≤ index / logN N)
    (hslot : w = .sound → index < N ∧ PositionRead t.s src index)
    (hrest : w = .sound → left.getD (index / logN N) < rest) :
    Prog.Meets (locking w may) (acquire_remove_locks N index elem src v rest left)
      (fun a t' => Keeps w t t' ∧ RemoveEnd w may N t src index elem v a t') t := by
  induction rest generalizing left t with
  | zero => exact meets_stuck fun hw => absurd (hrest hw) (Nat.not_lt_zero _)
  | succ rest ih =>
    unfold acquire_remove_locks
    refine Prog.meets_seq (meets_remove_try index elem src v left h hleft hslot) ?_
    rintro r t1 hr
    rcases r with l | a
    · obtain ⟨hk, hf, hl⟩ := hr
      have hle : l ≤ index / logN N := by
        rcases left with _ | l0
        · exact Nat.le_of_lt hl
        · exact (Nat.le_of_lt hl).trans (hleft l0 rfl)
      refine Prog.meets_mono (ih (some l) hf (fun l' h' => by cases h'; exact hle) (fun hw => ?_)
        fun hw => ?_) ?_
      · rw [hk.2 (fixed_of_sound hw)]
        exact hslot hw
      · have := hrest hw
        show l < rest
        omega
      · rintro a t2 ⟨hk2, ha⟩
        exact ⟨hk.trans hk2, ha.of_eq hk.2⟩
    · exact hr

end

end packed_csr
