-- The plan of an insertion: each part of `acquire_insert_locks` keeps the range
-- that is held in one piece, where it gives up it holds nothing, and what it
-- ends up with covers the window, the spill and the slides.
import PackedCsr.LockPlans

namespace packed_csr

open effects

section

variable {w : World} {may : Bool} {t u : Own} {N mn mx : Nat}

/-! ## Crowded windows -/

/-- `c` items are too many for a window on level `j` over the leaves. -/
def Above (N j : Nat) (c : ℚ) : Prop :=
  height N ≠ 0 ∧
    3 / 4 + (1 / 4 * ((height N - j : Int) : ℚ)) / height N ≤ c / (logN N * 2 ^ j : Nat)

theorem too_full_iff {j : Nat} {c : ℚ} {b : Option pair_double}
    (hb : density_bound N (height N - j) = .ok b) :
    too_full (c / (logN N * 2 ^ j : Nat)) b = true ↔ Above N j c := by
  obtain ⟨-, -, rfl⟩ := density_bound_ok hb
  unfold Above
  by_cases hh : height N = 0
  · rw [if_pos hh]
    simp [too_full, hh]
  · rw [if_neg hh]
    simp [too_full, hh]

/-- With one more item, the windows of slot `i0` on the levels below `m` are too full. -/
def CrowdedBelow (s : PCSR) (N i0 m : Nat) : Prop :=
  ∀ j < m, Above N j (filled s.items (find_node i0 (logN N * 2 ^ j)) (logN N * 2 ^ j) + 1)

/-- The climb of an insertion stops at a window of level `j`. -/
def FitsAt (s : PCSR) (N i0 j : Nat) : Prop :=
  j ≤ height N ∧ CrowdedBelow s N i0 j ∧
    ¬ Above N j (filled s.items (find_node i0 (logN N * 2 ^ j)) (logN N * 2 ^ j) + 1)

/-- The climb of an insertion runs past the root. -/
def CrowdedToRoot (s : PCSR) (N i0 : Nat) : Prop := CrowdedBelow s N i0 (height N + 1)

theorem CrowdedBelow.succ {s : PCSR} {i0 j : Nat} (h : CrowdedBelow s N i0 j)
    (hj : Above N j (filled s.items (find_node i0 (logN N * 2 ^ j)) (logN N * 2 ^ j) + 1)) :
    CrowdedBelow s N i0 (j + 1) := by
  intro k hk
  rcases Nat.eq_or_lt_of_le (Nat.le_of_lt_succ hk) with rfl | hlt
  · exact hj
  · exact h k hlt

/-! ## The plan of an insertion -/

/-- How the climb of an insertion leaves the locks. -/
def InsertClimb (w : World) (N : Nat) (t : Own) (i0 mn mx : Nat) : Climb → Own → Prop
  | .root, t' => Keeps w t t' ∧ Free w N t' ∧ (w ≠ .crowd → CrowdedToRoot t.s N i0)
  | .restart left, t' => Keeps w t t' ∧ Free w N t' ∧ left < mn
  | .window len ni mn' mx', t' =>
    Keeps w t t' ∧ mn' = mn ∧ mx ≤ mx' ∧ Held w N t' mn mx' ∧ mn * logN N ≤ ni ∧
      Window N i0 len ni ∧ (w ≠ .crowd → height N = 0 ∨ filled t.s.items ni len + 2 ≤ len) ∧
      ∃ j, len = logN N * 2 ^ j ∧ (w ≠ .crowd → FitsAt t.s N i0 j)

theorem InsertClimb.of_keeps {c : Climb} {v : Own} {i0 mx0 : Nat} (hk : Keeps w t u)
    (hmx : mx0 ≤ mx) (h : InsertClimb w N u i0 mn mx c v) : InsertClimb w N t i0 mn mx0 c v := by
  cases c with
  | root =>
    obtain ⟨hk', hf, hroot⟩ := h
    exact ⟨hk.trans hk', hf, fun hw => by rw [← hk.2 hw]; exact hroot hw⟩
  | restart left => exact ⟨hk.trans h.1, h.2⟩
  | window len ni mn' mx' =>
    obtain ⟨hk', rfl, hmx', hheld, hni, hwin, hroom, j, hj, hfits⟩ := h
    refine ⟨hk.trans hk', rfl, by omega, hheld, hni, hwin, fun hw => ?_, j, hj, fun hw => ?_⟩
    · rw [← hk.2 hw]
      exact hroom hw
    · rw [← hk.2 hw]
      exact hfits hw

theorem meets_insert_plan_climb (rest j ni i0 : Nat) (h : Held w N t mn mx) (hi0 : i0 < N)
    (hni : mn * logN N ≤ ni) (hwin : Window N i0 (logN N * 2 ^ j) ni)
    (hcrowded : w ≠ .crowd → CrowdedBelow t.s N i0 j) (hrest : N < logN N * 2 ^ j * 2 ^ rest) :
    Prog.Meets (locking w may)
      (insert_plan_climb N rest (logN N * 2 ^ j) (height N - j) ni mn mx)
      (InsertClimb w N t i0 mn mx) t := by
  induction rest generalizing j ni mx t with
  | zero => exact absurd hwin.le (by simpa using hrest)
  | succ rest ih =>
    have hin := hwin.in_array h.pow hi0
    have hlevel := level_nonneg h.pow hwin.le
    unfold insert_plan_climb
    refine Prog.meets_seq (meets_look _ t fun _ => ?_) ?_
    · exact density_bound_exists (by omega) (by omega)
    rintro density_b t1 ⟨hk1, hm1, s1, -, hb⟩
    refine Prog.meets_seq (meets_look _ t1 fun hw => ?_) ?_
    · have hw := fixed_of_sound hw
      have hk := hk1.2 hw
      exact get_density_exists (by rw [hk, (h.sized hw).items, h.size]; exact hin)
    rintro density t2 ⟨hk2, hm2, s2, hs2, hd⟩
    have hk := hk1.trans hk2
    have h2 := (h.keeps hk1 hm1).keeps hk2 hm2
    have hd' : w ≠ .crowd → density + 1 / (logN N * 2 ^ j : Nat) =
        ((filled t.s.items (find_node i0 (logN N * 2 ^ j)) (logN N * 2 ^ j) : ℚ) + 1) /
          (logN N * 2 ^ j : Nat) := by
      intro hw
      rw [hs2.2 hw, hk1.2 hw] at hd
      rw [(get_density_ok hd).2, add_div, hwin.at_]
    have hrec : ∀ mx' t3, mx ≤ mx' → Keeps w t t3 → Held w N t3 mn mx' →
        logN N * 2 ^ j * 2 ≤ N → mn * logN N ≤ find_node ni (logN N * 2 ^ j * 2) →
        (w ≠ .crowd → CrowdedBelow t.s N i0 (j + 1)) →
        Prog.Meets (locking w may)
          (insert_plan_climb N rest (logN N * 2 ^ j * 2) (height N - j - 1)
            (find_node ni (logN N * 2 ^ j * 2)) mn mx')
          (InsertClimb w N t i0 mn mx) t3 := by
      intro mx' t3 hmx hk3 h3 hle hmn hcr
      have hj : logN N * 2 ^ j * 2 = logN N * 2 ^ (j + 1) := by rw [Nat.pow_succ, Nat.mul_assoc]
      have hup := hwin.up hle
      rw [hj] at hup hmn ⊢
      have hr : N < logN N * 2 ^ (j + 1) * 2 ^ rest := by
        rw [← hj, Nat.mul_assoc _ 2, Nat.mul_comm 2, ← Nat.pow_succ]
        exact hrest
      have := ih (j + 1) _ h3 hmn hup (fun hw => by rw [hk3.2 hw]; exact hcr hw) hr
      rw [show (height N : Int) - j - 1 = height N - (j + 1 : Nat) by push_cast; ring]
      exact Prog.meets_mono this fun c v hc => hc.of_keeps hk3 hmx
    split
    · rename_i hfull
      have hcr : w ≠ .crowd → CrowdedBelow t.s N i0 (j + 1) := by
        intro hw
        apply (hcrowded hw).succ
        apply (too_full_iff hb).mp
        rw [← hd' hw]
        exact hfull
      dsimp only
      split
      · rename_i hle
        split
        · split
          · -- the window starts left of the locks
            rename_i hlt
            refine Prog.meets_seq (meets_release h2) ?_
            rintro _ t3 ⟨hk3, hm3⟩
            exact ⟨hk.trans hk3, hm3, hlt⟩
          · rename_i hge
            have hge := Nat.le_of_not_lt hge
            rw [Nat.min_eq_left hge]
            exact hrec mx t2 (le_refl mx) hk h2 hle (mul_le_of_le_div hge) hcr
        · rename_i hsame
          rw [get_node_id_find_leaf]
          refine Prog.meets_seq (meets_lock_up_to _ h2 fun _ =>
            h2.up_to_end ((hwin.up hle).in_array h.pow hi0)) ?_
          rintro mx' t3 ⟨rfl, hk3, h3⟩
          exact hrec _ t3 (by omega) (hk.trans hk3) h3 hle (by omega) hcr
      · rename_i hlt
        have hj : j = height N := by
          have heq : logN N * 2 ^ j = logN N * 2 ^ height N :=
            (hwin.whole h.pow hlt hi0).1.trans (height_eq h.pow)
          exact Nat.pow_right_injective (le_refl 2) (Nat.eq_of_mul_eq_mul_left (logN_pos N) heq)
        refine Prog.meets_seq (meets_release h2) ?_
        rintro _ t3 ⟨hk3, hm3⟩
        refine ⟨hk.trans hk3, hm3, ?_⟩
        rw [hj] at hcr
        exact hcr
    · rename_i hfull
      refine ⟨hk, rfl, le_refl mx, h2, hni, hwin, fun hw => ?_, j, rfl, fun hw => ?_⟩
      · rw [hs2.2 hw, hk1.2 hw] at hd
        exact room_of_not_too_full hwin.len_pow.pos hb hd hfull
      · refine ⟨by omega, hcrowded hw, fun habove => hfull ?_⟩
        rw [hd' hw]
        exact (too_full_iff hb).mpr habove

/-- The leaf where the climb of an insertion starts: the left one of the pair when the
insertion fills its leaf. -/
def climb_start (full : Bool) (N index : Nat) : Nat :=
  if full then find_node index (logN N * 2) else find_leaf N index

/-- The leaf where the climb of an insertion at slot `index` starts. -/
def plan_start (s : PCSR) (N index : Nat) : Nat :=
  climb_start (filled s.items (find_leaf N index) (logN N) + 1 == logN N) N index

/-- How the search for a window of an insertion leaves the locks. The window is held, and so
are the two leaves that share a spill. -/
def InsertWindow (w : World) (N : Nat) (t : Own) (index mn mx : Nat) : Climb → Own → Prop
  | .root, t' =>
    Keeps w t t' ∧ Free w N t' ∧ (w ≠ .crowd → CrowdedToRoot t.s N (plan_start t.s N index))
  | .restart left, t' => Keeps w t t' ∧ Free w N t' ∧ left < mn
  | .window len ni mn' mx', t' =>
    Keeps w t t' ∧ mn' = mn ∧ mx ≤ mx' ∧ Held w N t' mn mx' ∧ mn * logN N ≤ ni ∧
      ni + len ≤ (mx' + 1) * logN N ∧ (∃ i0 < N, Window N i0 len ni) ∧
      (w ≠ .crowd → height N = 0 ∨ (filled t.s.items ni len + 2 ≤ len ∧
        (logN N ≤ filled t.s.items (find_leaf N index) (logN N) + 1 →
          mn * logN N ≤ find_node index (logN N * 2) ∧
            find_node index (logN N * 2) + logN N * 2 ≤ (mx' + 1) * logN N))) ∧
      ∃ j, len = logN N * 2 ^ j ∧ (w ≠ .crowd →
        ni = find_node (plan_start t.s N index) len ∧ FitsAt t.s N (plan_start t.s N index) j)

/-- A window above the leaves holds the two leaves that share a spill. -/
theorem Window.holds_pair {i0 len ni : Nat} (h : Window N i0 len ni) (hne : len ≠ logN N) :
    ni ≤ find_node i0 (logN N * 2) ∧ find_node i0 (logN N * 2) + logN N * 2 ≤ ni + len := by
  obtain ⟨j, hj⟩ := h.pow
  rcases j with _ | j
  · exact absurd (by simpa using hj) hne
  · have hdvd : logN N * 2 ∣ len := ⟨2 ^ j, by rw [hj, Nat.pow_succ, Nat.mul_assoc, Nat.mul_comm 2]⟩
    rw [h.at_]
    exact find_node_nest i0 hdvd (by have := logN_pos N; omega) h.len_pow.pos

theorem climb_start_window (hpow : Pow N) (full : Bool) (index : Nat) :
    Window N (climb_start full N index) (logN N * 2 ^ 0) (climb_start full N index) := by
  refine ⟨⟨0, rfl⟩, by rw [Nat.pow_zero, Nat.mul_one]; exact logN_le hpow, ?_⟩
  rw [Nat.pow_zero, Nat.mul_one]
  refine (find_node_of_dvd ?_).symm
  unfold climb_start
  split
  · exact (Nat.dvd_mul_right _ 2).trans (dvd_find_node _ _)
  · exact dvd_find_node _ _

theorem find_leaf_add (N i : Nat) : find_leaf N i + logN N = (i / logN N + 1) * logN N :=
  (Nat.succ_mul _ _).symm

/-- The pair of leaves of a spill lies between `mn` and `m`, where the leaf and the window do. -/
theorem Window.covers_pair {items : List Edge} {index len ni m : Nat} {full : Bool}
    (hwin : Window N (climb_start full N index) len ni)
    (hmn : mn * logN N ≤ climb_start full N index) (hni : mn * logN N ≤ ni)
    (hm : index / logN N ≤ m) (hend : ni + len ≤ (m + 1) * logN N)
    (hroom : filled items ni len + 2 ≤ len)
    (hspill : logN N ≤ filled items (find_leaf N index) (logN N) + 1) :
    mn * logN N ≤ find_node index (logN N * 2) ∧
      find_node index (logN N * 2) + logN N * 2 ≤ (m + 1) * logN N := by
  have hL := logN_pos N
  -- a window above the leaf has room, so the full leaf is not the window
  have hpair : climb_start full N index = find_leaf N index →
      mn * logN N ≤ find_node index (logN N * 2) ∧
        find_node index (logN N * 2) + logN N * 2 ≤ (m + 1) * logN N := by
    intro hs
    rw [hs] at hwin
    have hne : len ≠ logN N := by
      rintro rfl
      rw [hwin.at_, find_leaf_eq, find_node_of_dvd (dvd_find_node index (logN N))] at hroom
      rw [find_leaf_eq] at hspill
      omega
    obtain ⟨h1, h2⟩ := hwin.holds_pair hne
    rw [find_leaf_eq, find_node_find_node (Nat.dvd_mul_right _ 2) hL] at h1 h2
    exact ⟨hni.trans h1, h2.trans hend⟩
  rcases full with _ | _
  · exact hpair rfl
  · rcases find_node_two index (logN N) with hs | hs
    · exact hpair hs
    · refine ⟨hmn, ?_⟩
      calc find_node index (logN N * 2) + logN N * 2 = find_leaf N index + logN N := by
            rw [find_leaf_eq, ← hs]
            omega
        _ = (index / logN N + 1) * logN N := find_leaf_add N index
        _ ≤ _ := Nat.mul_le_mul_right _ (by omega)

theorem meets_insert_plan_window (index : Nat) (hindex : index < N) (h : Held w N t mn mx)
    (hmn : mn ≤ index / logN N) (hmx : index / logN N ≤ mx) :
    Prog.Meets (locking w may) (insert_plan_window N (find_leaf N index) mn mx)
      (InsertWindow w N t index mn mx) t := by
  unfold insert_plan_window
  dsimp only
  refine Prog.meets_seq (meets_look _ t fun hw => ?_) ?_
  · have hs := h.sized (fixed_of_sound hw)
    refine get_density_exists ?_
    rw [hs.items, h.size]
    exact find_node_add_le (pow_logN N) h.pow (logN_le h.pow) hindex
  rintro density t1 ⟨hk1, hm1, s1, hs1, hd⟩
  have h1 := h.keeps hk1 hm1
  have hL := logN_pos N
  have hsib : find_node (find_leaf N index) (2 * logN N) = find_node index (logN N * 2) := by
    rw [Nat.mul_comm, find_leaf_eq, find_node_find_node (Nat.dvd_mul_right _ 2) hL]
  rw [hsib]
  have hstarts : w ≠ .crowd → plan_start t.s N index =
      climb_start (decide (density + 1 / (logN N : ℚ) = 1)) N index := by
    intro hw
    rw [hs1.2 hw] at hd
    rw [(get_density_ok hd).2, ← add_div]
    unfold plan_start
    congr 1
    have hpos : (logN N : ℚ) ≠ 0 := by exact_mod_cast (Nat.ne_of_gt hL)
    rw [Bool.eq_iff_iff, beq_iff_eq, decide_eq_true_eq, div_eq_one_iff_eq hpos]
    exact_mod_cast Iff.rfl
  generalize hfull : decide (density + 1 / (logN N : ℚ) = 1) = full at hstarts
  -- the lock right of the leaf is never taken here
  have hright : (full && find_node index (logN N * 2) == find_leaf N index &&
      decide (mx < get_node_id N (find_node index (logN N * 2)))) = false := by
    simp only [Bool.and_eq_false_iff, beq_eq_false_iff_ne, decide_eq_false_iff_not]
    by_cases hs : find_node index (logN N * 2) = find_leaf N index
    · right
      rw [hs, get_node_id_find_leaf]
      omega
    · exact .inl (.inr hs)
  rw [hright]
  simp only [Bool.not_false, Bool.and_true, leaf_if, Bool.false_eq_true, if_false, Prog.pure_eq,
    Prog.ret_bind]
  split
  · rename_i hleft
    simp only [Bool.and_eq_true, decide_eq_true_eq] at hleft
    refine Prog.meets_seq (meets_release h1) ?_
    rintro _ t2 ⟨hk2, hm2⟩
    exact ⟨hk1.trans hk2, hm2, hleft.2⟩
  rename_i hleft
  have hstart : (if full = true then find_node index (logN N * 2) else find_leaf N index) =
      climb_start full N index := rfl
  have hi0 : climb_start full N index < N := by
    unfold climb_start
    split
    · exact Nat.lt_of_le_of_lt (find_node_le _ _) hindex
    · exact Nat.lt_of_le_of_lt (find_node_le _ _) hindex
  have hmn0 : mn * logN N ≤ climb_start full N index := by
    unfold climb_start
    split
    · rename_i hf
      simp only [hf, Bool.true_and, decide_eq_true_eq] at hleft
      exact mul_le_of_le_div (Nat.le_of_not_lt hleft)
    · exact Nat.mul_le_mul_right _ hmn
  have hclimb : Prog.Meets (locking w may) _ _ t1 := meets_insert_plan_climb (N + 1) 0 _ _ h1 hi0 hmn0
    (climb_start_window h.pow full index) (fun _ k hk => absurd hk (Nat.not_lt_zero k)) (by
      have : N + 1 < 2 ^ (N + 1) := Nat.lt_two_pow_self
      rw [Nat.pow_zero, Nat.mul_one]
      calc N < 2 ^ (N + 1) := by omega
        _ ≤ logN N * 2 ^ (N + 1) := Nat.le_mul_of_pos_left _ hL)
  rw [Nat.pow_zero, Nat.mul_one, Int.natCast_zero, sub_zero] at hclimb
  rw [hstart]
  refine Prog.meets_seq hclimb ?_
  rintro c t2 hc
  cases c with
  | root =>
    refine ⟨hk1.trans hc.1, hc.2.1, fun hw => ?_⟩
    rw [hstarts hw, ← hk1.2 hw]
    exact hc.2.2 hw
  | restart left => exact ⟨hk1.trans hc.1, hc.2⟩
  | window len ni mn' mx' =>
    obtain ⟨hk2, rfl, hmx', h2, hni, hwin, hroom, j, hj, hfits⟩ := hc
    have hk := hk1.trans hk2
    have hsame : find_node ni len = ni := by
      refine find_node_of_dvd ?_
      rw [hwin.at_]
      exact dvd_find_node _ _
    dsimp only
    rw [hsame, if_neg (lt_irrefl ni), get_node_id_find_leaf]
    refine Prog.meets_seq (meets_lock_up_to _ h2 fun _ =>
      h2.up_to_end (hwin.in_array h.pow hi0)) ?_
    rintro mx'' t3 ⟨rfl, hk3, h3⟩
    have hend := hwin.end_le (m := mx')
    refine ⟨hk.trans hk3, rfl, by omega, h3, hni, hend, ⟨_, hi0, hwin⟩, fun hw => ?_, j, hj,
      fun hw => ?_⟩
    · rcases hroom hw with hh | hroom
      · exact .inl hh
      rw [hk1.2 hw] at hroom
      exact .inr ⟨hroom, hwin.covers_pair hmn0 hni (by omega) hend hroom⟩
    · rw [hstarts hw, ← hk1.2 hw]
      exact ⟨hwin.at_, hfits hw⟩

/-! ## The locks for the slides -/

/-- What the locks for a slide to the right of `index` cover: the first gap behind it, or, where
there is none, all slots behind it. -/
def SlideRight (s : PCSR) (N i mx : Nat) (off_end : Bool) : Prop :=
  if off_end then ∀ k, i ≤ k → k < N → ¬ IsGap s k ∧ k / logN N ≤ mx
  else ∃ q, i ≤ q ∧ q < N ∧ IsGap s q ∧ q / logN N ≤ mx ∧ ∀ k, i ≤ k → k < q → ¬ IsGap s k

theorem not_isGap {s : PCSR} {i : Nat} {e : Edge} (h : s.items[i]? = some e)
    (he : ¬ e.is_null = true) : ¬ IsGap s i := by
  rintro ⟨e', he', hn⟩
  rw [h] at he'
  cases he'
  exact he hn

theorem SlideRight.next {s : PCSR} {i mx mx' : Nat} {off_end : Bool} (hi : ¬ IsGap s i)
    (hmx : i / logN N ≤ mx) (hle : mx ≤ mx') (h : SlideRight s N (i + 1) mx' off_end) :
    SlideRight s N i mx' off_end := by
  unfold SlideRight at *
  split
  · rename_i ho
    rw [if_pos ho] at h
    intro k hk hkN
    rcases Nat.eq_or_lt_of_le hk with rfl | hlt
    · exact ⟨hi, by omega⟩
    · exact h k hlt hkN
  · rename_i ho
    rw [if_neg ho] at h
    obtain ⟨q, h1, h2, h3, h4, h5⟩ := h
    refine ⟨q, by omega, h2, h3, h4, fun k hk hkq => ?_⟩
    rcases Nat.eq_or_lt_of_le hk with rfl | hlt
    · exact hi
    · exact h5 k hlt hkq

theorem meets_slide_right_locks (rest i node : Nat) (h : Held w N t mn mx) (hi : i + rest = N)
    (hnode : node ≤ mx) (hlt : node * logN N < i) (hle : i ≤ (node + 1) * logN N) :
    Prog.Meets (locking w may) (slide_right_locks N rest i node (node * logN N) mx)
      (fun r t' => mx ≤ r.2 ∧ Keeps w t t' ∧ Held w N t' mn r.2 ∧
        (w ≠ .crowd → SlideRight t.s N i r.2 r.1)) t := by
  induction rest generalizing i node mx t with
  | zero =>
    refine ⟨le_refl mx, Keeps.refl t, h, fun _ => ?_⟩
    simp only [SlideRight, if_true]
    intro k hk hkN
    omega
  | succ rest ih =>
    unfold slide_right_locks
    dsimp only
    have hsucc : (node + 1) * logN N = node * logN N + logN N := Nat.succ_mul _ _
    -- the round behind the lock, with the leaf of slot `i` held
    have hround : ∀ mx' node' t1, mx ≤ mx' → Keeps w t t1 → Held w N t1 mn mx' → node' ≤ mx' →
        node' * logN N ≤ i → i < (node' + 1) * logN N → Prog.Meets (locking w may)
          (do
            let item ← look (·.item i)
            if item.is_null then pure (false, mx')
            else slide_right_locks N rest (i + 1) node' (node' * logN N) mx')
          (fun r t' => mx ≤ r.2 ∧ Keeps w t t' ∧ Held w N t' mn r.2 ∧
            (w ≠ .crowd → SlideRight t.s N i r.2 r.1)) t1 := by
      intro mx' node' t1 hmx hk1 h1 hn' hlo hhi
      have hleaf : i / logN N ≤ mx' := by
        have : i / logN N < node' + 1 := Nat.div_lt_of_lt_mul (by rw [Nat.mul_comm]; exact hhi)
        omega
      refine Prog.meets_seq (meets_look _ t1 fun hw => ?_) ?_
      · have hw := fixed_of_sound hw
        exact ⟨_, item_of_lt (by rw [(h1.sized hw).items, h1.size]; omega)⟩
      rintro item t2 ⟨hk2, hm2, s2, hs2, hitem⟩
      have hk := hk1.trans hk2
      have h2 := h1.keeps hk2 hm2
      have hget : w ≠ .crowd → t.s.items[i]? = some item := by
        intro hw
        have := item_ok hitem
        rwa [hs2.2 hw, hk1.2 hw] at this
      split
      · rename_i hnull
        refine ⟨hmx, hk, h2, fun hw => ?_⟩
        simp only [SlideRight, Bool.false_eq_true, if_false]
        exact ⟨i, le_refl i, by omega, ⟨item, hget hw, hnull⟩, hleaf, fun k _ _ => by omega⟩
      · rename_i hnull
        refine Prog.meets_mono (ih (i + 1) node' h2 (by omega) hn' (by omega) (by omega)) ?_
        rintro r t3 ⟨hr, hk3, h3, hv⟩
        refine ⟨by omega, hk.trans hk3, h3, fun hw => ?_⟩
        have := hv hw
        rw [hk.2 hw] at this
        exact this.next (not_isGap (hget hw) hnull) hleaf hr
    by_cases henters : node * logN N + logN N ≤ i
    · have hi_eq : i = (node + 1) * logN N := by omega
      simp only [henters, decide_true, Bool.true_and, if_true]
      by_cases hlock : mx < node + 1
      · have hmx : node + 1 = mx + 1 := by omega
        simp only [hlock, decide_true, leaf_if, if_true]
        rw [hmx]
        refine Prog.meets_seq (meets_lock_next h fun hw => ?_) ?_
        · refine Nat.lt_of_le_of_lt (le_div_of_mul_le (?_ : _ ≤ i)) (slot_in_table h.pow (by omega))
          rw [← hmx, ← hi_eq]
        rintro _ t1 ⟨hk1, h1⟩
        have := hround (mx + 1) (mx + 1) t1 (by omega) hk1 h1 (le_refl _) (by rw [← hmx, ← hi_eq])
          (by rw [← hmx, Nat.succ_mul (node + 1), ← hi_eq]; have := logN_pos N; omega)
        rw [← hmx] at this ⊢
        rw [← hi_eq] at this
        exact this
      · simp only [hlock, decide_false, leaf_if, Bool.false_eq_true, if_false, Prog.pure_eq,
          Prog.ret_bind]
        have := hround mx (node + 1) t (le_refl mx) (Keeps.refl t) h (by omega) (by omega)
          (by rw [Nat.succ_mul (node + 1)]; have := logN_pos N; omega)
        rw [← hi_eq] at this
        exact this
    · simp only [henters, decide_false, Bool.false_and, leaf_if, Bool.false_eq_true, if_false,
        Prog.pure_eq, Prog.ret_bind]
      exact hround mx node t (le_refl mx) (Keeps.refl t) h hnode (by omega) (by omega)

/-- What the way to the left of slot `i` finds: that it needs a leaf left of `mn`, with no gap
on the way there, or that there is no gap at all. -/
def SlideLeft (s : PCSR) (N i : Nat) : Option Nat × Bool → Prop
  | (some left, _) => ∀ k, (left + 1) * logN N ≤ k → k < i → ¬ IsGap s k
  | (none, true) => ∀ k, k < i → ¬ IsGap s k
  | (none, false) => ∃ k, k < i ∧ IsGap s k

theorem SlideLeft.next {s : PCSR} {i : Nat} {r : Option Nat × Bool} (hi : ¬ IsGap s i)
    (h : SlideLeft s N i r) : SlideLeft s N (i + 1) r := by
  rcases r with ⟨_ | left, _ | _⟩
  · obtain ⟨k, hk, hgap⟩ := h
    exact ⟨k, Nat.lt_succ_of_lt hk, hgap⟩
  · intro k hk
    rcases Nat.eq_or_lt_of_le (Nat.le_of_lt_succ hk) with rfl | hlt
    · exact hi
    · exact h k hlt
  all_goals
    intro k hleft hk
    rcases Nat.eq_or_lt_of_le (Nat.le_of_lt_succ hk) with rfl | hlt
    · exact hi
    · exact h k hleft hlt

theorem meets_slide_left_locks (index node : Nat) (hf : Fits w N t) (hN : index ≤ N)
    (hlo : node * logN N < index ∨ index = 0) (hhi : index ≤ (node + 1) * logN N) :
    Prog.Meets (locking w may) (slide_left_locks N index node (node * logN N) mn)
      (fun r t' => Keeps w t t' ∧ t'.mode = t.mode ∧ (∀ left, r.1 = some left → left < mn) ∧
        (w ≠ .crowd → SlideLeft t.s N index r)) t := by
  induction index generalizing node t with
  | zero =>
    refine ⟨Keeps.refl t, rfl, fun left h => (by cases h), fun _ => ?_⟩
    exact fun k hk => absurd hk (Nat.not_lt_zero k)
  | succ i ih =>
    unfold slide_left_locks
    refine Prog.meets_seq (meets_look _ t fun hw => ?_) ?_
    · have hw := fixed_of_sound hw
      exact ⟨_, item_of_lt (by rw [(hf.sized hw).items, hf.size]; omega)⟩
    rintro item t1 ⟨hk1, hm1, s1, hs1, hitem⟩
    have hget : w ≠ .crowd → t.s.items[i]? = some item := by
      intro hw
      have := item_ok hitem
      rwa [hs1.2 hw] at this
    split
    · rename_i hnull
      refine ⟨hk1, hm1, fun left h => (by cases h), fun hw => ?_⟩
      exact ⟨i, Nat.lt_succ_self i, item, hget hw, hnull⟩
    rename_i hnull
    have hrec : ∀ node', (node' * logN N < i ∨ i = 0) → i ≤ (node' + 1) * logN N →
        Prog.Meets (locking w may) (slide_left_locks N i node' (node' * logN N) mn)
          (fun r t' => Keeps w t t' ∧ t'.mode = t.mode ∧ (∀ left, r.1 = some left → left < mn) ∧
            (w ≠ .crowd → SlideLeft t.s N (i + 1) r)) t1 := by
      intro node' h1 h2
      refine Prog.meets_mono (ih node' (hf.keeps hk1) (by omega) h1 h2) ?_
      rintro r t2 ⟨hk2, hm2, hleft, hv⟩
      refine ⟨hk1.trans hk2, hm2.trans hm1, hleft, fun hw => ?_⟩
      have hv := hv hw
      rw [hk1.2 hw] at hv
      exact hv.next (not_isGap (hget hw) hnull)
    split
    · rename_i hcross
      dsimp only
      -- slot `i` is the first of its leaf, and the next slot lies in the leaf before
      have hi : i = node * logN N := by omega
      have hnode : node ≠ 0 := by
        rintro rfl
        rw [Nat.zero_mul] at hcross
        omega
      obtain ⟨m, rfl⟩ : ∃ m, node = m + 1 := ⟨node - 1, by omega⟩
      rw [Nat.add_sub_cancel]
      have hL := logN_pos N
      have hm : i = m * logN N + logN N := by rw [hi, Nat.succ_mul]
      split
      · rename_i hlt
        refine ⟨hk1, hm1, fun left h => ?_, fun hw k h1 h2 => ?_⟩
        · cases h
          exact hlt
        · obtain rfl : k = i := by omega
          exact not_isGap (hget hw) hnull
      · have hleaf : find_leaf N (i - 1) = m * logN N := by
          unfold find_leaf
          congr 1
          rw [hm, show m * logN N + logN N - 1 = logN N * m + (logN N - 1) by
            rw [Nat.mul_comm]; omega, Nat.mul_add_div hL, Nat.div_eq_of_lt (by omega),
            Nat.add_zero]
        rw [hleaf]
        exact hrec m (by omega) (by rw [Nat.succ_mul]; omega)
    · exact hrec node (by omega) (by omega)

/-- What the locks for the slides cover: the slot of the insertion is null, or a gap to the
right of it is held, or all slots to the right are held and there is a gap to the left. -/
def SlideCovered (s : PCSR) (N index mx : Nat) : Prop :=
  IsGap s index ∨ (¬ IsGap s index ∧ SlideRight s N (index + 1) mx false) ∨
    (¬ IsGap s index ∧ SlideRight s N (index + 1) mx true ∧ ∃ k, k < index ∧ IsGap s k)

/-- What the leaves from `a` to `b` cover: the window of the plan, the pair of leaves of a
spill, and the slides. -/
structure Covers (s : PCSR) (N index a b : Nat) (info : insertion_info) : Prop where
  no_double : info.double_list = false
  leaf_left : a ≤ index / logN N
  leaf_right : index / logN N ≤ b
  window_left : a * logN N ≤ info.node_index_final
  window_right : info.node_index_final + info.max_len ≤ (b + 1) * logN N
  window : ∃ i0 < N, Window N i0 info.max_len info.node_index_final
  spill : height N = 0 ∨
    (filled s.items info.node_index_final info.max_len + 2 ≤ info.max_len ∧
      (logN N ≤ filled s.items (find_leaf N index) (logN N) + 1 →
        a * logN N ≤ find_node index (logN N * 2) ∧
          find_node index (logN N * 2) + logN N * 2 ≤ (b + 1) * logN N))
  slides : SlideCovered s N index b
  level : ∃ j, info.max_len = logN N * 2 ^ j ∧
    info.node_index_final = find_node (plan_start s N index) info.max_len ∧
    FitsAt s N (plan_start s N index) j

/-- How a try of `acquire_insert_locks` ends. -/
def InsertPlan (w : World) (N : Nat) (t : Own) (index : Nat) :
    Nat ⊕ (Acquired × Option insertion_info) → Own → Prop
  | .inl left, t' => Keeps w t t' ∧ Free w N t' ∧ left ≤ index / logN N
  | .inr (.special _, info), t' =>
    Keeps w t t' ∧ Free w N t' ∧ (info = none ∨
      (info = some ⟨0, 0, true⟩ ∧ (w ≠ .crowd → CrowdedToRoot t.s N (plan_start t.s N index))))
  | .inr (.range a b, info), t' =>
    Keeps w t t' ∧ Held w N t' a b ∧ ∃ i, info = some i ∧ (w ≠ .crowd → Covers t.s N index a b i)

theorem InsertPlan.of_keeps {index : Nat} {r : Nat ⊕ (Acquired × Option insertion_info)} {v : Own}
    (hk : Keeps w t u) (h : InsertPlan w N u index r v) : InsertPlan w N t index r v := by
  rcases r with left | ⟨c | ⟨a, b⟩, info⟩
  · exact ⟨hk.trans h.1, h.2⟩
  · obtain ⟨hk', hf, hinfo⟩ := h
    refine ⟨hk.trans hk', hf, ?_⟩
    rcases hinfo with hnone | ⟨hroot, hcrowded⟩
    · exact .inl hnone
    · exact .inr ⟨hroot, fun hw => by rw [← hk.2 hw]; exact hcrowded hw⟩
  · obtain ⟨hk', hheld, i, hi, hc⟩ := h
    refine ⟨hk.trans hk', hheld, i, hi, fun hw => ?_⟩
    rw [← hk.2 hw]
    exact hc hw

theorem find_leaf_lt_succ (N i : Nat) : find_leaf N i ≤ i ∧ i < find_leaf N i + logN N :=
  ⟨find_node_le _ _, lt_find_node_add _ (logN_pos N)⟩

theorem meets_insert_plan_slide (index max_len nif : Nat) (hindex : index < N)
    (h : Held w N t mn mx) (hmn : mn ≤ index / logN N)
    (hc : w ≠ .crowd → ∀ b, mx ≤ b → SlideCovered t.s N index b →
      Covers t.s N index mn b ⟨max_len, nif, false⟩)
    (hgap : w ≠ .crowd → mn = 0 ∨ ∃ k, mn * logN N ≤ k ∧ k < N ∧ IsGap t.s k)
    (hmx : index / logN N ≤ mx) :
    Prog.Meets (locking w may) (insert_plan_slide N index max_len nif mn mx)
      (InsertPlan w N t index) t := by
  unfold insert_plan_slide
  dsimp only
  refine Prog.meets_seq (meets_look _ t fun hw => ?_) ?_
  · have hw := fixed_of_sound hw
    exact ⟨_, item_of_lt (by rw [(h.sized hw).items, h.size]; exact hindex)⟩
  rintro item t1 ⟨hk1, hm1, s1, hs1, hitem⟩
  have h1 := h.keeps hk1 hm1
  have hget : w ≠ .crowd → t.s.items[index]? = some item := by
    intro hw
    have := item_ok hitem
    rwa [hs1.2 hw] at this
  split
  · rename_i hnull
    exact ⟨hk1, h1, _, rfl, fun hw => hc hw mx (le_refl mx) (.inl ⟨item, hget hw, hnull⟩)⟩
  rename_i hnull
  have hnot : w ≠ .crowd → ¬ IsGap t.s index := fun hw => not_isGap (hget hw) hnull
  have hleaf := find_leaf_lt_succ N index
  rw [get_node_id_find_leaf]
  refine Prog.meets_seq (meets_slide_right_locks _ _ (index / logN N) h1 (by omega) hmx
    (Nat.lt_succ_of_le hleaf.1) (by rw [← find_leaf_add]; exact hleaf.2)) ?_
  rintro ⟨off_end, mx'⟩ t2 ⟨hmx', hk2, h2, hslide⟩
  have hk := hk1.trans hk2
  have hslide : w ≠ .crowd → SlideRight t.s N (index + 1) mx' off_end := by
    intro hw
    have := hslide hw
    rwa [hk1.2 hw] at this
  dsimp only
  split
  · rename_i hoff
    have hoff : off_end = false := by simpa using hoff
    subst hoff
    exact ⟨hk, h2, _, rfl, fun hw => hc hw mx' hmx' (.inr (.inl ⟨hnot hw, hslide hw⟩))⟩
  rename_i hoff
  have hoff : off_end = true := by simpa using hoff
  subst hoff
  refine Prog.meets_seq (meets_slide_left_locks _ (index / logN N) h2.toFits (by omega)
    (.inl (Nat.lt_succ_of_le hleaf.1)) (by rw [← find_leaf_add]; exact hleaf.2)) ?_
  rintro ⟨left, none_left⟩ t3 ⟨hk3, hm3, hlt, hv⟩
  have hk' := hk.trans hk3
  have h3 := h2.keeps hk3 hm3
  have hv : w ≠ .crowd → SlideLeft t.s N (index + 1) (left, none_left) := by
    intro hw
    have := hv hw
    rwa [hk.2 hw] at this
  dsimp only
  rcases left with _ | left
  · dsimp only
    split
    · refine Prog.meets_seq (meets_release h3) ?_
      rintro _ t4 ⟨hk4, hf⟩
      exact ⟨hk'.trans hk4, hf, .inl rfl⟩
    · rename_i hn
      have hn : none_left = false := by simpa using hn
      subst hn
      refine ⟨hk', h3, _, rfl, fun hw => hc hw mx' hmx' (.inr (.inr ⟨hnot hw, hslide hw, ?_⟩))⟩
      obtain ⟨k, hk, hgap⟩ := hv hw
      refine ⟨k, ?_, hgap⟩
      rcases Nat.eq_or_lt_of_le (Nat.le_of_lt_succ hk) with rfl | hlt
      · exact absurd hgap (hnot hw)
      · exact hlt
  · have hlt := hlt left rfl
    -- with no other thread active, the window has a gap, and the way does not leave it
    have hcrowd : w = .crowd := by
      by_contra hw
      rcases hgap hw with hzero | ⟨k, hk1, hk2, hgk⟩
      · omega
      · have hkl : (left + 1) * logN N ≤ k := (Nat.mul_le_mul_right _ hlt).trans hk1
        by_cases hki : k < index + 1
        · exact hv hw k hkl hki hgk
        · exact (hslide hw k (by omega) hk2).1 hgk
    refine Prog.meets_seq (meets_unlock_all hcrowd _ (?_ : Within t3.mode left _)) ?_
    · rw [h3.mode]
      exact within_range _ (Nat.le_of_lt hlt) (by have := h3.le; omega)
    rintro _ t4 rfl
    exact ⟨hk', ⟨⟨h3.size, h3.pow, h3.sized⟩, rfl⟩, by omega⟩

/-- The part of a try behind its tests. Its end `f` gives each outcome of the plan of the
window on. -/
theorem meets_insert_plan (index : Nat) {mn : Nat}
    {f : Climb → Op (Nat ⊕ (Acquired × Option insertion_info))}
    (hroot : f .root = pure (.inr (.special .NEED_GLOBAL_WRITE, some ⟨0, 0, true⟩)))
    (hrestart : ∀ left, f (.restart left) = pure (.inl left))
    (hwindow : ∀ len node_index min_node max_node, f (.window len node_index min_node max_node) =
      insert_plan_slide N index len node_index min_node max_node)
    (h : Free w N t) (hindex : index < N) (hmn : mn ≤ index / logN N) (r : Bool × Nat) (t4 : Own)
    (hmx : index / logN N ≤ r.2) (hk4 : Keeps w t t4) (h4 : Held w N t4 mn r.2) :
    Prog.Meets (locking w may)
      (do
        if !r.1 then
          leaf_range .unlock mn r.2
          return .inr (.special .NEED_RETRY, none)
        insert_plan_window N (find_leaf N index) mn r.2 >>= f)
      (InsertPlan w N t index) t4 := by
  split
  · refine Prog.meets_seq (meets_release h4) ?_
    rintro _ t5 ⟨hk5, hf⟩
    exact ⟨hk4.trans hk5, hf, .inl rfl⟩
  refine Prog.meets_seq (meets_insert_plan_window index hindex h4 hmn hmx) ?_
  rintro c t5 hc
  cases c with
  | root =>
    rw [hroot]
    refine ⟨hk4.trans hc.1, hc.2.1, .inr ⟨rfl, fun hw => ?_⟩⟩
    rw [← hk4.2 hw]
    exact hc.2.2 hw
  | restart l =>
    rw [hrestart]
    obtain ⟨hk5, hf, hlt⟩ := hc
    exact ⟨hk4.trans hk5, hf, by omega⟩
  | window len ni mn' mx' =>
    rw [hwindow]
    obtain ⟨hk5, rfl, hmx', h5, hni, hend, hwin, hroom, hlevel⟩ := hc
    have hk45 := hk4.trans hk5
    have hsame : w ≠ .crowd → t5.s = t4.s := hk5.2
    refine Prog.meets_mono (meets_insert_plan_slide index len ni hindex h5 hmn ?_ ?_
      (by omega)) ?_
    · intro hw b hb hslides
      refine ⟨rfl, hmn, by omega, hni, hend.trans (Nat.mul_le_mul_right _ (by omega)), hwin,
        ?_, hslides, ?_⟩
      · rw [hsame hw]
        rcases hroom hw with hh | ⟨hr, hsp⟩
        · exact .inl hh
        · refine .inr ⟨hr, fun hs => ?_⟩
          obtain ⟨ha, hb'⟩ := hsp hs
          exact ⟨ha, hb'.trans (Nat.mul_le_mul_right _ (by omega))⟩
      · rw [hsame hw]
        obtain ⟨j, hj, hfits⟩ := hlevel
        exact ⟨j, hj, hfits hw⟩
    · intro hw
      rw [hsame hw]
      rcases hroom hw with hh | ⟨hr, -⟩
      · left
        have hN := height_eq h.pow
        rw [hh, Nat.pow_zero, Nat.mul_one] at hN
        have htab := h4.in_table
        rw [← hN, Nat.div_self h.pow.pos] at htab
        omega
      · right
        obtain ⟨i0, hi0, hwin⟩ := hwin
        have hin := hwin.in_array h.pow hi0
        have hs := h4.sized hw
        obtain ⟨j, k, hj1, hj2, hj3, hgap, -⟩ :=
          two_gaps (by rw [hs.items, h4.size]; exact hin) hr
        exact ⟨j, hni.trans hj1, by omega, hgap⟩
    · rintro r' t6 hr'
      exact hr'.of_keeps hk45

theorem meets_insert_first_locks (lock_bsearch : Bool) (node_id : Nat) (left : Option Nat)
    (h : Free w N t) (hleft : ∀ l, left = some l → l ≤ node_id)
    (hi : w = .sound → node_id < N / logN N) :
    Prog.Meets (locking w may) (insert_first_locks lock_bsearch node_id left)
      (fun mn t' => Keeps w t t' ∧ mn ≤ node_id ∧ Held w N t' mn node_id) t := by
  have hi' : w = .sound → Sized t.s ∧ node_id < t.s.N / logN t.s.N := fun hw => by
    rw [h.size]
    exact ⟨h.sized (fixed_of_sound hw), hi hw⟩
  unfold insert_first_locks
  rcases left with _ | l
  · dsimp only
    split
    · rename_i hpos
      refine Prog.meets_seq (meets_take_first .exclusive (node_id - 1) h.mode fun hw => ?_) ?_
      · obtain ⟨hs, hlt⟩ := hi' hw
        exact ⟨hs, by omega⟩
      rintro _ t1 ⟨-, rfl⟩
      have hmode : range .exclusive (node_id - 1) (node_id - 1 + 1) =
          range .exclusive (node_id - 1) node_id := by rw [Nat.sub_add_cancel hpos.1]
      rw [hmode]
      refine Prog.meets_seq (meets_take .exclusive (Nat.sub_le _ _) rfl hi') ?_
      rintro _ t2 ⟨htab, rfl⟩
      dsimp only at htab
      rw [h.size] at htab
      have hheld : Held w N { t with mode := range .exclusive (node_id - 1) (node_id + 1) }
          (node_id - 1) node_id := held_of_range h (Nat.sub_le _ _) htab
      exact ⟨Keeps.refl t, Nat.sub_le _ _, hheld⟩
    · refine Prog.meets_seq (meets_take_first .exclusive node_id h.mode hi') ?_
      rintro _ t1 ⟨htab, rfl⟩
      rw [h.size] at htab
      exact ⟨Keeps.refl _, le_refl _, held_of_range h (le_refl _) htab⟩
  · have hle := hleft l rfl
    refine Prog.meets_seq (meets_take_range .exclusive l node_id h.mode fun hw _ => hi' hw) ?_
    rintro _ t1 ⟨htab, rfl⟩
    rw [h.size] at htab
    show _ ∧ _ ∧ Held w N _ (min node_id l) node_id
    rw [Nat.min_eq_right hle]
    exact ⟨Keeps.refl _, hle, held_of_range h hle (htab hle)⟩

theorem meets_insert_try (lock_bsearch : Bool) (index : Nat) (elem : Edge) (src v : Nat)
    (left : Option Nat) (h : Free w N t) (hleft : ∀ l, left = some l → l ≤ index / logN N)
    (hslot : w = .sound → Slot t.s N index) :
    Prog.Meets (locking w may) (insert_try N lock_bsearch index elem src v left)
      (InsertPlan w N t index) t := by
  unfold insert_try
  dsimp only
  rw [get_node_id_find_leaf]
  refine Prog.meets_seq (meets_insert_first_locks _ _ _ h hleft fun hw =>
    slot_in_table h.pow (hslot hw).1) ?_
  rintro mn t1 ⟨hk1, hmn, h1⟩
  have hindex : index < N := lt_of_div_lt h.pow h1.in_table
  refine Prog.meets_seq (meets_load h1 _ (le_refl _)) ?_
  rintro version t2 ⟨hk2, h2, -⟩
  have hk := hk1.trans hk2
  refine Prog.meets_seq (meets_test _ _ t2) ?_
  rintro changed _ ⟨rfl, -⟩
  split
  · refine Prog.meets_seq (meets_release h2) ?_
    rintro _ t3 ⟨hk3, hf⟩
    exact ⟨hk.trans hk3, hf, .inl rfl⟩
  refine Prog.meets_seq (meets_item h2 hindex) ?_
  rintro item t3 ⟨hk3, h3, -⟩
  replace hk := hk.trans hk3
  split
  · refine Prog.meets_seq (meets_release h3) ?_
    rintro _ t4 ⟨hk4, hf⟩
    exact ⟨hk.trans hk4, hf, .inl rfl⟩
  split
  · exact meets_insert_plan index rfl (fun _ => rfl) (fun _ _ _ _ => rfl) h hindex hmn
      (true, index / logN N) t3 (le_refl _) hk h3
  · refine Prog.meets_seq (meets_item h3 hindex) ?_
    rintro ins_edge t4 ⟨hk4, h4, hget⟩
    replace hk := hk.trans hk4
    refine Prog.meets_seq (meets_got_correct ins_edge src index elem _ h4 (fun hw => ?_)
      fun hw => ?_) ?_
    · refine ⟨le_refl _, hindex, ?_⟩
      rw [hk4.2 hw]
      exact hget hw
    · have := hslot hw
      rw [hk.2 (fixed_of_sound hw)]
      exact .inr this.2.2
    rintro r t5 ⟨hr, hk5, h5, -⟩
    refine Prog.meets_seq (meets_test _ _ t5) ?_
    rintro rejected t6 ⟨rfl, -⟩
    exact meets_insert_plan index rfl (fun _ => rfl) (fun _ _ _ _ => rfl) h hindex hmn
      (!rejected, r.2) t6 hr (hk.trans hk5) h5

/-- `acquire_insert_locks`: it ends with a range of leaves that it holds, or it holds none. -/
theorem meets_acquire_insert_locks (lock_bsearch : Bool) (index : Nat) (elem : Edge) (src v : Nat)
    (tries : Nat) (left : Option Nat) (h : Free w N t)
    (hleft : ∀ l, left = some l → l ≤ index / logN N) (hslot : w = .sound → Slot t.s N index) :
    Prog.Meets (locking w may) (acquire_insert_locks N lock_bsearch index elem src v tries left)
      (fun r t' => InsertPlan w N t index (.inr r) t') t := by
  induction tries generalizing left t with
  | zero => exact ⟨Keeps.refl t, h, .inl rfl⟩
  | succ tries ih =>
    unfold acquire_insert_locks
    refine Prog.meets_seq (meets_insert_try lock_bsearch index elem src v left h hleft hslot) ?_
    rintro r t1 hr
    rcases r with l | r
    · obtain ⟨hk, hf, hl⟩ := hr
      refine Prog.meets_mono (ih (some l) hf (fun l' h' => by cases h'; exact hl) fun hw => ?_) ?_
      · rw [hk.2 (fixed_of_sound hw)]
        exact hslot hw
      · rintro r t2 hr
        exact hr.of_keeps hk
    · exact hr

end

end packed_csr
