-- What the two planners share: the range of leaf locks that is held in one
-- piece, the validation of a position, the densities and the windows.
import PackedCsr.LockRules
import PackedCsr.Gapped

namespace packed_csr

open effects

section

variable {w : World} {may : Bool} {t u : Own} {N mn mx : Nat}

/-! ## The range that is held -/

/-- The array has `N` slots. Where no other thread is active, its tables fit it. -/
structure Fits (w : World) (N : Nat) (t : Own) : Prop where
  size : t.s.N = N
  pow : Pow N
  sized : w ≠ .crowd → Sized t.s

theorem Fits.keeps (h : Fits w N t) (hk : Keeps w t u) : Fits w N u :=
  ⟨hk.1.trans h.size, h.pow, fun hw => by rw [hk.2 hw]; exact h.sized hw⟩

theorem fixed_of_sound (h : w = .sound) : w ≠ .crowd := by
  rw [h]
  decide

/-- The operation holds the leaves from `mn` to `mx`, and no others. -/
structure Held (w : World) (N : Nat) (t : Own) (mn mx : Nat) : Prop extends Fits w N t where
  mode : t.mode = range .exclusive mn (mx + 1)
  le : mn ≤ mx
  in_table : mx < N / logN N

theorem Held.keeps (h : Held w N t mn mx) (hk : Keeps w t u) (hm : u.mode = t.mode) :
    Held w N u mn mx :=
  ⟨h.toFits.keeps hk, hm.trans h.mode, h.le, h.in_table⟩

/-- The operation holds no lock. -/
structure Free (w : World) (N : Nat) (t : Own) : Prop extends Fits w N t where
  mode : t.mode = no_locks

theorem Free.keeps (h : Free w N t) (hk : Keeps w t u) (hm : u.mode = t.mode) : Free w N u :=
  ⟨h.toFits.keeps hk, hm.trans h.mode⟩

theorem slot_in_table (hpow : Pow N) {i : Nat} (h : i < N) : i / logN N < N / logN N :=
  Nat.div_lt_div_of_lt_of_dvd (logN_dvd hpow) h

theorem mul_le_of_le_div {a b : Nat} (h : a ≤ b / logN N) : a * logN N ≤ b :=
  (Nat.le_div_iff_mul_le (logN_pos N)).mp h

theorem le_div_of_mul_le {a b : Nat} (h : a * logN N ≤ b) : a ≤ b / logN N :=
  (Nat.le_div_iff_mul_le (logN_pos N)).mpr h

theorem lt_of_div_lt (hpow : Pow N) {i : Nat} (h : i / logN N < N / logN N) : i < N := by
  obtain ⟨c, hc⟩ := logN_dvd hpow
  have hdiv : N / logN N = c := Nat.div_eq_of_eq_mul_right (logN_pos N) hc
  rw [hdiv, Nat.div_lt_iff_lt_mul (logN_pos N), Nat.mul_comm, ← hc] at h
  exact h

theorem meets_lock_next (h : Held w N t mn mx)
    (hi : w = .sound → mx + 1 < N / logN N) :
    Prog.Meets (locking w may) (leaf .lock (mx + 1))
      (fun _ t' => Keeps w t t' ∧ Held w N t' mn (mx + 1)) t := by
  refine Prog.meets_mono (meets_take .exclusive (Nat.le_succ_of_le h.le) h.mode fun hw => ?_) ?_
  · rw [h.size]
    exact ⟨h.sized (fixed_of_sound hw), hi hw⟩
  · rintro _ t' ⟨hb, rfl⟩
    rw [h.size] at hb
    exact ⟨Keeps.refl _, ⟨h.size, h.pow, h.sized⟩, rfl, Nat.le_succ_of_le h.le, hb⟩

theorem meets_lock_up_to (rest : Nat) (h : Held w N t mn mx)
    (hi : w = .sound → mx + rest < N / logN N) :
    Prog.Meets (locking w may) (lock_up_to rest mx)
      (fun mx' t' => mx' = mx + rest ∧ Keeps w t t' ∧ Held w N t' mn mx') t := by
  induction rest generalizing mx t with
  | zero => exact ⟨rfl, Keeps.refl t, h⟩
  | succ rest ih =>
    unfold lock_up_to
    refine Prog.meets_seq (meets_lock_next h fun hw => by have := hi hw; omega) ?_
    rintro _ t' ⟨hk, h'⟩
    refine Prog.meets_mono (ih h' fun hw => by have := hi hw; omega) ?_
    rintro mx' u ⟨rfl, hk', hu⟩
    exact ⟨by omega, hk.trans hk', hu⟩

theorem Held.in_versions (h : Held w N t mn mx) (hw : w = .sound) :
    mx < t.s.versions.length := by
  have hs := h.sized (fixed_of_sound hw)
  rw [hs.versions, h.size]
  exact h.in_table

theorem meets_release (h : Held w N t mn mx) :
    Prog.Meets (locking w may) (leaf_range .unlock mn mx)
      (fun _ t' => Keeps w t t' ∧ Free w N t') t := by
  refine Prog.meets_mono (meets_give_range .exclusive h.mode fun hw _ => h.in_versions hw) ?_
  rintro _ t' rfl
  exact ⟨Keeps.refl _, ⟨h.size, h.pow, h.sized⟩, rfl⟩

/-! ## The position of an edge -/

/-- What `got_correct_insertion_index` decides where nothing else moves. -/
def correct_position (s : PCSR) (src index dest : Nat) : Bool :=
  let e := s.items.getD index null_edge
  !foreign_item s.get_n src e &&
    !(!e.is_null && !is_sentinel e && decide (e.dest < dest)) &&
    !(e.is_null && (next_item s (index + 1)).any (wrong_right s.get_n src dest)) &&
    !(prev_item s index).any (wrong_left src dest)

theorem meets_right_scan (rest ind curr_n : Nat) (h : Held w N t mn mx)
    (hi : w ≠ .crowd → mx * logN N ≤ curr_n ∧ ind + rest = N) :
    Prog.Meets (locking w may) (right_scan N rest ind curr_n mx)
      (fun r t' => mx ≤ r.2 ∧ Keeps w t t' ∧ Held w N t' mn r.2 ∧
        (w ≠ .crowd → r.1 = next_item t.s ind)) t := by
  induction rest generalizing ind curr_n mx t with
  | zero =>
    refine ⟨le_refl mx, Keeps.refl t, h, fun hw => ?_⟩
    have := hi hw
    exact (next_item_end (by rw [(h.sized hw).items, h.size]; omega)).symm
  | succ rest ih =>
    unfold right_scan
    dsimp only
    -- the rest of the round, with the leaf of the slot held
    have hitem : ∀ mx' curr' t1, mx ≤ mx' → Keeps w t t1 → Held w N t1 mn mx' →
        (w ≠ .crowd → mx' * logN N ≤ curr') → Prog.Meets (locking w may)
          (do
            let item ← look (·.item ind)
            if item.is_null then right_scan N rest (ind + 1) curr' mx'
            else pure (some item, mx'))
          (fun r t' => mx ≤ r.2 ∧ Keeps w t t' ∧ Held w N t' mn r.2 ∧
            (w ≠ .crowd → r.1 = next_item t.s ind)) t1 := by
      intro mx' curr' t1 hmx hk1 h1 hcurr
      refine Prog.meets_seq (meets_look _ t1 fun hw => ?_) ?_
      · have hw := fixed_of_sound hw
        have := hi hw
        exact ⟨_, item_of_lt (by rw [(h1.sized hw).items, h1.size]; omega)⟩
      rintro item t2 ⟨hk2, hm2, s1, hs1, hitem⟩
      have hk := hk1.trans hk2
      have h2 := h1.keeps hk2 hm2
      have hget : w ≠ .crowd → t.s.items[ind]? = some item := by
        intro hw
        have := item_ok hitem
        rwa [hs1.2 hw, hk1.2 hw] at this
      split
      · rename_i hnull
        refine Prog.meets_mono (ih _ _ h2 fun hw => ⟨hcurr hw, by have := hi hw; omega⟩) ?_
        rintro r t3 ⟨hr, hk3, h3, hv⟩
        refine ⟨by omega, hk.trans hk3, h3, fun hw => ?_⟩
        rw [hv hw, hk.2 hw, next_item_null (hget hw) hnull]
      · rename_i hnull
        exact ⟨hmx, hk, h2, fun hw => (next_item_some (hget hw) (by simpa using hnull)).symm⟩
    by_cases henters : curr_n + logN N ≤ ind
    · simp only [henters, decide_true, if_true, leaf_if]
      refine Prog.meets_seq (meets_lock_next h fun hw => ?_) ?_
      · have hb := hi (fixed_of_sound hw)
        have hle : (mx + 1) * logN N ≤ ind := by
          rw [Nat.succ_mul]
          omega
        exact Nat.lt_of_le_of_lt (le_div_of_mul_le hle) (slot_in_table h.pow (by omega))
      rintro _ t1 ⟨hk1, h1⟩
      refine hitem _ _ t1 (by omega) hk1 h1 fun hw => ?_
      rw [Nat.succ_mul]
      exact Nat.add_le_add_right (hi hw).1 _
    · simp only [henters, decide_false, leaf_if, Bool.false_eq_true, if_false, Prog.pure_eq,
        Prog.ret_bind]
      exact hitem _ _ t (le_refl mx) (Keeps.refl t) h fun hw => (hi hw).1

/-- The validation of an item at the slot ends: the item is foreign, or there is an item
before it. -/
def PositionRead (s : PCSR) (src index : Nat) : Prop :=
  foreign_item s.get_n src (s.items.getD index null_edge) = true ∨ ∃ e, prev_item s index = some e

theorem meets_got_correct (ins_edge : Edge) (src index : Nat) (elem : Edge) (node_index : Nat)
    (h : Held w N t mn mx)
    (hi : w ≠ .crowd → mx * logN N ≤ node_index ∧ index < N ∧ t.s.items[index]? = some ins_edge)
    (hp : w = .sound → foreign_item t.s.get_n src ins_edge = true ∨
      ∃ e, prev_item t.s index = some e) :
    Prog.Meets (locking w may)
      (got_correct_insertion_index N ins_edge src index elem node_index mx)
      (fun r t' => mx ≤ r.2 ∧ Keeps w t t' ∧ Held w N t' mn r.2 ∧
        (w ≠ .crowd → r.1 = correct_position t.s src index elem.dest ∧
          (ins_edge.is_null = false → elem.dest ≤ ins_edge.dest → PositionRead t.s src index))) t := by
  unfold got_correct_insertion_index
  refine Prog.meets_seq (meets_look _ t fun _ => ⟨_, rfl⟩) ?_
  rintro n t1 ⟨hk1, hm1, s1, hs1, hn⟩
  have h1 := h.keeps hk1 hm1
  have hgetD : w ≠ .crowd → t.s.items.getD index null_edge = ins_edge := by
    intro hw
    rw [List.getD_eq_getElem?_getD, (hi hw).2.2]
    rfl
  have hget_n : w ≠ .crowd → t.s.get_n = n := by
    intro hw
    rw [← hs1.2 hw]
    exact Except.ok.inj hn
  split
  · rename_i hforeign
    refine ⟨le_refl mx, hk1, h1, fun hw => ⟨?_, fun _ _ => .inl ?_⟩⟩
    · simp only [correct_position, hgetD hw, hget_n hw, hforeign]
      rfl
    · rw [hgetD hw, hget_n hw]
      exact hforeign
  rename_i hforeign
  split
  · rename_i hless
    refine ⟨le_refl mx, hk1, h1, fun hw => ⟨?_, fun _ hle => ?_⟩⟩
    · simp only [correct_position, hgetD hw, hget_n hw, hless]
      simp
    · simp only [Bool.and_eq_true, decide_eq_true_eq] at hless
      omega
  rename_i hless
  have hprev : w = .sound → ∃ e, prev_item t.s index = some e := by
    intro hw
    rcases hp hw with hf | he
    · rw [hget_n (fixed_of_sound hw)] at hf
      exact absurd hf hforeign
    · exact he
  -- the scan to the left only reads
  have hleft : ∀ (r : Option Edge × Nat) (t2 : Own), mx ≤ r.2 → Keeps w t1 t2 →
      Held w N t2 mn r.2 → index ≠ 0 →
      (w ≠ .crowd → ¬ (ins_edge.is_null = true ∧
        (next_item t.s (index + 1)).any (wrong_right n src elem.dest) = true)) →
      Prog.Meets (locking w may)
        (do
          let item ← left_scan (index - 1)
          if wrong_left src elem.dest item then return (false, r.2)
          return (true, r.2))
        (fun r t' => mx ≤ r.2 ∧ Keeps w t t' ∧ Held w N t' mn r.2 ∧
          (w ≠ .crowd → r.1 = correct_position t.s src index elem.dest ∧
          (ins_edge.is_null = false → elem.dest ≤ ins_edge.dest → PositionRead t.s src index))) t2 := by
    intro r t2 hr hk2 h2 hpos hnext
    have hk := hk1.trans hk2
    have hsucc : index - 1 + 1 = index := by omega
    refine Prog.meets_seq (meets_reads (only_reads_left_scan _) t2 fun hw => ?_) ?_
    · obtain ⟨e, he⟩ := hprev hw
      have hw := fixed_of_sound hw
      have hsize := h2.sized hw
      refine ⟨e, left_scan_exec ?_ ?_⟩
      · rw [hk.2 hw, hsucc]
        exact he
      · rw [hsize.items, h2.size]
        have := (hi hw).2.1
        omega
    rintro item t3 ⟨hk3, hm3, he⟩
    have hitem : w ≠ .crowd → prev_item t.s index = some item := by
      intro hw
      have := left_scan_ok (he hw)
      rwa [hsucc, hk.2 hw] at this
    have hkt := hk.trans hk3
    have h3 := h2.keeps hk3 hm3
    split
    · rename_i hwrong
      refine ⟨hr, hkt, h3, fun hw => ⟨?_, fun _ _ => .inr ⟨item, hitem hw⟩⟩⟩
      simp [correct_position, hitem hw, hwrong]
    · rename_i hwrong
      refine ⟨hr, hkt, h3, fun hw => ⟨?_, fun _ _ => .inr ⟨item, hitem hw⟩⟩⟩
      have hnext := hnext hw
      simp only [correct_position, hgetD hw, hget_n hw, hitem hw, Option.any_some]
      simp only [Bool.not_eq_true] at hforeign hless hwrong
      rw [hforeign, hless, hwrong]
      cases hnull : ins_edge.is_null <;> simp_all
  have hcont : ∀ (r : Option Edge × Nat) (t2 : Own), mx ≤ r.2 → Keeps w t1 t2 →
      Held w N t2 mn r.2 →
      (w ≠ .crowd → r.1 = if ins_edge.is_null then next_item t.s (index + 1) else none) →
      Prog.Meets (locking w may)
        (do
          if r.1.any (wrong_right n src elem.dest) then return (false, r.2)
          if index = 0 then look fun _ => .error (.slot UINT32_MAX)
          let item ← left_scan (index - 1)
          if wrong_left src elem.dest item then return (false, r.2)
          return (true, r.2))
        (fun r t' => mx ≤ r.2 ∧ Keeps w t t' ∧ Held w N t' mn r.2 ∧
          (w ≠ .crowd → r.1 = correct_position t.s src index elem.dest ∧
          (ins_edge.is_null = false → elem.dest ≤ ins_edge.dest → PositionRead t.s src index))) t2 := by
    intro r t2 hr hk2 h2 hval
    split
    · rename_i hwrong
      refine ⟨hr, hk1.trans hk2, h2, fun hw => ?_⟩
      rw [hval hw] at hwrong
      split at hwrong
      · rename_i hnull
        refine ⟨?_, fun hn _ => by rw [hnull] at hn; cases hn⟩
        simp only [correct_position, hgetD hw, hget_n hw, hnull, hwrong]
        simp
      · cases hwrong
    rename_i hwrong
    have hnext : w ≠ .crowd → ¬ (ins_edge.is_null = true ∧
        (next_item t.s (index + 1)).any (wrong_right n src elem.dest) = true) := by
      rintro hw ⟨hnull, hany⟩
      rw [hval hw, if_pos hnull] at hwrong
      exact hwrong hany
    dsimp only
    split
    · rename_i hzero
      refine Prog.meets_seq (meets_look _ t2 fun hw => ?_) ?_
      · obtain ⟨e, he⟩ := hprev hw
        rw [hzero, prev_item_zero] at he
        cases he
      rintro _ t3 ⟨-, -, s3, -, hf⟩
      cases hf
    · exact hleft r t2 hr hk2 h2 ‹_› hnext
  dsimp only
  split
  · rename_i hnull
    refine Prog.meets_seq (meets_right_scan _ _ _ h1 fun hw => ?_) ?_
    · have := hi hw
      exact ⟨this.1, by omega⟩
    rintro r t2 ⟨hr, hk2, h2, hv⟩
    refine hcont r t2 hr hk2 h2 fun hw => ?_
    rw [hv hw, hk1.2 hw, if_pos hnull]
  · rename_i hnull
    exact hcont (none, mx) t1 (le_refl mx) (Keeps.refl t1) h1 fun _ => (if_neg hnull).symm

/-! ## Gaps and densities -/

theorem isGap_of_hole {s : PCSR} {i : Nat} (h : gapped.Hole (fun e : Edge => !e.is_null) s.items i) :
    IsGap s i := by
  obtain ⟨e, he, hn⟩ := h
  exact ⟨e, he, by simpa using hn⟩

/-- A window with room for two more items has two gaps. -/
theorem two_gaps {s : PCSR} {i len : Nat} (hle : i + len ≤ s.items.length)
    (h : filled s.items i len + 2 ≤ len) :
    ∃ j k, i ≤ j ∧ j < k ∧ k < i + len ∧ IsGap s j ∧ IsGap s k := by
  obtain ⟨j, k, h1, h2, h3, hj, hk⟩ := gapped.exists_two_holes hle h
  exact ⟨j, k, h1, h2, h3, isGap_of_hole hj, isGap_of_hole hk⟩

theorem get_density_ok {s : PCSR} {i len : Nat} {d : ℚ} (h : get_density s i len = .ok d) :
    i + len ≤ s.items.length ∧ d = filled s.items i len / len := by
  unfold get_density at h
  split at h
  · rename_i hle
    cases h
    exact ⟨hle, rfl⟩
  · cases h

theorem density_bound_ok {N : Nat} {level : Int} {b : Option pair_double}
    (h : density_bound N level = .ok b) :
    0 ≤ level ∧ level ≤ height N ∧
      b = if height N = 0 then none else
        some ⟨1 / 4 - (1 / 8 * level) / height N, 3 / 4 + (1 / 4 * level) / height N⟩ := by
  unfold density_bound at h
  split at h
  · cases h
  · rename_i hlevel
    push Not at hlevel
    refine ⟨hlevel.1, hlevel.2, ?_⟩
    split at h
    · cases h
      rw [if_pos ‹_›]
    · cases h
      rw [if_neg ‹_›]

/-- The upper bound of a level is at most 1. -/
theorem bound_y_le {N : Nat} {level : Int} (hh : height N ≠ 0) (h : level ≤ height N) :
    (3 / 4 + (1 / 4 * (level : ℚ)) / height N : ℚ) ≤ 1 := by
  have hpos : (0 : ℚ) < height N := by exact_mod_cast Nat.pos_of_ne_zero hh
  have hle : (level : ℚ) ≤ height N := by exact_mod_cast h
  have hq : (1 / 4 * (level : ℚ)) / height N ≤ 1 / 4 := by
    rw [div_le_iff₀ hpos]
    linarith
  linarith

/-- A window that takes one more item without being too full has two gaps. -/
theorem room_of_not_too_full {s : PCSR} {len ni : Nat} {level : Int} {b : Option pair_double} {d : ℚ}
    (hlen : 0 < len) (hb : density_bound N level = .ok b) (hd : get_density s ni len = .ok d)
    (hfull : ¬ too_full (d + 1 / len) b = true) :
    height N = 0 ∨ filled s.items ni len + 2 ≤ len := by
  obtain ⟨-, hlevel, rfl⟩ := density_bound_ok hb
  obtain ⟨hle, rfl⟩ := get_density_ok hd
  by_cases hh : height N = 0
  · exact .inl hh
  · right
    rw [if_neg hh] at hfull
    simp only [too_full, decide_eq_true_eq, not_le] at hfull
    have hy := bound_y_le hh hlevel
    have hpos : (0 : ℚ) < len := by exact_mod_cast hlen
    have hlt : (filled s.items ni len + 1 : ℚ) / len < 1 := by
      rw [add_div]
      linarith
    rw [div_lt_one hpos] at hlt
    have : filled s.items ni len + 1 < len := by exact_mod_cast hlt
    omega

/-! ## Windows -/

/-- The window of length `len` over slot `i0`, on a level of the implicit tree. -/
structure Window (N i0 len ni : Nat) : Prop where
  pow : ∃ j, len = logN N * 2 ^ j
  le : len ≤ N
  at_ : ni = find_node i0 len

theorem pow_window {j : Nat} : Pow (logN N * 2 ^ j) := (pow_logN N).mul ⟨j, rfl⟩

theorem Window.len_pow {i0 len ni : Nat} (h : Window N i0 len ni) : Pow len := by
  obtain ⟨j, rfl⟩ := h.pow
  exact pow_window

theorem Window.in_array {i0 len ni : Nat} (h : Window N i0 len ni) (hpow : Pow N) (hi : i0 < N) :
    ni + len ≤ N := by
  rw [h.at_]
  exact find_node_add_le h.len_pow hpow h.le hi

theorem Window.up {i0 len ni : Nat} (h : Window N i0 len ni) (hle : len * 2 ≤ N) :
    Window N i0 (len * 2) (find_node ni (len * 2)) := by
  obtain ⟨j, hj⟩ := h.pow
  refine ⟨⟨j + 1, by rw [hj, Nat.pow_succ, Nat.mul_assoc]⟩, hle, ?_⟩
  rw [h.at_, find_node_find_node (Nat.dvd_mul_right len 2) h.len_pow.pos]

theorem Window.dvd_end {i0 len ni : Nat} (h : Window N i0 len ni) : logN N ∣ ni + len := by
  obtain ⟨j, hj⟩ := h.pow
  have hlen : logN N ∣ len := ⟨2 ^ j, hj⟩
  rw [h.at_]
  exact Nat.dvd_add (hlen.trans (dvd_find_node _ _)) hlen

/-- Locks up to the end of a window cover it. -/
theorem Window.end_le {i0 len ni m : Nat} (h : Window N i0 len ni) :
    ni + len ≤ (m + ((ni + len) / logN N - (m + 1)) + 1) * logN N := by
  calc ni + len = (ni + len) / logN N * logN N := (Nat.div_mul_cancel h.dvd_end).symm
    _ ≤ _ := Nat.mul_le_mul_right _ (by omega)

/-- A window that cannot be doubled is the array. -/
theorem Window.whole {i0 len ni : Nat} (h : Window N i0 len ni) (hpow : Pow N)
    (hlt : ¬ len * 2 ≤ N) (hi0 : i0 < N) : len = N ∧ ni = 0 := by
  have hlen : len = N := h.len_pow.eq_of_le hpow h.le (by omega)
  refine ⟨hlen, ?_⟩
  rw [h.at_, hlen]
  unfold find_node
  rw [Nat.div_eq_of_lt hi0, Nat.zero_mul]

theorem density_bound_exists {N : Nat} {level : Int} (h0 : 0 ≤ level) (h : level ≤ height N) :
    ∃ b, density_bound N level = .ok b := by
  unfold density_bound
  rw [if_neg (by omega)]
  split
  · exact ⟨_, rfl⟩
  · exact ⟨_, rfl⟩

theorem get_density_exists {s : PCSR} {i len : Nat} (h : i + len ≤ s.items.length) :
    ∃ d, get_density s i len = .ok d := by
  unfold get_density
  rw [if_pos h]
  exact ⟨_, rfl⟩

/-- The level of a window of the array is not below the root. -/
theorem level_nonneg (hpow : Pow N) {j : Nat} (h : logN N * 2 ^ j ≤ N) : j ≤ height N := by
  have h' : logN N * 2 ^ j ≤ logN N * 2 ^ height N := h.trans (le_of_eq (height_eq hpow))
  exact (Nat.pow_le_pow_iff_right (by decide)).mp (Nat.le_of_mul_le_mul_left h' (logN_pos N))

/-- The locks up to the end of a window of the array are in the table. -/
theorem Held.up_to_end (h : Held w N t mn mx) {e : Nat} (he : e ≤ N) :
    mx + (e / logN N - (mx + 1)) < N / logN N := by
  have := Nat.div_le_div_right (c := logN N) he
  have := h.in_table
  omega

/-! ## Accesses under the locks -/

theorem held_of_range {m b : Nat} (h : Free w N t) (hle : m ≤ b) (htab : b < N / logN N) :
    Held w N { t with mode := range .exclusive m (b + 1) } m b :=
  ⟨⟨h.size, h.pow, h.sized⟩, rfl, hle, htab⟩

theorem meets_load (h : Held w N t mn mx) (i : Nat) (hi : i ≤ mx) :
    Prog.Meets (locking w may) (look (·.load i))
      (fun v t' => Keeps w t t' ∧ Held w N t' mn mx ∧ (w ≠ .crowd → t.s.load i = .ok v)) t := by
  refine Prog.meets_mono (meets_look _ t fun hw => ?_) ?_
  · have hlt := h.in_versions hw
    unfold PCSR.load
    rw [List.getElem?_eq_getElem (by omega)]
    exact ⟨_, rfl⟩
  · rintro v t' ⟨hk, hm, s1, hs1, hv⟩
    exact ⟨hk, h.keeps hk hm, fun hw => by rw [← hs1.2 hw]; exact hv⟩

theorem meets_item (h : Held w N t mn mx) {i : Nat} (hi : i < N) :
    Prog.Meets (locking w may) (look (·.item i))
      (fun e t' => Keeps w t t' ∧ Held w N t' mn mx ∧ (w ≠ .crowd → t.s.items[i]? = some e)) t := by
  refine Prog.meets_mono (meets_look _ t fun hw => ?_) ?_
  · exact ⟨_, item_of_lt (by rw [(h.sized (fixed_of_sound hw)).items, h.size]; exact hi)⟩
  · rintro e t' ⟨hk, hm, s1, hs1, he⟩
    refine ⟨hk, h.keeps hk hm, fun hw => ?_⟩
    have := item_ok he
    rwa [hs1.2 hw] at this

/-- What a planner needs of the slot that it is given: a slot of the array, with an item
somewhere before it. -/
def Slot (s : PCSR) (N index : Nat) : Prop :=
  index < N ∧ 0 < index ∧ ∃ e, prev_item s index = some e

end

end packed_csr
