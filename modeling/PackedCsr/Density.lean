-- The leaves stay filled: an insertion that does not run into an item in the last slot and a removal
-- leave no leaf less than an eighth full, once the array has outgrown its first size.
import PackedCsr.Shares
import PackedCsr.Diagnostics
import PackedCsr.Clearing

namespace packed_csr

open effects

section

variable {s s1 s2 s' : PCSR} {items : List Edge} {e x : Edge} {i0 index len ni j p : Nat}
variable {info : Option insertion_info}

/-! ## The end of an insertion -/

/-- A window with too many items is filled to three quarters. -/
theorem Above.filled {N : Nat} {c : ℚ} (h : Above N j c) (hj : j ≤ height N) :
    3 * ((logN N * 2 ^ j : Nat) : ℚ) ≤ 4 * c := by
  obtain ⟨hh, hle⟩ := h
  have hpos : (0 : ℚ) < (logN N * 2 ^ j : Nat) := by exact_mod_cast pow_window.pos
  have hlevel : (0 : ℚ) ≤ (1 / 4 * ((height N - j : Int) : ℚ)) / height N := by
    apply div_nonneg _ (Nat.cast_nonneg _)
    apply mul_nonneg (by norm_num)
    exact_mod_cast (by omega : (0 : Int) ≤ height N - j)
  rw [le_div_iff₀ hpos] at hle
  nlinarith

/-- Each window that a climb leaves below it is full enough for the next one. -/
theorem insert_climb_filled {rest : Nat} {r : Option (Nat × Nat)} (hs : Sized s) (hi0 : i0 < s.N)
    (hwin : Window s.N i0 (logN s.N * 2 ^ j) ni)
    (hbelow : 0 < j → logN s.N * 2 ^ j ≤ 8 * filled s.items ni (logN s.N * 2 ^ j))
    (hrun : insert_climb s rest (logN s.N * 2 ^ j) (height s.N - j) ni = .ok r) :
    (r = none → s.N ≤ 4 * filled s.items 0 s.N) ∧
      ∀ len ni', r = some (len, ni') → Window s.N i0 len ni' ∧
        (logN s.N < len → len ≤ 8 * filled s.items ni' len) := by
  induction rest generalizing j ni with
  | zero => cases hrun
  | succ rest ih =>
    have hlevel := level_nonneg hs.pow hwin.le
    unfold insert_climb at hrun
    obtain ⟨b, hb, hrun⟩ := bind_ok hrun
    obtain ⟨d, hd, hrun⟩ := bind_ok hrun
    dsimp only at hrun
    split at hrun
    · rename_i hfull
      have hmany : 3 * (logN s.N * 2 ^ j) ≤ 4 * filled s.items ni (logN s.N * 2 ^ j) := by
        rw [(get_density_ok hd).2] at hfull
        have := ((too_full_iff hb).mp hfull).filled (by omega)
        exact_mod_cast this
      split at hrun
      · rename_i hle
        have hup := hwin.up hle
        have hj : logN s.N * 2 ^ j * 2 = logN s.N * 2 ^ (j + 1) := by rw [Nat.pow_succ, Nat.mul_assoc]
        rw [hj] at hup hrun
        rw [show (height s.N : Int) - j - 1 = height s.N - (j + 1 : Nat) by push_cast; ring] at hrun
        refine ih hup (fun _ => ?_) hrun
        -- the next window holds what this one does
        have hnest := find_node_nest i0 (a := logN s.N * 2 ^ j) (b := logN s.N * 2 ^ (j + 1))
          ⟨2, hj.symm⟩ hwin.len_pow.pos hup.len_pow.pos
        rw [← hwin.at_, ← hup.at_] at hnest
        have hmono := gapped.count_mono full s.items hnest.1 hnest.2
        rw [← filled_eq, ← filled_eq] at hmono
        omega
      · rename_i hle
        cases hrun
        obtain ⟨hlen, hni⟩ := hwin.whole hs.pow hle hi0
        rw [hlen, hni] at hmany
        exact ⟨fun _ => by omega, fun len ni' h => by cases h⟩
    · cases hrun
      refine ⟨fun h => (by cases h), fun len ni' h => ?_⟩
      cases h
      refine ⟨hwin, fun hlt => hbelow ?_⟩
      by_contra hj
      obtain rfl : j = 0 := by omega
      simp at hlt

/-- The plan of an insertion at `p` names windows that are full enough. -/
structure PlanFilled (s : PCSR) (p : Nat) (i : insertion_info) : Prop where
  double : i.double_list = true → s.N ≤ 4 * filled s.items 0 s.N
  window : i.double_list = false → logN s.N < i.max_len →
    Window s.N p i.max_len i.node_index_final ∧
      i.max_len ≤ 8 * filled s.items i.node_index_final i.max_len

theorem insert_finish_dense (h : WellFormed s) (h16 : 16 ≤ s.N) (hp : p < s.N) (hi0 : i0 < s.N)
    (hwin : Window s.N i0 (logN s.N * 2 ^ 0) ni) (hplan : ∀ i, info = some i → PlanFilled s p i)
    (hrun : insert_finish s ni info = .ok s') (hd : Dense s ∨ s.N < s'.N) : Dense s' := by
  have hdouble : double_list s = .ok s' → s.N ≤ 4 * filled s.items 0 s.N → Dense s' := fun hrun hall =>
    double_list_dense h (by omega) hrun hall
  -- the last redistribution keeps the size
  have hlast : ∀ len ni' i1, i1 < s.N → (logN s.N < len →
      Window s.N i1 len ni' ∧ len ≤ 8 * filled s.items ni' len) →
      (if logN s.N < len then redistribute s ni' len else pure s) = .ok s' → Dense s' := by
    intro len ni' i1 hi1 hw hrun
    split at hrun
    · obtain ⟨hw, hall⟩ := hw ‹_›
      have hold : Dense s := by
        refine hd.resolve_right fun hlt => ?_
        obtain ⟨s1, hrun1, -, hred⟩ := redistribute_window h hi1 hw
        cases hrun1.symm.trans hrun
        exact absurd hred.frame.N hlt.ne'
      exact redistribute_dense h.sized h.one_sentinel_each h16 hi1 hw hrun hall fun i hi _ => hold i hi
    · cases hrun
      exact hd.resolve_right (lt_irrefl _)
  unfold insert_finish at hrun
  rcases info with _ | i
  · obtain ⟨win, hclimb, hrun⟩ := bind_ok hrun
    have hleaf : insert_climb s (s.N + 1) (logN s.N * 2 ^ 0) (height s.N - (0 : Nat)) ni = .ok win := by
      simpa using hclimb
    obtain ⟨hnone, hsome⟩ := insert_climb_filled h.sized hi0 hwin (fun h0 => absurd h0 (lt_irrefl 0)) hleaf
    rcases win with _ | ⟨len, ni'⟩
    · exact hdouble hrun (hnone rfl)
    · exact hlast len ni' i0 hi0 (fun hlt => ⟨(hsome len ni' rfl).1, (hsome len ni' rfl).2 hlt⟩) hrun
  · have hi := hplan i rfl
    dsimp only at hrun
    cases hdl : i.double_list with
    | true =>
      rw [hdl] at hrun
      exact hdouble hrun (hi.double hdl)
    | false =>
      rw [hdl] at hrun
      exact hlast _ _ p hp (hi.window hdl) hrun

/-- A redistribution of the leaf of `p`, or of its pair, keeps what the plan says. -/
theorem PlanFilled.redistributed {i : insertion_info} (h : PlanFilled s p i) (hred : Redistributed s s' ni len)
    (hp : p < s.N) (hpow : Pow s.N) (hwin : Window s.N p len ni) (hlen : len ∣ logN s.N * 2) :
    PlanFilled s' p i := by
  have hN := hred.frame.N
  refine ⟨fun hdl => ?_, fun hdl hlt => ?_⟩
  · rw [hN, hred.filled (Nat.zero_le ni) (by have := hwin.in_array hpow hp; omega)]
    exact h.double hdl
  · rw [hN] at hlt ⊢
    obtain ⟨hw, hall⟩ := h.window hdl hlt
    refine ⟨hw, ?_⟩
    obtain ⟨lv, hlv⟩ := hw.pow
    have hdvd : len ∣ i.max_len := by
      refine hlen.trans ?_
      cases lv with
      | zero =>
        rw [Nat.pow_zero, Nat.mul_one] at hlv
        omega
      | succ lv => exact ⟨2 ^ lv, by rw [hlv, Nat.pow_succ, Nat.mul_assoc, Nat.mul_comm 2]⟩
    obtain ⟨h1, h2⟩ := find_node_nest p hdvd hwin.len_pow.pos hw.len_pow.pos
    rw [← hwin.at_, ← hw.at_] at h1 h2
    rw [hred.filled h1 h2]
    exact hall

/-- The insertion from the write on. -/
theorem insert_item_dense {i : Nat} (hput : s.put i e = .ok s1) (hw : WellFormed s1) (h16 : 16 ≤ s1.N)
    (hp : p < s1.N) (hplan : ∀ i, info = some i → PlanFilled s1 p i)
    (hrun : insert_item s i (find_leaf s1.N p) e info = .ok s') (hd : Dense s1 ∨ s1.N < s'.N) :
    Dense s' := by
  have hN : s1.N = s.N := (put_frame hput).N
  have hleaf := leaf_window hw.sized p
  rw [Nat.pow_zero, Nat.mul_one] at hleaf
  -- the redistribution of the leaf or the pair, and the end
  have hrest : ∀ len ni, Window s1.N p len ni → len ∣ logN s1.N * 2 →
      (Dense s1 → len ≤ 8 * filled s1.items ni len) →
      (redistribute s1 ni len >>= fun s => insert_finish s ni info) = .ok s' → Dense s' := by
    intro len ni hwin hlen hall hrun
    obtain ⟨s2, hrun2, hfin⟩ := bind_ok hrun
    obtain ⟨s3, hrun3, hk, hred⟩ := redistribute_window hw hp hwin
    cases hrun3.symm.trans hrun2
    have hN2 := hred.frame.N
    have hni : ni < s2.N := by
      have := hwin.in_array hw.sized.pow hp
      have := hwin.len_pow.pos
      omega
    refine insert_finish_dense hk.wf (by omega) (show p < s2.N by omega) hni ?_
      (fun i hi => (hplan i hi).redistributed hred hp hw.sized.pow hwin hlen) hfin ?_
    · rw [← hN2] at hwin
      exact hwin.leaf_of
    · rcases hd with hd | hlt
      · exact .inl (redistribute_dense hw.sized hw.one_sentinel_each h16 hp hwin hrun2 (hall hd) fun i hi _ => hd i hi)
      · exact .inr (by omega)
  unfold insert_item at hrun
  dsimp only at hrun
  rw [← hN, hput] at hrun
  simp only [bind, Except.bind] at hrun
  split at hrun
  · cases hrun
  · rename_i d hd'
    split at hrun
    · rename_i hd1
      rw [hd1] at hd'
      have hfull := (filled_full (logN_pos s1.N) hd').mp rfl
      have hin := (get_density_ok hd').1
      have hpair : find_node (find_leaf s1.N p) (logN s1.N * 2) = find_node p (logN s1.N * 2) :=
        find_node_find_node (Nat.dvd_mul_right _ _) (logN_pos s1.N)
      have h2 := two_leaves hw.sized.pow (by omega)
      rw [hpair] at hrun
      have hwin : Window s1.N p (logN s1.N * 2) (find_node p (logN s1.N * 2)) := by
        rw [← hpair]
        exact hleaf.up h2
      refine hrest _ _ hwin (Nat.dvd_refl _) (fun _ => ?_) hrun
      obtain ⟨h3, h4⟩ := find_node_nest p (Nat.dvd_mul_right (logN s1.N) 2) (logN_pos s1.N) hwin.len_pow.pos
      have hmono := gapped.count_mono full s1.items h3 h4
      rw [← filled_eq, ← filled_eq, ← find_leaf_eq, hfull] at hmono
      omega
    · exact hrest _ _ hleaf (Nat.dvd_mul_right _ _) (fun hd => hd p hp) hrun

/-! ## Insertions -/

/-- The slides and the write of the item take nothing from a window, but one item from a full one. -/
theorem Placed.le_filled {i q : Nat} (hpl : Placed s s1 e i q) (hshift : Shifted s p i q)
    (he : full e = true) (hin : ni + len ≤ s.items.length) :
    filled s.items ni len ≤ filled s1.items ni len ∨
      (filled s.items ni len = len ∧ len ≤ filled s1.items ni len + 1) := by
  have hgap : ∀ k, gapped.Hole full s.items k → IsGap s k := fun k hk => isGap_iff.mpr hk
  apply hpl.exchange.le_count he _ _ hin
  · intro k h1 h2 hk
    rcases hshift with ⟨rfl, -, -, hrun⟩ | ⟨-, hlt, -, -⟩
    · exact hrun k h1 h2 (hgap k hk)
    · omega
  · intro k h1 h2 hk
    rcases hshift with ⟨rfl, hle, -, -⟩ | ⟨-, -, -, hrun⟩
    · omega
    · exact hrun k h1 h2 (hgap k hk)

theorem Placed.dense {i q : Nat} (hpl : Placed s s1 e i q) (hshift : Shifted s p i q) (he : full e = true)
    (hs : Sized s) (h16 : 16 ≤ s.N) (hd : Dense s) : Dense s1 := by
  intro k hk
  rw [hpl.frame.N] at hk
  have hold := hd k hk
  have hin := (leaf_window hs k).in_array hs.pow hk
  rw [Nat.pow_zero, Nat.mul_one] at hin
  unfold FilledLeaf at hold ⊢
  rw [hpl.frame.N]
  rcases hpl.le_filled hshift he (show _ ≤ s.items.length by rw [hs.items]; exact hin) with hle | ⟨-, hle⟩
  · omega
  · have h2 := two_le_logN hs.pow (by omega)
    omega

/-- What the planner hands to an insertion is full enough once the item is in. -/
theorem PlanOf.filled {i q : Nat} (hplan : PlanOf s p info) (hpl : Placed s s1 e i q)
    (hshift : Shifted s p i q) (he : full e = true) (hs : Sized s) (h16 : 16 ≤ s.N) (hp : p < s.N) :
    ∀ i, info = some i → PlanFilled s1 p i := by
  have h8 := Nat.le_of_dvd (logN_pos s.N) (eight_dvd_logN h16)
  have hN := hpl.frame.N
  -- a window of the level above a crowded one
  have hmore : ∀ i1 lv ni len, lv ≤ height s.N →
      Above s.N lv (packed_csr.filled s.items (find_node i1 (logN s.N * 2 ^ lv)) (logN s.N * 2 ^ lv) + 1) →
      ni ≤ find_node i1 (logN s.N * 2 ^ lv) → find_node i1 (logN s.N * 2 ^ lv) + logN s.N * 2 ^ lv ≤ ni + len →
      ni + len ≤ s.N → logN s.N * 2 ^ lv ≤ 4 * packed_csr.filled s1.items ni len := by
    intro i1 lv ni len hlv habove h1 h2 hin
    have hmany : 3 * (logN s.N * 2 ^ lv) ≤
        4 * (packed_csr.filled s.items (find_node i1 (logN s.N * 2 ^ lv)) (logN s.N * 2 ^ lv) + 1) := by
      have := habove.filled hlv
      exact_mod_cast this
    have hmono := gapped.count_mono full s.items h1 h2
    rw [← filled_eq, ← filled_eq] at hmono
    have hle : logN s.N ≤ logN s.N * 2 ^ lv := Nat.le_mul_of_pos_right _ (Nat.two_pow_pos lv)
    rcases hpl.le_filled hshift he (show ni + len ≤ s.items.length by rw [hs.items]; exact hin) with h3 | ⟨-, h3⟩
    · omega
    · omega
  rintro i1 hi1
  rcases hplan with hnone | ⟨hdouble, hcrowded⟩ | ⟨a, b, i2, hi2, hcovers⟩
  · rw [hnone] at hi1
    cases hi1
  · rw [hdouble] at hi1
    cases hi1
    refine ⟨fun _ => ?_, fun h => by cases h⟩
    have hroot := hcrowded (height s.N) (Nat.lt_succ_self _)
    have hwhole := height_eq hs.pow
    rw [hN]
    have hlen : plan_start s s.N p < s.N := by
      have h1 : plan_start s s.N p ≤ p := by
        unfold plan_start climb_start
        split
        · exact find_node_le _ _
        · exact find_node_le _ _
      omega
    have hzero : find_node (plan_start s s.N p) s.N = 0 := by
      unfold find_node
      rw [Nat.div_eq_of_lt hlen, Nat.zero_mul]
    have := hmore (plan_start s s.N p) (height s.N) 0 s.N (le_refl _) hroot (Nat.zero_le _)
      (by rw [← hwhole, hzero]) (by omega)
    rw [← hwhole] at this
    exact this
  · rw [hi2] at hi1
    cases hi1
    refine ⟨fun hdl => ?_, fun _ hlt => ?_⟩
    · rw [hcovers.no_double] at hdl
      cases hdl
    obtain ⟨lv, hlen, hni, hle, hcrowded, -⟩ := hcovers.level
    rw [hN] at hlt ⊢
    obtain ⟨i3, hi3, hwin⟩ := hcovers.window
    obtain ⟨lv, rfl⟩ : ∃ k, lv = k + 1 := by
      refine ⟨lv - 1, ?_⟩
      by_contra hc
      obtain rfl : lv = 0 := by omega
      rw [hlen] at hlt
      simp at hlt
    have hdvd : logN s.N * 2 ^ lv ∣ i1.max_len := ⟨2, by rw [hlen, Nat.pow_succ, Nat.mul_assoc]⟩
    have hpair : logN s.N * 2 ∣ i1.max_len := ⟨2 ^ lv, by rw [hlen, Nat.pow_succ, Nat.mul_assoc, Nat.mul_comm 2]⟩
    have hat : i1.node_index_final = find_node p i1.max_len := by
      rw [hni]
      unfold plan_start climb_start
      split
      · exact find_node_find_node hpair (by have := logN_pos s.N; omega)
      · exact find_node_find_node ((Nat.dvd_mul_right _ 2).trans hpair) (logN_pos s.N)
    obtain ⟨h1, h2⟩ := find_node_nest (plan_start s s.N p) hdvd pow_window.pos hwin.len_pow.pos
    rw [← hni] at h1 h2
    refine ⟨⟨hwin.pow, hwin.le, hat⟩, ?_⟩
    have hin := hwin.in_array hs.pow hi3
    have := hmore (plan_start s s.N p) lv _ _ (by omega) (hcrowded lv (Nat.lt_succ_self lv)) h1 h2 hin
    have hdouble : i1.max_len = logN s.N * 2 ^ lv * 2 := by rw [hlen, Nat.pow_succ, Nat.mul_assoc]
    omega

theorem filled_set_full (hx : items[p]? = some x) (hf : full x = true) (he : full e = true) :
    filled (items.set p e) index len = filled items index len := by
  rw [filled_eq, filled_eq]
  by_cases hin : index ≤ p ∧ p < index + len
  · have hset := gapped.count_set full e hx hin.1 hin.2
    rw [hf, he] at hset
    omega
  · refine gapped.count_congr fun k hk hk' => List.getElem?_set_ne ?_
    rintro rfl
    exact hin ⟨hk, hk'⟩

/-- An insertion that does not run into an item in the last slot: it overwrites the edge, or the
slides open a slot for it. -/
theorem insert_cases (h : WellFormed s) (he : IsEdge s.get_n e) (hp : Place s e p ∨ PastEnd s e p)
    (hfit : Takes s e p) (hend : p = s.N - 1 → IsGap s p ∨ Stores s e p)
    (hrun : insert s p e e.src info = .ok s') :
    (Stores s e p ∧ s' = { s with items := s.items.set p e }) ∨
      ∃ s0 s1 i q, s0.put i e = .ok s1 ∧ Placed s s1 e i q ∧ Shifted s p i q ∧ p < s1.N ∧
        insert_item s0 i (find_leaf s1.N p) e info = .ok s' := by
  unfold insert at hrun
  by_cases hst : Stores s e p
  · obtain ⟨s1, hrun1, -, rfl⟩ : ∃ s1, insert s p e e.src info = .ok s1 ∧ Inserted s s1 e ∧
        s1 = { s with items := s.items.set p e } := insert_calls_stored h he hst
    cases hrun1.symm.trans hrun
    exact .inl ⟨hst, rfl⟩
  · have hgap : p = s.N - 1 → IsGap s p := fun hl => (hend hl).resolve_right hst
    have hslides : Slides s p := by
      rcases hfit.resolve_left hst with ⟨hl, hno⟩ | ⟨hslides, -⟩
      · exact absurd (hgap hl) hno
      · exact hslides
    have hplace : Place s e p := by
      rcases hp with hp | hp
      · exact hp
      · exact absurd (hgap hp.last) hp.not_gap
    obtain ⟨s0, s1, i, q, hput, hpl, hshift, hitem⟩ := insert_calls_opens h he hplace hst hslides hgap
    rw [hitem 2 e.src info, ← hpl.frame.N] at hrun
    exact .inr ⟨s0, s1, i, q, hput, hpl, hshift, by rw [hpl.frame.N]; exact hplace.lt, hrun⟩

theorem insert_dense (h : WellFormed s) (he : IsEdge s.get_n e) (hp : Place s e p ∨ PastEnd s e p)
    (hfit : Takes s e p) (hend : p = s.N - 1 → IsGap s p ∨ Stores s e p) (hplan : PlanOf s p info)
    (h16 : 16 ≤ s.N) (hrun : insert s p e e.src info = .ok s') (hd : Dense s ∨ s.N < s'.N) : Dense s' := by
  rcases insert_cases h he hp hfit hend hrun with ⟨hst, rfl⟩ | ⟨s0, s1, i, q, hput, hpl, hshift, hps, hitem⟩
  · obtain ⟨x, hx, hf, -⟩ := hst
    intro i hi
    have hold := hd.resolve_right (lt_irrefl _) i hi
    unfold FilledLeaf at hold ⊢
    rw [filled_set_full hx hf he.full]
    exact hold
  · have hN := hpl.frame.N
    refine insert_item_dense hput hpl.wf (by omega) hps
      (hplan.filled hpl hshift he.full h.sized h16 (by omega)) hitem ?_
    rcases hd with hd | hlt
    · exact .inl (hpl.dense hshift he.full h.sized h16 hd)
    · exact .inr (by omega)

theorem insert_finish_size (hrun : insert_finish s ni info = .ok s') : s'.N ≤ s.N * 2 := by
  have hdouble : double_list s = .ok s' → s'.N ≤ s.N * 2 := by
    intro hrun
    have hN := (redistribute_frame hrun).N
    exact hN.le
  have hlast : ∀ len ni', (if logN s.N < len then redistribute s ni' len else pure s) = .ok s' →
      s'.N ≤ s.N * 2 := by
    intro len ni' hrun
    split at hrun
    · have hN := (redistribute_frame hrun).N
      omega
    · cases hrun
      omega
  unfold insert_finish at hrun
  rcases info with _ | i
  · obtain ⟨win, -, hrun⟩ := bind_ok hrun
    rcases win with _ | ⟨len, ni'⟩
    · exact hdouble hrun
    · exact hlast len ni' hrun
  · dsimp only at hrun
    split at hrun
    · exact hdouble hrun
    · exact hlast _ _ hrun

theorem insert_item_size {i : Nat} (hrun : insert_item s i ni e info = .ok s') : s'.N ≤ s.N * 2 := by
  unfold insert_item at hrun
  dsimp only at hrun
  obtain ⟨s1, h1, hrun⟩ := bind_ok hrun
  obtain ⟨density, -, hrun⟩ := bind_ok hrun
  have hN1 := (put_frame h1).N
  split at hrun
  · obtain ⟨s2, h2, hrun⟩ := bind_ok hrun
    have hN2 := (redistribute_frame h2).N
    have := insert_finish_size hrun
    omega
  · obtain ⟨s2, h2, hrun⟩ := bind_ok hrun
    have hN2 := (redistribute_frame h2).N
    have := insert_finish_size hrun
    omega

theorem insert_size (h : WellFormed s) (he : IsEdge s.get_n e) (hp : Place s e p ∨ PastEnd s e p)
    (hfit : Takes s e p) (hend : p = s.N - 1 → IsGap s p ∨ Stores s e p)
    (hrun : insert s p e e.src info = .ok s') : s'.N ≤ s.N * 2 := by
  rcases insert_cases h he hp hfit hend hrun with ⟨-, rfl⟩ | ⟨s0, s1, i, q, hput, hpl, -, -, hitem⟩
  · show s.N ≤ s.N * 2
    omega
  · have h0 := (put_frame hput).N
    have h1 := hpl.frame.N
    have := insert_item_size hitem
    omega

/-! ## Removals -/

/-- A window that is not too empty is filled to an eighth. -/
theorem filled_of_not_below {N : Nat} {c : ℚ} (h : ¬ Below N j c) (hh : height N ≠ 0) :
    ((logN N * 2 ^ j : Nat) : ℚ) ≤ 8 * c := by
  have hle : 1 / 4 - (1 / 8 * ((height N - j : Int) : ℚ)) / height N ≤ c / (logN N * 2 ^ j : Nat) := by
    by_contra hc
    exact h ⟨hh, lt_of_not_ge hc⟩
  have hpos : (0 : ℚ) < (logN N * 2 ^ j : Nat) := by exact_mod_cast pow_window.pos
  have hheight : (0 : ℚ) < height N := by exact_mod_cast Nat.pos_of_ne_zero hh
  have hlevel : (1 / 8 * ((height N - j : Int) : ℚ)) / height N ≤ 1 / 8 := by
    rw [div_le_iff₀ hheight]
    have : ((height N - j : Int) : ℚ) ≤ height N := by
      push_cast
      linarith [Nat.cast_nonneg (α := ℚ) j]
    linarith
  rw [le_div_iff₀ hpos] at hle
  nlinarith

/-- A removal that does not halve the array. -/
theorem remove_items_dense (h : WellFormed s) (h16 : 16 ≤ s.N) (hx : s.items[p]? = some x)
    (hf : full x = true) (he : is_sentinel e = false) (hsent : is_sentinel x = false) (hdest : x.dest = e.dest)
    (hrun : remove_items s p e = .ok (false, s')) (hd : Dense s) : Dense s' := by
  have hstored : StoredAt s p e := ⟨x, hx, by simpa [full] using hf, he, hdest⟩
  have hp : p < s.N := by
    rw [← h.sized.items]
    exact (List.getElem?_eq_some_iff.mp hx).1
  obtain ⟨x', s1, s2, hx', -, hs1, hrun2, ⟨hb, -⟩ | ⟨-, -, len, ni, lv, hwin, hlen, hstop, hrun3⟩⟩ :=
    remove_items_stored h.sized hstored hrun
  · cases hb
  obtain rfl : x = x' := Option.some.inj (hx.symm.trans hx')
  obtain ⟨hwf1, -⟩ := emptied_well_formed h hx hf hsent
  rw [← hs1] at hwf1
  have hN1 : s1.N = s.N := by rw [hs1]
  have hitems1 : s1.items = s.items.set p (emptied x) := by rw [hs1]
  obtain ⟨s3, hrun3', hk, hred⟩ := redistribute_leaf hwf1 (show p < s1.N by omega)
  rw [hN1] at hrun3' hred
  cases hrun3'.symm.trans hrun2
  have hN2 : s2.N = s.N := hred.frame.N.trans hN1
  have hdvd : logN s.N ∣ len := ⟨2 ^ lv, hlen⟩
  have hlenpos := hwin.len_pow.pos
  obtain ⟨hleaf1, hleaf2⟩ := find_node_nest p hdvd (logN_pos s.N) hlenpos
  rw [← find_leaf_eq, ← hwin.at_] at hleaf1 hleaf2
  have hpleaf := find_leaf_lt_succ s.N p
  refine redistribute_dense hk.wf.sized hk.wf.one_sentinel_each (by omega) (show p < s2.N by omega)
    (by rw [hN2]; exact hwin) hrun3 ?_ fun i hi hno => ?_
  · -- the window lost the item, and the redistribution of the leaf left its count
    have hset := gapped.count_set full (emptied x) hx (show ni ≤ p by omega) (show p < ni + len by omega)
    rw [hf, full_emptied, ← hitems1, ← filled_eq, ← filled_eq, ← hred.filled hleaf1 hleaf2] at hset
    have hmany := filled_of_not_below hstop.2.2 ((height_ne_zero h.sized.pow).mpr (by omega))
    rw [← hlen, ← hwin.at_] at hmany
    have : (len : ℚ) + 8 ≤ 8 * filled s.items ni len := by linarith
    have : len + 8 ≤ 8 * filled s.items ni len := by exact_mod_cast this
    simp only [Bool.false_eq_true, if_false, if_true] at hset
    omega
  · -- the other leaves are as they were
    rw [hN2] at hi
    have hold := hd i hi
    unfold FilledLeaf at hold ⊢
    rw [hN2]
    rw [filled_eq] at hold ⊢
    have hsame : gapped.count full s2.items (find_leaf s.N i) (logN s.N) =
        gapped.count full s.items (find_leaf s.N i) (logN s.N) := gapped.count_congr fun k hk' hk'' => by
      rw [hwin.at_] at hno hleaf1 hleaf2
      have hout := leaf_outside hdvd hlenpos hno hk' hk''
      rw [hred.outside k (by omega), hitems1, List.getElem?_set_ne (by omega)]
    rw [hsame]
    exact hold

/-! ## Calls -/

/-- The call does not run into an item in the last slot. -/
def Call.Inside (s : PCSR) : Call → Prop
  | .add_edge src dest value => ∀ p, find_in_node s ⟨src, dest, value⟩ src = .ok p → p = s.N - 1 →
      IsGap s p ∨ Stores s ⟨src, dest, value⟩ p
  | .remove_edge _ _ => True

theorem Alike.dense (h : Alike s s') (hd : Dense s) : Dense s' := by
  intro i hi
  rw [h.N] at hi
  have hold := hd i hi
  unfold FilledLeaf at hold ⊢
  rw [h.N, h.items]
  exact hold

theorem Adds.dense (hg : Good s) (he : IsEdge s.get_n e) (hp : Place s e p ∨ PastEnd s e p)
    (hfit : Takes s e p) (hend : p = s.N - 1 → IsGap s p ∨ Stores s e p) (h : Adds s p e s') :
    s'.N ≤ s.N * 2 ∧ (16 ≤ s.N → Dense s ∨ s.N < s'.N → Dense s') := by
  obtain ⟨c, -, info, s2, hplan, hins, hsame, -⟩ := h
  have halike := alike_with_counts c s
  have hw := halike.well_formed hg.wf
  have he' : IsEdge (with_counts c s).get_n e := by
    rw [halike.get_n]
    exact he
  have hp' : Place (with_counts c s) e p ∨ PastEnd (with_counts c s) e p := hp.imp halike.place halike.past_end
  have hend' : p = (with_counts c s).N - 1 → IsGap (with_counts c s) p ∨ Stores (with_counts c s) e p := by
    rw [halike.N, halike.gap, halike.stores]
    exact hend
  have hN := hsame.N
  refine ⟨?_, fun h16 hd => ?_⟩
  · have := insert_size hw he' hp' (halike.takes.mpr hfit) hend' hins
    rw [halike.N] at this
    omega
  · refine hsame.dense (insert_dense hw he' hp' (halike.takes.mpr hfit) hend' hplan h16 hins ?_)
    rw [hN] at hd
    exact hd.imp_left halike.dense

theorem Deletes.dense (hg : Good s) (he : IsEdge s.get_n e) (hplace : Place s e p) (h : Deletes s p e s')
    (h16 : 16 ≤ s'.N) (hd : Dense s) : Dense s' := by
  have hshrinks := h.shrinks hg he hplace
  obtain ⟨c, -, ⟨-, rfl⟩ | ⟨hst, s2, hrem, hsame, -⟩⟩ := h
  · exact (alike_with_counts c s).dense hd
  have halike := alike_with_counts c s
  rw [halike.stored_at] at hst
  have hstores : Stores s e p := by
    by_contra hno
    exact not_stored_of_place (.inl hplace) hno hst
  obtain ⟨x, hx, hf, hs, -, hdest⟩ := id hstores
  rcases hshrinks.size p hstores with ⟨hno, hN⟩ | ⟨-, h8, hN, hspaced, -⟩
  · -- the climb stops at a window
    obtain ⟨halve, s1, hitems, ⟨rfl, -⟩ | ⟨rfl, rfl⟩⟩ := exec_remove_items hrem
    · rw [halike.stored_at.symm] at hst
      exact absurd ((remove_items_halves (halike.well_formed hg.wf).sized hst hitems).mp rfl) hno
    · exact hsame.dense (remove_items_dense (halike.well_formed hg.wf) (show 16 ≤ s.N by omega) hx hf
        he.not_sentinel hs hdest hitems (halike.dense hd))
  · -- the array of half the size holds one item less
    have hcontents := congrArg List.length (hshrinks.contents p x hstores hx)
    rw [List.length_erase_of_mem (mem_filter_of_slot hx hf)] at hcontents
    have hall := hd.size_le hg.wf.sized
    rw [filled_all hg.wf.sized] at hall
    have hhalf := (hg.wf.sized.pow.half (by omega)).2
    exact hspaced.dense hshrinks.good.wf.sized h16 (by omega)

/-- An array larger than before, or larger than it once was, is dense. -/
theorem Call.dense {c : Call} {M : Nat} (hg : Good s) (hc : c.Valid s.get_n) (hfit : c.Fits s)
    (hin : c.Inside s) (hr : Returns s c s') (hM : 32 ≤ M) (h : s.N ≤ M ∨ Dense s) :
    s'.N ≤ M ∨ Dense s' := by
  obtain ⟨calls, hr⟩ := hr
  have he := hc.is_edge
  rcases Nat.lt_or_ge M s'.N with hlt | hge
  · right
    cases c with
    | add_edge src dest value =>
      obtain ⟨p, s1, hfind, hrun, hadds, hp, htakes⟩ := add_edge_adds hg he hfit
      cases hrun.symm.trans hr
      obtain ⟨hsize, hdense⟩ := hadds.dense hg he hp htakes (hin p hfind)
      exact hdense (by omega) (h.symm.imp_right fun hle => by omega)
    | remove_edge src dest =>
      obtain ⟨p, s1, hrun, hplace, hdeletes⟩ := remove_edge_deletes hg he (remove_edge_returned hg he hr)
      cases calls with
      | zero => cases hr
      | succ calls =>
        cases (hrun calls).symm.trans hr
        have hshrinks := hdeletes.shrinks hg he hplace
        have hle : s'.N ≤ s.N := by
          by_cases hst : ∃ q, Stores s ⟨src, dest, 1⟩ q
          · obtain ⟨q, hq⟩ := hst
            rcases hshrinks.size q hq with ⟨-, hN⟩ | ⟨-, -, hN, -⟩ <;> omega
          · exact (hshrinks.absent fun q hq => hst ⟨q, hq⟩).2.le
        exact hdeletes.dense hg he hplace (by omega) (h.resolve_left (by omega))
  · exact .inl hge

/-! ## The law -/

/-- The items are the sentinels and the edges. -/
theorem items_le (hw : WellFormed s) : (s.items.filter full).length ≤ s.get_n + (edges s).length := by
  have hsplit := List.length_eq_length_filter_add (l := s.items.filter full) is_sentinel
  have hsub : (s.items.filter full).filter is_sentinel ⊆ (List.range s.get_n).map sentinel := by
    intro x hx
    obtain ⟨hx, hs⟩ := List.mem_filter.mp hx
    have hitem := hw.arranged.items x hx
    exact List.mem_map.mpr ⟨x.src, List.mem_range.mpr hitem.src_lt, (hitem.sentinel_iff.mp hs).symm⟩
  have hle := ((hw.arranged.nodup.filter is_sentinel).subperm hsub).length_le
  rw [List.length_map, List.length_range] at hle
  unfold edges
  omega

theorem builds_dense {n : Nat} {lock_bsearch : Bool} {m : Nat → Nat → Option Nat} (hn : 1 ≤ n)
    (hle : n ≤ UINT32_MAX) (h : Builds n lock_bsearch (fun s c => c.Fits s ∧ c.Inside s) s m) :
    s.N ≤ init_size n ∨ Dense s := by
  induction h with
  | start => exact .inl (le_refl _)
  | call c h hc hok hr ih =>
    obtain ⟨⟨hg, hget⟩, -⟩ := builds_holds hn hle (fun _ _ hok => hok.1) h
    rw [← hget] at hc
    have hlt := lt_init_size n
    exact Call.dense hg hc hok.1 hok.2 hr (by omega) ih

end

end packed_csr
