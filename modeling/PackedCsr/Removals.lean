-- The removal of an item: the climb that looks for a dense enough window, and
-- what the removal does to a well-formed array.
import PackedCsr.Steps
import PackedCsr.RemoveLocks
import PackedCsr.Spacing

namespace packed_csr

open effects

/-! ## The climb -/

/-- The items of the window of level `j` over slot `i0`. -/
def level_filled (s : PCSR) (i0 j : Nat) : Nat :=
  filled s.items (find_node i0 (logN s.N * 2 ^ j)) (logN s.N * 2 ^ j)

section

variable {s s' : PCSR} {i0 j : Nat}

/-- The climb ends at the first window that is dense enough, or runs past the root. -/
theorem remove_climb_spec {rest ni : Nat} (hs : Sized s) (hi0 : i0 < s.N)
    (hwin : Window s.N i0 (logN s.N * 2 ^ j) ni) (hrest : s.N < logN s.N * 2 ^ j * 2 ^ rest) :
    ∃ r, remove_climb s rest (logN s.N * 2 ^ j) (height s.N - j) ni = .ok r ∧
      (r = none → ∀ k, j ≤ k → k ≤ height s.N → Below s.N k (level_filled s i0 k)) ∧
      ∀ len ni', r = some (len, ni') → ∃ k, j ≤ k ∧ k ≤ height s.N ∧ len = logN s.N * 2 ^ k ∧
        Window s.N i0 len ni' ∧ ¬ Below s.N k (level_filled s i0 k) ∧
        ∀ i, j ≤ i → i < k → Below s.N i (level_filled s i0 i) := by
  induction rest generalizing j ni with
  | zero => exact absurd hwin.le (by simpa using hrest)
  | succ rest ih =>
    have hlevel := level_nonneg hs.pow hwin.le
    have hin := hwin.in_array hs.pow hi0
    obtain ⟨b, hb⟩ := density_bound_exists (show 0 ≤ (height s.N : Int) - j by omega)
      (show (height s.N : Int) - j ≤ height s.N by omega)
    obtain ⟨d, hd⟩ := get_density_exists
      (show ni + logN s.N * 2 ^ j ≤ s.items.length by rw [hs.items]; exact hin)
    have hbelow : too_empty d b = true ↔ Below s.N j (level_filled s i0 j) := by
      rw [(get_density_ok hd).2, hwin.at_]
      exact too_empty_iff hb
    unfold remove_climb
    simp only [hb, hd, bind, Except.bind]
    by_cases hempty : too_empty d b = true
    · rw [if_pos hempty]
      by_cases hle : logN s.N * 2 ^ j * 2 ≤ s.N
      · rw [if_pos hle]
        have hup := hwin.up hle
        have hj : logN s.N * 2 ^ j * 2 = logN s.N * 2 ^ (j + 1) := by rw [Nat.pow_succ, Nat.mul_assoc]
        rw [hj] at hup ⊢
        have hr : s.N < logN s.N * 2 ^ (j + 1) * 2 ^ rest := by
          rw [← hj, Nat.mul_assoc _ 2, Nat.mul_comm 2, ← Nat.pow_succ]
          exact hrest
        obtain ⟨r, hrun, hnone, hsome⟩ := ih hup hr
        rw [show (height s.N : Int) - (j + 1 : Nat) = height s.N - j - 1 by push_cast; ring] at hrun
        refine ⟨r, hrun, ?_, ?_⟩
        · intro hr k hk hkh
          rcases Nat.eq_or_lt_of_le hk with rfl | hlt
          · exact hbelow.mp hempty
          · exact hnone hr k hlt hkh
        · intro len ni' hr
          obtain ⟨k, hk, hkh, hlen, hwin', hnot, hall⟩ := hsome len ni' hr
          refine ⟨k, by omega, hkh, hlen, hwin', hnot, fun i hji hik => ?_⟩
          rcases Nat.eq_or_lt_of_le hji with rfl | hlt
          · exact hbelow.mp hempty
          · exact hall i hlt hik
      · rw [if_neg hle]
        refine ⟨none, rfl, ?_, fun len ni' h => by cases h⟩
        intro _ k hk hkh
        -- the window is the array, so there is no level above
        obtain ⟨hlen, -⟩ := hwin.whole hs.pow hle hi0
        have htop : logN s.N * 2 ^ height s.N ≤ logN s.N * 2 ^ j := by
          rw [hlen]
          exact (height_eq hs.pow).ge
        have hjh : height s.N ≤ j := (Nat.pow_le_pow_iff_right (by decide)).mp
          (Nat.le_of_mul_le_mul_left htop (logN_pos s.N))
        obtain rfl : k = j := by omega
        exact hbelow.mp hempty
    · rw [if_neg hempty]
      refine ⟨some (logN s.N * 2 ^ j, ni), rfl, (fun h => by cases h), ?_⟩
      intro len ni' h
      cases h
      exact ⟨j, le_refl j, hlevel, rfl, hwin, fun hc => hempty (hbelow.mpr hc), fun i h1 h2 => by omega⟩

theorem remove_climb_leaf (hs : Sized s) (hi0 : i0 < s.N) :
    ∃ r, remove_climb s (s.N + 1) (logN s.N) (height s.N) (find_leaf s.N i0) = .ok r ∧
      (r = none → ∀ k ≤ height s.N, Below s.N k (level_filled s i0 k)) ∧
      ∀ len ni', r = some (len, ni') → ∃ k ≤ height s.N, len = logN s.N * 2 ^ k ∧
        Window s.N i0 len ni' ∧ ¬ Below s.N k (level_filled s i0 k) ∧
        ∀ i < k, Below s.N i (level_filled s i0 i) := by
  obtain ⟨r, hrun, hnone, hsome⟩ :=
    remove_climb_spec hs hi0 (leaf_window hs i0) (lt_leaf_mul_two_pow s.N)
  rw [Nat.pow_zero, Nat.mul_one] at hrun
  refine ⟨r, by simpa using hrun, fun h k => hnone h k (Nat.zero_le k), ?_⟩
  intro len ni' h
  obtain ⟨k, -, hk, hlen, hwin, hnot, hall⟩ := hsome len ni' h
  exact ⟨k, hk, hlen, hwin, hnot, fun i => hall i (Nat.zero_le i)⟩

/-! ## The removal, on any array -/

theorem remove_items_absent {p : Nat} {e x : Edge} (hx : s.items[p]? = some x)
    (hstored : ¬ StoredAt s p e) : remove_items s p e = .ok (false, s) := by
  have hread : s.item p = .ok x := by
    unfold PCSR.item
    rw [hx]
  have hskip : (x.is_null || is_sentinel e || x.dest != e.dest) = true := by
    by_contra hc
    apply hstored
    simp at hc
    exact ⟨x, hx, hc.1.1, hc.1.2, hc.2⟩
  unfold remove_items
  simp only [hread, bind, Except.bind, hskip, if_true]
  rfl

/-- The slot of a removed item. -/
def emptied (x : Edge) : Edge := { x with dest := 0, value := 0 }

@[simp] theorem full_emptied (x : Edge) : full (emptied x) = false := rfl

/-- A removal that returns: the slot is emptied, the leaf is redistributed, and then the window
of the climb, if it finds one. -/
theorem remove_items_stored {p : Nat} {e : Edge} {b : Bool} (hs : Sized s)
    (hstored : StoredAt s p e) (h : remove_items s p e = .ok (b, s')) :
    ∃ x s1 s2, s.items[p]? = some x ∧ full x = true ∧
      s1 = { s with items := s.items.set p (emptied x) } ∧
      redistribute s1 (find_leaf s.N p) (logN s.N) = .ok s2 ∧
      ((b = true ∧ SparseToRoot s s.N p ∧ s' = s2) ∨
        (b = false ∧ ¬ SparseToRoot s s.N p ∧ ∃ len ni k, Window s.N p len ni ∧
          len = logN s.N * 2 ^ k ∧ StopsAt s s.N p k ∧ redistribute s2 ni len = .ok s')) := by
  obtain ⟨x, hx, hnull, hsent, hdest⟩ := hstored
  have hp : p < s.N := by
    rw [← hs.items]
    exact (List.getElem?_eq_some_iff.mp hx).1
  have hread : s.item p = .ok x := by
    unfold PCSR.item
    rw [hx]
  have hput : s.put p (emptied x) = .ok { s with items := s.items.set p (emptied x) } :=
    put_of_lt _ (by rw [hs.items]; exact hp)
  unfold remove_items at h
  simp only [hread, bind, Except.bind, hnull, hsent, hdest, Bool.or_self, bne_self_eq_false,
    Bool.false_eq_true, if_false] at h
  rw [show ({ x with dest := 0, value := 0 } : Edge) = emptied x from rfl, hput] at h
  dsimp only at h
  generalize hs1 : ({ s with items := s.items.set p (emptied x) } : PCSR) = s1 at h
  have hs1N : s1.N = s.N := by rw [← hs1]
  have hs1i : s1.items = s.items.set p (emptied x) := by rw [← hs1]
  cases hred : redistribute s1 (find_leaf s.N p) (logN s.N) with
  | error f =>
    rw [hred] at h
    cases h
  | ok s2 =>
    rw [hred] at h
    dsimp only at h
    have hframe := redistribute_frame hred
    have hs2N : s2.N = s.N := hframe.N.trans hs1N
    have hs2 : Sized s2 := by
      refine ⟨by rw [hs2N]; exact hs.pow, ?_, ?_⟩
      · rw [hframe.items, hs2N, hs1i, List.length_set]
        exact hs.items
      · rw [hframe.versions, hs2N, ← hs1]
        exact hs.versions
    -- the windows over the slot have lost one item
    have hlevel : ∀ k, (level_filled s2 p k : ℚ) =
        filled s.items (find_node p (logN s.N * 2 ^ k)) (logN s.N * 2 ^ k) - 1 := by
      intro k
      have hpos : 0 < logN s.N * 2 ^ k := Nat.mul_pos (logN_pos _) (Nat.two_pow_pos k)
      have hnest := find_node_nest p (Nat.dvd_mul_right (logN s.N) (2 ^ k)) (logN_pos s.N) hpos
      have hshuffled := (redistribute_shuffled hred).filled hnest.1 hnest.2
      have hcount := gapped.count_set full (emptied x) hx
        (find_node_le p (logN s.N * 2 ^ k)) (lt_find_node_add p hpos)
      have hxfull : full x = true := by simp [full, hnull]
      rw [if_pos hxfull, full_emptied, ← hs1i] at hcount
      unfold level_filled
      rw [hs2N, hshuffled, filled_eq, filled_eq, eq_sub_iff_add_eq]
      exact_mod_cast hcount
    obtain ⟨r, hclimb, hnone, hsome⟩ := remove_climb_leaf hs2 (by rw [hs2N]; exact hp)
    rw [hs2N] at hclimb h hnone hsome
    rw [hclimb] at h
    dsimp only at h
    refine ⟨x, s1, s2, hx, by simp [full, hnull], hs1.symm, hred, ?_⟩
    cases r with
    | none =>
      cases h
      refine .inl ⟨rfl, fun k hk => ?_, rfl⟩
      rw [← hlevel]
      exact hnone rfl k (Nat.le_of_lt_succ hk)
    | some r =>
      obtain ⟨len, ni⟩ := r
      obtain ⟨k, hk, hlen, hwin, hnot, hall⟩ := hsome len ni rfl
      cases hred2 : redistribute s2 ni len with
      | error f =>
        simp only [hred2] at h
        cases h
      | ok s3 =>
        simp only [hred2] at h
        cases h
        have hstop : StopsAt s s.N p k := by
          refine ⟨hk, fun i hi => ?_, ?_⟩
          · rw [← hlevel]
            exact hall i hi
          · rw [← hlevel]
            exact hnot
        exact .inr ⟨rfl, hstop.not_root, len, ni, k, hwin, hlen, hstop, hred2⟩

/-- The removal halves the array exactly when its climb runs past the root. -/
theorem remove_items_halves {p : Nat} {e : Edge} {b : Bool} (hs : Sized s) (hstored : StoredAt s p e)
    (h : remove_items s p e = .ok (b, s')) : b = true ↔ SparseToRoot s s.N p := by
  obtain ⟨x, s1, s2, -, -, -, -, ⟨hb, hroot, -⟩ | ⟨hb, hroot, -⟩⟩ := remove_items_stored hs hstored h
  · simp [hb, hroot]
  · simp [hb, hroot]

theorem remove_items_stops {p : Nat} {e : Edge} (hs : Sized s) (hstop : ∃ j, StopsAt s s.N p j) :
    remove_items s p e ≠ .ok (true, s') := by
  intro h
  obtain ⟨j, hj⟩ := hstop
  by_cases hstored : StoredAt s p e
  · exact hj.not_root ((remove_items_halves hs hstored h).mp rfl)
  · cases hx : s.items[p]? with
    | none =>
      have hread : s.item p = .error (.slot p) := by
        unfold PCSR.item
        rw [hx]
      unfold remove_items at h
      simp only [hread] at h
      cases h
    | some x =>
      rw [remove_items_absent hx hstored] at h
      cases h

end

/-! ## The removal, on a well-formed array -/

section

variable {s s' : PCSR} {p : Nat} {e x : Edge}

theorem Arranged.nodup {n : Nat} {c : List Edge} (h : Arranged n c) : c.Nodup :=
  List.Pairwise.imp before_ne h.sorted

/-- Without an edge, a well-formed array is well formed. -/
theorem emptied_well_formed (h : WellFormed s) (hx : s.items[p]? = some x) (hfull : full x = true)
    (hsent : is_sentinel x = false) :
    WellFormed { s with items := s.items.set p (emptied x) } ∧
      (s.items.set p (emptied x)).filter full = (s.items.filter full).erase x := by
  have hsplit := split_at hx
  have hp : p < s.items.length := (List.getElem?_eq_some_iff.mp hx).1
  have hlen : (s.items.take p).length = p := by
    simp
    omega
  have hbefore : x ∉ (s.items.take p).filter full := by
    intro hmem
    have hn := h.arranged.nodup
    rw [hsplit, List.filter_append, List.filter_cons_of_pos hfull] at hn
    exact (List.nodup_append.mp hn).2.2 x hmem x (List.mem_cons_self ..) rfl
  have hset : s.items.set p (emptied x) = s.items.take p ++ emptied x :: s.items.drop (p + 1) := by
    have hmid := set_mid (s.items.take p) (s.items.drop (p + 1)) x (emptied x)
    rw [hlen, ← hsplit] at hmid
    exact hmid
  have hfilter : (s.items.set p (emptied x)).filter full = (s.items.filter full).erase x := by
    rw [hset, List.filter_append, List.filter_cons_of_neg (by simp)]
    conv_rhs => rw [hsplit]
    rw [List.filter_append, List.filter_cons_of_pos hfull, List.erase_append_right _ hbefore,
      List.erase_cons_head]
  have hslots : ∀ (i v : Nat), (s.items.set p (emptied x))[i]? = some (sentinel v) →
      s.items[i]? = some (sentinel v) := by
    intro i v hv
    by_cases hi : i = p
    · subst hi
      rw [List.getElem?_set_self hp] at hv
      have hempty := full_emptied x
      rw [Option.some.inj hv] at hempty
      simp at hempty
    · rwa [List.getElem?_set_ne (Ne.symm hi)] at hv
  refine ⟨⟨⟨h.sized.pow, ?_, h.sized.versions⟩, h.n_pos, h.n_le, ?_, ?_, ?_, h.ends⟩, hfilter⟩
  · simpa using h.sized.items
  · rw [hfilter]
    refine ⟨h.arranged.sorted.sublist List.erase_sublist, ?_, ?_⟩
    · intro y hy
      exact h.arranged.items y (List.mem_of_mem_erase hy)
    · intro v hv
      apply (h.arranged.nodup.mem_erase_iff).mpr
      refine ⟨?_, h.arranged.sentinels v hv⟩
      intro hc
      rw [← hc] at hsent
      simp at hsent
  · have hp0 : p ≠ 0 := by
      rintro rfl
      rw [h.first] at hx
      rw [← Option.some.inj hx] at hsent
      simp at hsent
    show (s.items.set p (emptied x))[0]? = some (sentinel 0)
    rw [List.getElem?_set_ne hp0]
    exact h.first
  · intro i v hv
    exact h.linked i v (hslots i v hv)

/-- A removal that climbs past the root finds an array that is less than a quarter full. -/
theorem SparseToRoot.few (hs : Sized s) (hp : p < s.N) (h : SparseToRoot s s.N p) :
    8 ≤ s.N ∧ ((s.items.filter full).length : ℚ) - 1 < s.N / 4 := by
  have hroot := h (height s.N) (Nat.lt_succ_self _)
  obtain ⟨hh, hlt⟩ := hroot
  rw [← height_eq hs.pow] at hlt
  have hwhole : find_node p s.N = 0 := by
    unfold find_node
    rw [Nat.div_eq_of_lt hp, Nat.zero_mul]
  have hall : filled s.items 0 s.N = (s.items.filter full).length := by
    unfold filled
    rw [List.drop_zero, List.take_of_length_le (by rw [hs.items]), List.countP_eq_length_filter]
    rfl
  rw [hwhole, hall] at hlt
  refine ⟨(height_ne_zero hs.pow).mp hh, ?_⟩
  have hN : (0 : ℚ) < s.N := by exact_mod_cast hs.pow.pos
  rw [div_lt_iff₀ hN] at hlt
  simp only [sub_self, Int.cast_zero, mul_zero, zero_div, sub_zero] at hlt
  linarith

theorem remove_items_exists (h : WellFormed s) (hx : s.items[p]? = some x) (hfull : full x = true)
    (he : is_sentinel e = false) (hsent : is_sentinel x = false) (hdest : x.dest = e.dest) :
    ∃ b s', remove_items s p e = .ok (b, s') := by
  have hp : p < s.items.length := (List.getElem?_eq_some_iff.mp hx).1
  have hnull : x.is_null = false := by simpa [full] using hfull
  obtain ⟨hwf1, -⟩ := emptied_well_formed h hx hfull hsent
  have hread : s.item p = .ok x := by
    unfold PCSR.item
    rw [hx]
  have hput := put_of_lt (emptied x) hp
  rw [h.sized.items] at hp
  generalize hs1 : ({ s with items := s.items.set p (emptied x) } : PCSR) = s1 at hwf1 hput
  have hs1N : s1.N = s.N := by rw [← hs1]
  obtain ⟨s2, hrun2, hk2, hred2⟩ := redistribute_leaf hwf1 (show p < s1.N by rw [hs1N]; exact hp)
  have hs2N : s2.N = s.N := hred2.frame.N.trans hs1N
  rw [hs1N] at hrun2
  obtain ⟨r, hclimb, -, hsome⟩ := remove_climb_leaf hk2.wf.sized
    (show p < s2.N by rw [hs2N]; exact hp)
  rw [hs2N] at hclimb
  unfold remove_items
  simp only [hread, bind, Except.bind, hnull, he, hdest, Bool.or_self, bne_self_eq_false,
    Bool.false_eq_true, if_false]
  rw [show ({ x with dest := 0, value := 0 } : Edge) = emptied x from rfl, hput]
  simp only [hs1N, hrun2, hs2N, hclimb]
  cases r with
  | none => exact ⟨true, s2, rfl⟩
  | some r =>
    obtain ⟨len, ni⟩ := r
    obtain ⟨k, -, -, hwin, -, -⟩ := hsome len ni rfl
    obtain ⟨s3, hrun3, -, -⟩ := redistribute_window hk2.wf (by rw [hs2N]; exact hp) hwin
    exact ⟨false, s3, by simp only [hrun3]; rfl⟩

/-- The removal of a stored edge, with no other thread active. -/
theorem exec_remove_stored (h : WellFormed s) (hx : s.items[p]? = some x) (hfull : full x = true)
    (he : is_sentinel e = false) (hsent : is_sentinel x = false) (hdest : x.dest = e.dest) :
    ∃ s', exec (remove p e) s = .ok ((), s') ∧ Kept s s' ∧
      s'.items.filter full = (s.items.filter full).erase x ∧ (EndFree s → EndFree s') ∧
      ((¬ SparseToRoot s s.N p ∧ s'.N = s.N) ∨ (SparseToRoot s s.N p ∧ 8 ≤ s.N ∧ s'.N = s.N / 2 ∧
        ((s'.items.filter full).length : ℚ) < s.N / 4 ∧
        EvenlySpaced s' ∧ s'.versions = s.versions.take (s'.N / logN s'.N))) := by
  have hp : p < s.N := by
    rw [← h.sized.items]
    exact (List.getElem?_eq_some_iff.mp hx).1
  have hnull : x.is_null = false := by simpa [full] using hfull
  have hstored : StoredAt s p e := ⟨x, hx, hnull, he, hdest⟩
  obtain ⟨b, s3, hrun⟩ := remove_items_exists h hx hfull he hsent hdest
  obtain ⟨hwf1, hfilter1⟩ := emptied_well_formed h hx hfull hsent
  obtain ⟨x', s1, s2, hx', -, rfl, hrun2, hend⟩ := remove_items_stored h.sized hstored hrun
  obtain rfl : x = x' := by
    rw [hx] at hx'
    exact Option.some.inj hx'
  obtain ⟨s2', hrun2', hk2, hred2⟩ := redistribute_leaf hwf1
    (show p < s.N from hp)
  obtain rfl : s2' = s2 := Except.ok.inj (hrun2'.symm.trans hrun2)
  -- the leaf of the slot has a gap now
  have hk : Kept s s2' := by
    refine ⟨hk2.wf, hk2.n, hk2.lock_bsearch, fun hend => ?_⟩
    have hwin := leaf_window h.sized p
    rw [Nat.pow_zero, Nat.mul_one] at hwin
    apply hred2.end_full hwf1.sized hp hwin
    intro hlt
    change find_leaf s.N p + logN s.N < s.N at hlt
    have hle := hwin.end_or h.sized.pow hp
    have hin := find_leaf_lt_succ s.N p
    have hL := logN_pos s.N
    have h2 := two_le_logN h.sized.pow (by omega)
    have hsame : ∀ i, s.N - 2 ≤ i →
        (IsGap { s with items := s.items.set p (emptied x) } i ↔ IsGap s i) := by
      intro i hi
      unfold IsGap
      dsimp only
      rw [List.getElem?_set_ne (by omega)]
    intro hgap
    exact (hsame (s.N - 1) (by omega)).mpr (hend ((hsame (s.N - 2) (by omega)).mp hgap))
  have hgap1 : IsGap { s with items := s.items.set p (emptied x) } p :=
    ⟨emptied x, List.getElem?_set_self (by rw [h.sized.items]; exact hp), rfl⟩
  have hin := find_leaf_lt_succ s.N p
  have hfree : EndFree s → EndFree s2' := by
    intro hend
    have hwin := leaf_window h.sized p
    rw [Nat.pow_zero, Nat.mul_one] at hwin
    apply hred2.end_free hwf1.sized hp hwin hin.1 hin.2 hgap1
    intro y hy hf
    change (s.items.set p (emptied x))[s.N - 1]? = some y at hy
    rw [List.getElem?_set] at hy
    split at hy
    · split at hy
      · cases hy
        simp at hf
      · cases hy
    · exact hend y hy hf
  have hgap2 : IsGap s2' (find_leaf s.N p + logN s.N - 1) :=
    hred2.back (gapped.count_lt_of_hole hin.1 hin.2 (isGap_iff.mp hgap1))
  have hcontents : s2'.items.filter full = (s.items.filter full).erase x := by
    rw [hred2.contents]
    exact hfilter1
  have hN2 : s2'.N = s.N := hred2.frame.N
  have hact : exec (.perform (.act fun s => remove_items s p e) : Op Bool) s = .ok (b, s3) :=
    exec_act hrun
  unfold remove
  rw [exec_bind_ok hact]
  rcases hend with ⟨rfl, hroot, rfl⟩ | ⟨rfl, hdense, len, ni, -, hwin, -, -, hrun3⟩
  · -- the array is halved
    obtain ⟨h8, hfew⟩ := hroot.few h.sized hp
    have hmem : x ∈ s.items.filter full := mem_filter_of_slot hx hfull
    have hlen : ((s3.items.filter full).length : ℚ) < s.N / 4 := by
      rw [hcontents, List.length_erase_of_mem hmem, Nat.cast_sub (List.length_pos_of_mem hmem)]
      exact_mod_cast hfew
    have hfit : (s3.items.filter full).length < s3.N / 2 := by
      rw [hN2, Nat.lt_div_iff_mul_lt (by decide)]
      have : ((s3.items.filter full).length * 4 : ℚ) < s.N := by linarith
      have : (s3.items.filter full).length * 4 < s.N := by exact_mod_cast this
      omega
    obtain ⟨s4, hrun4, hres, hgap⟩ := exec_half_list hk.wf (by omega) hfit
    obtain ⟨hspaced, hversions⟩ := half_list_spaces hk.wf (by omega) hfit.le hrun4
    rw [hred2.frame.versions] at hversions
    rw [hN2] at hres hgap
    refine ⟨s4, hrun4, hk.trans (hres.kept hgap), ?_, ?_,
      .inr ⟨hroot, h8, hres.N, ?_, hspaced, hversions⟩⟩
    · rw [hres.contents, hcontents]
    · intro _
      apply endFree_of_gap
      rw [hres.N]
      exact hgap
    · rw [hres.contents]
      exact hlen
  · obtain ⟨s3', hrun3', hk3, hred3⟩ :=
      redistribute_window hk.wf (by rw [hN2]; exact hp) (by rw [hN2]; exact hwin)
    obtain rfl : s3' = s3 := Except.ok.inj (hrun3'.symm.trans hrun3)
    refine ⟨s3', rfl, hk.trans hk3, ?_, ?_, .inl ⟨hdense, ?_⟩⟩
    · rw [hred3.contents, hcontents]
    · intro hend
      have hL := logN_pos s.N
      have hnest := find_node_nest p ((pow_logN s.N).dvd hwin.len_pow hwin.leaf_le) hL hwin.len_pow.pos
      rw [← hwin.at_, ← find_leaf_eq] at hnest
      exact hred3.end_free hk.wf.sized (by rw [hN2]; exact hp) (by rw [hN2]; exact hwin) (by omega)
        (by omega) hgap2 (hfree hend)
    · rw [hred3.frame.N, hN2]

theorem exec_remove_absent (hx : s.items[p]? = some x) (hstored : ¬ StoredAt s p e) :
    exec (remove p e) s = .ok ((), s) := by
  have hact : exec (.perform (.act fun s => remove_items s p e) : Op Bool) s = .ok (false, s) :=
    exec_act (remove_items_absent hx hstored)
  unfold remove
  rw [exec_bind_ok hact]
  rfl

end

end packed_csr
