-- What the steps of an update keep: the array stays well formed, with its vertices,
-- and its last two slots stay as a search needs them.
import PackedCsr.Resize
import PackedCsr.LockPlans

namespace packed_csr

/-! ## The end of the array -/

/-- The last slot holds no item behind a gap. -/
def EndFull (s : PCSR) : Prop := IsGap s (s.N - 2) → IsGap s (s.N - 1)

/-- No edge stands in the last slot. -/
def EndFree (s : PCSR) : Prop :=
  ∀ x, s.items[s.N - 1]? = some x → full x = true → is_sentinel x = true

theorem endFree_of_gap {s : PCSR} (h : IsGap s (s.N - 1)) : EndFree s := by
  obtain ⟨e, he, hnull⟩ := h
  intro x hx hf
  rw [he] at hx
  cases hx
  simp [full, hnull] at hf

/-- What each step keeps. -/
structure Kept (s s' : PCSR) : Prop where
  wf : WellFormed s'
  n : s'.get_n = s.get_n
  lock_bsearch : s'.lock_bsearch = s.lock_bsearch
  end_full : EndFull s → EndFull s'

section

variable {s s' s1 : PCSR} {i0 len ni N : Nat}

theorem Kept.refl (h : WellFormed s) : Kept s s := ⟨h, rfl, rfl, fun he => he⟩

theorem Kept.trans (h : Kept s s1) (h' : Kept s1 s') : Kept s s' :=
  ⟨h'.wf, h'.n.trans h.n, h'.lock_bsearch.trans h.lock_bsearch, fun he => h'.end_full (h.end_full he)⟩

/-! ## Windows -/

theorem two_le_logN (h : Pow N) (h2 : 2 ≤ N) : 2 ≤ logN N := by
  obtain ⟨k, rfl⟩ := h
  have hk : 1 ≤ k := by
    by_contra hc
    obtain rfl : k = 0 := by omega
    exact absurd h2 (by decide)
  unfold logN
  rw [log2_two_pow]
  calc 2 = 2 ^ 1 := rfl
    _ ≤ 2 ^ Nat.log2 (k * 2 + 1) := by
      apply Nat.pow_le_pow_right (by decide)
      exact (Nat.le_log2 (by omega)).mpr (by omega)

theorem Window.leaf_le (h : Window N i0 len ni) : logN N ≤ len := by
  obtain ⟨j, rfl⟩ := h.pow
  exact Nat.le_mul_of_pos_right _ (Nat.two_pow_pos j)

/-- A window ends with the array, or leaves room for another one. -/
theorem Window.end_or (h : Window N i0 len ni) (hpow : Pow N) (hi0 : i0 < N) :
    ni + len = N ∨ ni + len + len ≤ N := by
  have hin := h.in_array hpow hi0
  obtain ⟨c, hc⟩ := h.len_pow.dvd hpow h.le
  obtain ⟨d, hd⟩ : len ∣ ni + len := by
    rw [h.at_]
    exact Nat.dvd_add (dvd_find_node i0 len) (Nat.dvd_refl len)
  rw [hd, hc] at hin ⊢
  rcases Nat.eq_or_lt_of_le (Nat.le_of_mul_le_mul_left hin h.len_pow.pos) with rfl | hlt
  · exact .inl rfl
  · right
    rw [← Nat.mul_succ]
    exact Nat.mul_le_mul_left len hlt

/-- A redistribution leaves the last slot free, or it moves nothing there. -/
theorem Redistributed.end_full (h : Redistributed s s' ni len) (hs : Sized s) (hi0 : i0 < s.N)
    (hwin : Window s.N i0 len ni) (hend : ni + len < s.N → EndFull s) : EndFull s' := by
  intro hgap
  rw [h.frame.N] at hgap ⊢
  rcases Nat.lt_or_ge s.N 2 with hsmall | hN
  · rw [show s.N - 1 = s.N - 2 by omega]
    exact hgap
  have hlen := (two_le_logN hs.pow hN).trans hwin.leaf_le
  have hin := hwin.in_array hs.pow hi0
  rcases hwin.end_or hs.pow hi0 with heq | hle
  · by_cases hroom : filled s.items ni len < len
    · rw [← heq]
      exact h.back hroom
    · -- no slot of the window is free
      have hall : filled s'.items ni len = len := by
        rw [h.inside]
        exact Nat.le_antisymm (gapped.count_le s.items ni len) (by omega)
      have hlt := gapped.count_lt_of_hole (show ni ≤ s.N - 2 by omega)
        (show s.N - 2 < ni + len by omega) (isGap_iff.mp hgap)
      rw [filled_eq] at hall
      omega
  · have hsame : ∀ i, s.N - 2 ≤ i → (IsGap s' i ↔ IsGap s i) := by
      intro i hi
      unfold IsGap
      rw [h.outside i (by omega)]
    rw [hsame _ (by omega)] at hgap ⊢
    exact hend (by omega) hgap

/-- A window with a gap has none in its last slot. -/
theorem Redistributed.end_free {j : Nat} (h : Redistributed s s' ni len) (hs : Sized s)
    (hi0 : i0 < s.N) (hwin : Window s.N i0 len ni) (hj : ni ≤ j) (hj' : j < ni + len)
    (hgap : IsGap s j) (hend : EndFree s) : EndFree s' := by
  have hroom : filled s.items ni len < len := gapped.count_lt_of_hole hj hj' (isGap_iff.mp hgap)
  rcases hwin.end_or hs.pow hi0 with heq | hle
  · apply endFree_of_gap
    rw [h.frame.N, ← heq]
    exact h.back hroom
  · have hlen := hwin.len_pow.pos
    intro x hx hf
    rw [h.frame.N, h.outside _ (by omega)] at hx
    exact hend x hx hf

/-- A redistribution of a window on a level of the implicit tree. -/
theorem redistribute_loose_window (h : Loose s ni (ni + len)) (hi0 : i0 < s.N)
    (hwin : Window s.N i0 len ni) :
    ∃ s', redistribute s ni len = .ok s' ∧ Kept s s' ∧ Redistributed s s' ni len := by
  obtain ⟨s', hrun, hwf, hred⟩ :=
    redistribute_loose h hwin.len_pow.pos (hwin.in_array h.sized.pow hi0)
  exact ⟨s', hrun, ⟨hwf, hred.frame.get_n, hred.frame.lock_bsearch, fun he =>
    hred.end_full h.sized hi0 hwin fun _ => he⟩, hred⟩

theorem redistribute_window (h : WellFormed s) (hi0 : i0 < s.N) (hwin : Window s.N i0 len ni) :
    ∃ s', redistribute s ni len = .ok s' ∧ Kept s s' ∧ Redistributed s s' ni len :=
  redistribute_loose_window (h.loose ni (ni + len)) hi0 hwin

theorem leaf_window (hs : Sized s) (i0 : Nat) :
    Window s.N i0 (logN s.N * 2 ^ 0) (find_leaf s.N i0) := by
  rw [Nat.pow_zero, Nat.mul_one]
  exact ⟨⟨0, by simp⟩, logN_le hs.pow, rfl⟩

theorem redistribute_leaf (h : WellFormed s) (hi0 : i0 < s.N) :
    ∃ s', redistribute s (find_leaf s.N i0) (logN s.N) = .ok s' ∧ Kept s s' ∧
      Redistributed s s' (find_leaf s.N i0) (logN s.N) := by
  have hwin := leaf_window h.sized i0
  rw [Nat.pow_zero, Nat.mul_one] at hwin
  exact redistribute_window h hi0 hwin

/-- A change of the size that leaves the last slot free. -/
theorem Resized.kept (h : Resized s s' N) (hgap : IsGap s' (N - 1)) : Kept s s' := by
  refine ⟨h.wf, h.nodes, h.lock_bsearch, fun _ _ => ?_⟩
  rw [h.N]
  exact hgap

end

end packed_csr
