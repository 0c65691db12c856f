-- The sizes of the array are powers of two. From that: a leaf divides each
-- window, a window divides the array, and the windows nest.
import PackedCsr.Graph

namespace packed_csr

def Pow (N : Nat) : Prop := ∃ k, N = 2 ^ k

theorem Pow.pos {N : Nat} (h : Pow N) : 0 < N := by
  obtain ⟨k, rfl⟩ := h
  exact Nat.two_pow_pos k

theorem Pow.mul {N M : Nat} (h : Pow N) (h' : Pow M) : Pow (N * M) := by
  obtain ⟨k, rfl⟩ := h
  obtain ⟨l, rfl⟩ := h'
  exact ⟨k + l, (Nat.pow_add 2 k l).symm⟩

theorem pow_two : Pow 2 := ⟨1, rfl⟩

theorem Pow.double {N : Nat} (h : Pow N) : Pow (N * 2) := h.mul pow_two

theorem Pow.dvd {N M : Nat} (h : Pow N) (h' : Pow M) (hle : N ≤ M) : N ∣ M := by
  obtain ⟨k, rfl⟩ := h
  obtain ⟨l, rfl⟩ := h'
  exact Nat.pow_dvd_pow 2 ((Nat.pow_le_pow_iff_right (by decide)).mp hle)

/-- Between a power of two and its double there is no other. -/
theorem Pow.eq_of_le {N M : Nat} (h : Pow N) (h' : Pow M) (hle : N ≤ M) (hlt : M < N * 2) :
    N = M := by
  obtain ⟨c, rfl⟩ := h.dvd h' hle
  have hc : c < 2 := by
    by_contra hc
    exact absurd (Nat.mul_le_mul_left N (Nat.le_of_not_lt hc)) (by omega)
  have hc0 : c ≠ 0 := by
    rintro rfl
    exact absurd h'.pos (by simp)
  rw [show c = 1 by omega, Nat.mul_one]

theorem Pow.half {N : Nat} (h : Pow N) (h2 : 2 ≤ N) : Pow (N / 2) ∧ N / 2 * 2 = N := by
  obtain ⟨k, rfl⟩ := h
  rcases k with _ | k
  · exact absurd h2 (by decide)
  · rw [Nat.pow_succ, Nat.mul_div_cancel _ (by decide)]
    exact ⟨⟨k, rfl⟩, rfl⟩

/-! ## Leaves -/

theorem pow_logN (N : Nat) : Pow (logN N) := ⟨_, rfl⟩

theorem logN_pos (N : Nat) : 0 < logN N := (pow_logN N).pos

theorem log2_two_pow (k : Nat) : Nat.log2 (2 ^ k) = k := Nat.log2_two_pow

theorem two_mul_lt_two_pow (k : Nat) : k * 2 + 1 < 2 ^ (k + 1) := by
  induction k with
  | zero => decide
  | succ k ih =>
    rw [Nat.pow_succ]
    omega

theorem logN_le {N : Nat} (h : Pow N) : logN N ≤ N := by
  obtain ⟨k, rfl⟩ := h
  unfold logN
  rw [log2_two_pow]
  refine Nat.pow_le_pow_right (by decide) ?_
  exact Nat.le_of_lt_succ ((Nat.log2_lt (by omega)).mpr (two_mul_lt_two_pow k))

theorem logN_dvd {N : Nat} (h : Pow N) : logN N ∣ N := (pow_logN N).dvd h (logN_le h)

@[simp] theorem get_node_id_find_leaf (N i : Nat) :
    get_node_id N (find_leaf N i) = i / logN N := by
  unfold get_node_id find_leaf
  exact Nat.mul_div_cancel _ (logN_pos N)

theorem height_eq {N : Nat} (h : Pow N) : N = logN N * 2 ^ height N := by
  obtain ⟨c, hc⟩ := logN_dvd h
  have hcp : Pow c := by
    obtain ⟨k, hk⟩ := h
    obtain ⟨l, hl⟩ := pow_logN N
    have hle : l ≤ k := by
      refine (Nat.pow_le_pow_iff_right (by decide : 1 < 2)).mp ?_
      rw [← hk, ← hl]
      exact logN_le ⟨k, hk⟩
    refine ⟨k - l, Nat.eq_of_mul_eq_mul_left (logN_pos N) ?_⟩
    rw [← hc, hl, ← Nat.pow_add, hk]
    congr 1
    omega
  obtain ⟨m, rfl⟩ := hcp
  have hh : height N = m := by
    unfold height
    rw [Nat.div_eq_of_eq_mul_right (logN_pos N) hc, log2_two_pow]
  rw [hh]
  exact hc

theorem two_mul_lt_pow (k : Nat) : (k + 3) * 2 + 1 < 2 ^ (k + 3) := by
  induction k with
  | zero => decide
  | succ k ih =>
    rw [Nat.pow_succ]
    omega

/-- From 8 slots on, the array has at least two leaves. -/
theorem two_leaves {N : Nat} (h : Pow N) (h8 : 8 ≤ N) : logN N * 2 ≤ N := by
  obtain ⟨k, rfl⟩ := h
  have hk : 3 ≤ k := (Nat.pow_le_pow_iff_right (by decide : 1 < 2)).mp h8
  obtain ⟨m, rfl⟩ : ∃ m, k = m + 3 := ⟨k - 3, by omega⟩
  have hlt : logN (2 ^ (m + 3)) < 2 ^ (m + 3) := by
    unfold logN
    rw [log2_two_pow]
    exact (Nat.log2_self_le (by omega)).trans_lt (two_mul_lt_pow m)
  by_contra hc
  exact hlt.ne ((pow_logN _).eq_of_le ⟨_, rfl⟩ hlt.le (by omega))

theorem height_ne_zero {N : Nat} (h : Pow N) : height N ≠ 0 ↔ 8 ≤ N := by
  constructor
  · intro hh
    obtain ⟨k, rfl⟩ := h
    by_contra hc
    have hk : k < 3 := (Nat.pow_lt_pow_iff_right (by decide : 1 < 2)).mp (Nat.lt_of_not_le hc)
    interval_cases k <;> exact hh (by decide +kernel)
  · intro h8 hh
    have hN := height_eq h
    have h2 := two_leaves h h8
    rw [hh, Nat.pow_zero, Nat.mul_one] at hN
    have := logN_pos N
    omega

/-- Leaves grow at most as fast as the array. -/
theorem logN_double_le {N : Nat} (h : Pow N) : logN (N * 2) ≤ logN N * 2 := by
  obtain ⟨k, rfl⟩ := h
  have hk : 2 ^ k * 2 = 2 ^ (k + 1) := rfl
  unfold logN
  rw [hk, log2_two_pow, log2_two_pow, ← Nat.pow_succ]
  apply Nat.pow_le_pow_right (by decide)
  apply Nat.le_of_lt_succ
  apply (Nat.log2_lt (by omega)).mpr
  have hlt : k * 2 + 1 < 2 ^ (Nat.log2 (k * 2 + 1) + 1) := (Nat.log2_lt (by omega)).mp (by omega)
  have hpos : 1 ≤ 2 ^ Nat.log2 (k * 2 + 1) := Nat.two_pow_pos _
  simp only [Nat.pow_succ] at hlt ⊢
  omega

theorem leaves_le_double {N : Nat} (h : Pow N) : N / logN N ≤ N * 2 / logN (N * 2) := by
  calc N / logN N = N * 2 / (logN N * 2) := (Nat.mul_div_mul_right N (logN N) (by decide)).symm
    _ ≤ N * 2 / logN (N * 2) := Nat.div_le_div_left (logN_double_le h) (logN_pos _)

/-! ## Windows -/

theorem find_node_le (i len : Nat) : find_node i len ≤ i := Nat.div_mul_le_self i len

theorem lt_find_node_add (i : Nat) {len : Nat} (h : 0 < len) : i < find_node i len + len := by
  unfold find_node
  have := Nat.div_add_mod' i len
  have := Nat.mod_lt i h
  omega

theorem dvd_find_node (i len : Nat) : len ∣ find_node i len := Nat.dvd_mul_left _ _

theorem find_node_of_dvd {i len : Nat} (h : len ∣ i) : find_node i len = i :=
  Nat.div_mul_cancel h

theorem find_leaf_eq (N i : Nat) : find_leaf N i = find_node i (logN N) := rfl

/-- A window of a power of two lies in the array. -/
theorem find_node_add_le {N len i : Nat} (hlen : Pow len) (hN : Pow N) (hle : len ≤ N) (hi : i < N) :
    find_node i len + len ≤ N := by
  obtain ⟨c, rfl⟩ := hlen.dvd hN hle
  unfold find_node
  have h : i / len < c := Nat.div_lt_of_lt_mul hi
  calc i / len * len + len = (i / len + 1) * len := (Nat.succ_mul _ _).symm
    _ ≤ c * len := Nat.mul_le_mul_right _ h
    _ = len * c := Nat.mul_comm _ _

/-- The window of a window is the window of its slots. -/
theorem find_node_find_node {i a b : Nat} (hab : a ∣ b) (ha : 0 < a) :
    find_node (find_node i a) b = find_node i b := by
  obtain ⟨c, rfl⟩ := hab
  unfold find_node
  rw [Nat.mul_comm a c, Nat.mul_comm c a, ← Nat.div_div_eq_div_mul, Nat.mul_div_cancel _ ha,
    ← Nat.div_div_eq_div_mul]

/-- The smaller of two windows over a slot lies in the larger one. -/
theorem find_node_nest (i : Nat) {a b : Nat} (hab : a ∣ b) (ha : 0 < a) (hb : 0 < b) :
    find_node i b ≤ find_node i a ∧ find_node i a + a ≤ find_node i b + b := by
  have hdvd : a ∣ find_node i b := hab.trans (dvd_find_node i b)
  obtain ⟨c, hc⟩ := hdvd
  obtain ⟨d, hd⟩ := hab
  have hle : find_node i b ≤ i := find_node_le i b
  have hlt : i < find_node i b + b := lt_find_node_add i hb
  rw [hc] at hle hlt ⊢
  rw [hd, ← Nat.mul_add] at hlt ⊢
  have h1 : c ≤ i / a := (Nat.le_div_iff_mul_le ha).mpr (by rw [Nat.mul_comm]; exact hle)
  have h2 : i / a < c + d := Nat.div_lt_of_lt_mul hlt
  unfold find_node
  constructor
  · rw [Nat.mul_comm a c]
    exact Nat.mul_le_mul_right a h1
  · calc i / a * a + a = (i / a + 1) * a := (Nat.succ_mul _ _).symm
      _ ≤ (c + d) * a := Nat.mul_le_mul_right a h2
      _ = a * (c + d) := Nat.mul_comm _ _

/-- Slot `i` is in the left or in the right half of its window. -/
theorem find_node_two (i a : Nat) :
    find_node i (a * 2) = find_node i a ∨ find_node i (a * 2) + a = find_node i a := by
  unfold find_node
  rw [← Nat.div_div_eq_div_mul]
  have h := Nat.div_add_mod' (i / a) 2
  have hm : i / a % 2 = 0 ∨ i / a % 2 = 1 := by omega
  have hmul : i / a / 2 * (a * 2) = i / a / 2 * 2 * a := by ring
  rw [hmul]
  rcases hm with hm | hm
  · left
    congr 1
    omega
  · right
    rw [← Nat.succ_mul]
    congr 1
    omega

/-- The sizes of the tables fit the size of the array. -/
structure Sized (s : PCSR) : Prop where
  pow : Pow s.N
  items : s.items.length = s.N
  versions : s.versions.length = s.N / logN s.N

end packed_csr
