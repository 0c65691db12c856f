-- Lists with gaps: some entries are full and the others are holes. The count
-- of the full entries of a window, and the holes that a count gives.
import Mathlib

namespace gapped

variable {α : Type} (full : α → Bool)

/-! ## Windows -/

/-- The number of full entries of the window of length `len` at `i`. -/
def count (xs : List α) (i len : Nat) : Nat := ((xs.drop i).take len).countP full

/-- There is an entry at `i`, and it is a hole. -/
def Hole (xs : List α) (i : Nat) : Prop := ∃ x, xs[i]? = some x ∧ full x = false

variable {full}

theorem count_le (xs : List α) (i len : Nat) : count full xs i len ≤ len := by
  unfold count
  refine List.countP_le_length.trans ?_
  rw [List.length_take]
  exact min_le_left _ _

theorem count_zero (xs : List α) (i : Nat) : count full xs i 0 = 0 := by
  simp [count]

theorem count_add (xs : List α) (i a b : Nat) :
    count full xs i (a + b) = count full xs i a + count full xs (i + a) b := by
  unfold count
  rw [← List.drop_drop, List.take_add, List.countP_append]

theorem count_one {xs : List α} {i : Nat} {x : α} (h : xs[i]? = some x) :
    count full xs i 1 = if full x then 1 else 0 := by
  obtain ⟨hi, rfl⟩ := List.getElem?_eq_some_iff.mp h
  unfold count
  rw [List.drop_eq_getElem_cons hi, List.take_succ_cons, List.take_zero, List.countP_singleton]

theorem count_congr {xs ys : List α} {i len : Nat}
    (h : ∀ k, i ≤ k → k < i + len → xs[k]? = ys[k]?) : count full xs i len = count full ys i len := by
  unfold count
  congr 1
  apply List.ext_getElem?
  intro k
  rw [List.getElem?_take, List.getElem?_take]
  split
  · rw [List.getElem?_drop, List.getElem?_drop]
    exact h (i + k) (by omega) (by omega)
  · rfl

/-- A change inside a window that keeps its count keeps the count of each window around it. -/
theorem count_around {xs ys : List α} {a b i len : Nat}
    (hout : ∀ k, ¬ (a ≤ k ∧ k < a + b) → xs[k]? = ys[k]?)
    (hin : count full xs a b = count full ys a b) (h1 : i ≤ a) (h2 : a + b ≤ i + len) :
    count full xs i len = count full ys i len := by
  obtain ⟨c, rfl⟩ : ∃ c, a = i + c := ⟨a - i, by omega⟩
  obtain ⟨d, rfl⟩ : ∃ d, len = c + b + d := ⟨len - (c + b), by omega⟩
  rw [count_add, count_add, count_add, count_add, hin]
  congr 1
  · congr 1
    exact count_congr fun k _ hk => hout k (by omega)
  · exact count_congr fun k hk _ => hout k (by omega)

/-- A change of one entry. -/
theorem count_set (full : α → Bool) {xs : List α} {p i len : Nat} {x : α} (y : α) (hx : xs[p]? = some x) (h1 : i ≤ p)
    (h2 : p < i + len) :
    count full (xs.set p y) i len + (if full x then 1 else 0) =
      count full xs i len + if full y then 1 else 0 := by
  obtain ⟨hp, -⟩ := List.getElem?_eq_some_iff.mp hx
  have hy : (xs.set p y)[p]? = some y := List.getElem?_set_self hp
  have hout : ∀ k, k ≠ p → (xs.set p y)[k]? = xs[k]? := fun k hk => List.getElem?_set_ne (Ne.symm hk)
  obtain ⟨c, rfl⟩ : ∃ c, p = i + c := ⟨p - i, by omega⟩
  obtain ⟨d, rfl⟩ : ∃ d, len = c + 1 + d := ⟨len - (c + 1), by omega⟩
  rw [count_add, count_add, count_add, count_add, count_one hx, count_one hy,
    count_congr (i := i) fun k _ hk => hout k (by omega),
    count_congr (i := i + (c + 1)) fun k hk _ => hout k (by omega)]
  omega

theorem count_lt_of_hole {xs : List α} {i j len : Nat} (h1 : i ≤ j) (h2 : j < i + len)
    (h : Hole full xs j) : count full xs i len < len := by
  obtain ⟨x, hx, hf⟩ := h
  obtain ⟨c, rfl⟩ : ∃ c, j = i + c := ⟨j - i, by omega⟩
  obtain ⟨d, rfl⟩ : ∃ d, len = c + 1 + d := ⟨len - (c + 1), by omega⟩
  have hone : count full xs (i + c) 1 = 0 := by
    rw [count_one hx]
    simp [hf]
  rw [count_add, count_add, hone]
  have h3 : count full xs i c ≤ c := count_le xs i c
  have h4 : count full xs (i + (c + 1)) d ≤ d := count_le xs (i + (c + 1)) d
  omega

/-- A window with fewer full entries than entries has a hole. -/
theorem exists_hole {xs : List α} {i len : Nat} (hle : i + len ≤ xs.length)
    (h : count full xs i len < len) : ∃ j, i ≤ j ∧ j < i + len ∧ Hole full xs j := by
  induction len with
  | zero => exact absurd h (by simp)
  | succ len ih =>
    have hget : xs[i + len]? = some xs[i + len] := List.getElem?_eq_getElem (by omega)
    rw [count_add, count_one hget] at h
    cases hx : full xs[i + len] with
    | false => exact ⟨i + len, by omega, by omega, _, hget, hx⟩
    | true =>
      rw [hx] at h
      obtain ⟨j, h1, h2, h3⟩ := ih (by omega) (by simpa using h)
      exact ⟨j, h1, by omega, h3⟩

/-- With room for two more, it has two. -/
theorem exists_two_holes {xs : List α} {i len : Nat} (hle : i + len ≤ xs.length)
    (h : count full xs i len + 2 ≤ len) :
    ∃ j k, i ≤ j ∧ j < k ∧ k < i + len ∧ Hole full xs j ∧ Hole full xs k := by
  induction len with
  | zero => exact absurd h (by simp)
  | succ len ih =>
    have hget : xs[i + len]? = some xs[i + len] := List.getElem?_eq_getElem (by omega)
    rw [count_add, count_one hget] at h
    cases hx : full xs[i + len] with
    | false =>
      rw [hx] at h
      have hlt : count full xs i len < len := by
        simp only [Bool.false_eq_true, if_false, add_zero] at h
        omega
      obtain ⟨j, h1, h2, h3⟩ := exists_hole (by omega) hlt
      exact ⟨j, i + len, h1, by omega, by omega, h3, _, hget, hx⟩
    | true =>
      rw [hx] at h
      obtain ⟨j, k, h1, h2, h3, h4⟩ := ih (by omega) (by simp at h; omega)
      exact ⟨j, k, h1, h2, by omega, h4⟩

/-- A window holds what a smaller one inside it holds. -/
theorem count_mono (full : α → Bool) (xs : List α) {a b i len : Nat} (h1 : i ≤ a) (h2 : a + b ≤ i + len) :
    count full xs a b ≤ count full xs i len := by
  obtain ⟨c, rfl⟩ : ∃ c, a = i + c := ⟨a - i, by omega⟩
  obtain ⟨d, rfl⟩ : ∃ d, len = c + b + d := ⟨len - (c + b), by omega⟩
  rw [count_add, count_add]
  omega

/-- Full entries in rising slots of a window. -/
theorem le_count {xs : List α} {f : Nat → Nat} (hmono : StrictMono f) {i len t : Nat}
    (hin : ∀ k < t, i ≤ f k ∧ f k < i + len) (hfull : ∀ k < t, ∃ x, xs[f k]? = some x ∧ full x = true) :
    t ≤ count full xs i len := by
  induction t generalizing len with
  | zero => exact Nat.zero_le _
  | succ t ih =>
    obtain ⟨hge, hlt⟩ := hin t (Nat.lt_succ_self t)
    obtain ⟨x, hx, hf⟩ := hfull t (Nat.lt_succ_self t)
    have hfront : t ≤ count full xs i (f t - i) := ih (fun k hk => by
      have := hmono hk
      have := (hin k (by omega)).1
      omega) fun k hk => hfull k (by omega)
    have hone : count full xs (f t) 1 = 1 := by
      rw [count_one hx, if_pos hf]
    have hsplit : count full xs i (f t - i + 1) = count full xs i (f t - i) + 1 := by
      rw [count_add, Nat.add_sub_cancel' hge, hone]
    have hall := count_mono full xs (le_refl i) (show i + (f t - i + 1) ≤ i + len by omega)
    omega

/-- A list with a hole has one, and a full run in front of it. -/
theorem first_hole {xs : List α} {q : Nat} (h : Hole full xs q) :
    ∃ Y h B, xs = Y ++ h :: B ∧ (∀ y ∈ Y, full y = true) ∧ full h = false ∧ Y.length ≤ q := by
  induction xs generalizing q with
  | nil =>
    obtain ⟨x, hx, -⟩ := h
    cases hx
  | cons x xs ih =>
    cases hx : full x with
    | false => exact ⟨[], x, xs, rfl, fun y hy => (by cases hy), hx, Nat.zero_le q⟩
    | true =>
      obtain ⟨y, hy, hf⟩ := h
      cases q with
      | zero =>
        cases hy
        rw [hf] at hx
        cases hx
      | succ q =>
        obtain ⟨Y, z, B, rfl, hY, hz, hle⟩ := ih ⟨y, hy, hf⟩
        refine ⟨x :: Y, z, B, rfl, ?_, hz, Nat.succ_le_succ hle⟩
        intro w hw
        rcases List.mem_cons.mp hw with rfl | hw
        · exact hx
        · exact hY w hw

/-- The same from the other end. -/
theorem last_hole {xs : List α} {q : Nat} (h : Hole full xs q) :
    ∃ A h Y, xs = A ++ h :: Y ∧ (∀ y ∈ Y, full y = true) ∧ full h = false ∧ q ≤ A.length := by
  induction xs using List.reverseRecOn generalizing q with
  | nil =>
    obtain ⟨x, hx, -⟩ := h
    cases hx
  | append_singleton xs x ih =>
    obtain ⟨y, hy, hf⟩ := h
    have hq : q < (xs ++ [x]).length := (List.getElem?_eq_some_iff.mp hy).1
    rw [List.length_append, List.length_singleton] at hq
    cases hx : full x with
    | false => exact ⟨xs, x, [], rfl, fun y hy => (by cases hy), hx, by omega⟩
    | true =>
      have hlt : q < xs.length := by
        by_contra hc
        obtain rfl : q = xs.length := by omega
        rw [List.getElem?_concat_length] at hy
        cases hy
        rw [hf] at hx
        cases hx
      rw [List.getElem?_append_left hlt] at hy
      obtain ⟨A, z, Y, rfl, hY, hz, hle⟩ := ih ⟨y, hy, hf⟩
      refine ⟨A, z, Y ++ [x], by simp, ?_, hz, hle⟩
      intro w hw
      rcases List.mem_append.mp hw with hw | hw
      · exact hY w hw
      · rw [List.mem_singleton.mp hw]
        exact hx

/-! ## A new entry for a hole -/

/-- The hole at `q` is taken out, and `e` comes in at `i`. -/
def Exchange (full : α → Bool) (xs ys : List α) (q i : Nat) (e : α) : Prop :=
  ∃ A B C D h, xs = A ++ h :: B ∧ full h = false ∧ ys = C ++ e :: D ∧ A ++ B = C ++ D ∧
    A.length = q ∧ C.length = i

theorem Exchange.outside {xs ys : List α} {q i : Nat} {e : α} (h : Exchange full xs ys q i e)
    {k : Nat} (hk : (k < q ∧ k < i) ∨ (q < k ∧ i < k)) : ys[k]? = xs[k]? := by
  obtain ⟨A, B, C, D, h, rfl, -, rfl, heq, rfl, rfl⟩ := h
  rcases hk with ⟨h1, h2⟩ | ⟨h1, h2⟩
  · have hC : (C ++ D)[k]? = C[k]? := List.getElem?_append_left h2
    have hA : (A ++ B)[k]? = A[k]? := List.getElem?_append_left h1
    rw [List.getElem?_append_left h1, List.getElem?_append_left h2, ← hC, ← hA, heq]
  · obtain ⟨k, rfl⟩ : ∃ m, k = m + 1 := ⟨k - 1, by omega⟩
    have hC : (C ++ D)[k]? = D[k - C.length]? := List.getElem?_append_right (by omega)
    have hA : (A ++ B)[k]? = B[k - A.length]? := List.getElem?_append_right (by omega)
    rw [List.getElem?_append_right (by omega), List.getElem?_append_right (by omega),
      show k + 1 - C.length = (k - C.length) + 1 by omega,
      show k + 1 - A.length = (k - A.length) + 1 by omega, List.getElem?_cons_succ,
      List.getElem?_cons_succ, ← hC, ← hA, heq]

theorem Exchange.at_new {xs ys : List α} {q i : Nat} {e : α} (h : Exchange full xs ys q i e) :
    ys[i]? = some e := by
  obtain ⟨A, B, C, D, h, -, -, rfl, -, -, rfl⟩ := h
  simp

/-- The entries from the new one to the hole behind it move to the right. -/
theorem Exchange.right {xs ys : List α} {q i k : Nat} {e : α} (h : Exchange full xs ys q i e)
    (h1 : i ≤ k) (h2 : k < q) : ys[k + 1]? = xs[k]? := by
  obtain ⟨A, B, C, D, h, rfl, -, rfl, heq, rfl, rfl⟩ := h
  rw [List.getElem?_append_right (by omega), show k + 1 - C.length = k - C.length + 1 by omega,
    List.getElem?_cons_succ, ← List.getElem?_append_right h1, ← heq, List.getElem?_append_left h2,
    List.getElem?_append_left h2]

/-- The first `k` entries with and without an entry between `A` and `B`. -/
theorem count_between (full : α → Bool) (A B : List α) (x : α) (k : Nat) :
    count full (A ++ x :: B) 0 k ≤ count full (A ++ B) 0 (k - 1) + 1 ∧
      count full (A ++ B) 0 (k - 1) ≤ count full (A ++ x :: B) 0 k ∧
      (full x = false → count full (A ++ x :: B) 0 k ≤ count full (A ++ B) 0 k) ∧
      (full x = true → count full (A ++ B) 0 k ≤ count full (A ++ x :: B) 0 k) := by
  have hstep : ∀ (xs : List α) (m : Nat), count full xs 0 (m + 1) ≤ count full xs 0 m + 1 ∧
      count full xs 0 m ≤ count full xs 0 (m + 1) := by
    intro xs m
    have hle : count full xs (0 + m) 1 ≤ 1 := count_le xs (0 + m) 1
    rw [count_add]
    omega
  rcases Nat.lt_or_ge A.length k with hlt | hge
  · obtain ⟨m, rfl⟩ : ∃ m, k = A.length + m + 1 := ⟨k - A.length - 1, by omega⟩
    have hsplit : ∀ n, count full (A ++ B) 0 (A.length + n) = A.countP full + count full B 0 n := by
      intro n
      simp [count, List.take_append, List.take_of_length_le]
    have hwith : count full (A ++ x :: B) 0 (A.length + m + 1) =
        A.countP full + ((if full x then 1 else 0) + count full B 0 m) := by
      rw [Nat.add_assoc]
      simp [count, List.take_append, List.take_of_length_le, List.countP_cons]
      omega
    have hB := hstep B m
    have hsucc := hsplit (m + 1)
    rw [← Nat.add_assoc] at hsucc
    rw [Nat.add_sub_cancel, hwith, hsplit m, hsucc]
    cases full x <;> simp <;> omega
  · have hsame : ∀ Z : List α, ∀ n ≤ A.length, count full (A ++ Z) 0 n = count full A 0 n := by
      intro Z n hn
      apply count_congr
      intro i _ hi
      rw [List.getElem?_append_left (by omega)]
    rw [hsame _ k hge, hsame _ k hge, hsame _ (k - 1) (by omega)]
    cases k with
    | zero => simp
    | succ m =>
      have hA := hstep A m
      simp
      omega

/-- An exchange adds one full entry to a window at most. -/
theorem Exchange.count_le {xs ys : List α} {q i : Nat} {e : α} (h : Exchange full xs ys q i e)
    (he : full e = true) (a len : Nat) : count full ys a len ≤ count full xs a len + 1 := by
  obtain ⟨A, B, C, D, h, rfl, hh, rfl, heq, rfl, rfl⟩ := h
  have hx := fun k => count_between full A B h k
  have hy := fun k => count_between full C D e k
  rw [heq] at hx
  have hsum : ∀ xs : List α, count full xs 0 (a + len) = count full xs 0 a + count full xs a len := by
    intro xs
    rw [count_add, Nat.zero_add]
  have hxs := hsum (A ++ h :: B)
  have hys := hsum (C ++ e :: D)
  have h1 := (hx (a + len)).2.1
  have h2 := (hx a).2.2.1 hh
  have h3 := (hy (a + len)).1
  have h4 := (hy a).2.2.2 he
  omega

/-- The first `k` entries with an entry between `A` and `B`, from those without it. -/
theorem count_with (full : α → Bool) (A B : List α) (x : α) (k : Nat) :
    count full (A ++ x :: B) 0 k = if k ≤ A.length then count full (A ++ B) 0 k
      else count full (A ++ B) 0 (k - 1) + if full x then 1 else 0 := by
  split
  · rename_i hk
    apply count_congr
    intro i _ hi
    rw [List.getElem?_append_left (by omega), List.getElem?_append_left (by omega)]
  · rename_i hk
    obtain ⟨m, rfl⟩ : ∃ m, k = A.length + m + 1 := ⟨k - A.length - 1, by omega⟩
    rw [Nat.add_sub_cancel, Nat.add_assoc]
    simp [count, List.take_append, List.take_of_length_le, List.countP_cons]
    omega

/-- An exchange along full entries takes nothing from a window, but one entry from a full one. -/
theorem Exchange.le_count {xs ys : List α} {q i a len : Nat} {e : α} (h : Exchange full xs ys q i e)
    (he : full e = true) (hright : ∀ k, i ≤ k → k < q → ¬ Hole full xs k)
    (hleft : ∀ k, q < k → k < i → ¬ Hole full xs k) (hin : a + len ≤ xs.length) :
    count full xs a len ≤ count full ys a len ∨ (count full xs a len = len ∧ len ≤ count full ys a len + 1) := by
  have hsum : ∀ zs : List α, count full zs 0 (a + len) = count full zs 0 a + count full zs a len := by
    intro zs
    rw [count_add, Nat.zero_add]
  -- the first entries: the exchange adds one to them, from the hole on
  have hprefix : ∀ k ≤ xs.length, (count full xs 0 k ≤ count full ys 0 k ∧
      count full ys 0 k ≤ count full xs 0 k + 1) ∧ (k ≤ q → count full ys 0 k = count full xs 0 k) ∧
      (q < k → k ≠ i → count full ys 0 k = count full xs 0 k + 1) := by
    obtain ⟨A, B, C, D, h, rfl, hh, rfl, heq, rfl, rfl⟩ := h
    have hnext : ∀ m, count full (A ++ B) 0 (m + 1) = count full (A ++ B) 0 m + count full (A ++ B) m 1 := by
      intro m
      rw [count_add, Nat.zero_add]
    have hle : ∀ m, count full (A ++ B) m 1 ≤ 1 := fun m => gapped.count_le _ m 1
    have hone : ∀ m j, m < (A ++ B).length → (A ++ h :: B)[j]? = (A ++ B)[m]? →
        ¬ Hole full (A ++ h :: B) j → count full (A ++ B) m 1 = 1 := by
      intro m j hm hj hno
      rw [count_one (List.getElem?_eq_getElem hm), if_pos]
      by_contra hf
      exact hno ⟨_, hj.trans (List.getElem?_eq_getElem hm), by simpa using hf⟩
    intro k hk
    have hA : A.length ≤ (A ++ B).length := by simp
    have hC : C.length ≤ (A ++ B).length := by simp [heq]
    rw [count_with, count_with, ← heq, hh, he]
    rcases Nat.eq_zero_or_pos k with rfl | hpos
    · simp
    obtain ⟨m, rfl⟩ : ∃ m, k = m + 1 := ⟨k - 1, by omega⟩
    have hm := hnext m
    have hm1 := hle m
    have hq : m + 1 ≤ A.length → C.length ≤ m → count full (A ++ B) m 1 = 1 := by
      intro h1 h2
      refine hone m m (by omega) ?_ (hright m h2 (by omega))
      rw [List.getElem?_append_left (by omega), List.getElem?_append_left (by omega)]
    have hi : A.length ≤ m → m + 1 < C.length → count full (A ++ B) m 1 = 1 := by
      intro h1 h2
      refine hone m (m + 1) (by omega) ?_ (hleft (m + 1) (by omega) h2)
      rw [List.getElem?_append_right (by omega), List.getElem?_append_right h1,
        show m + 1 - A.length = m - A.length + 1 by omega, List.getElem?_cons_succ]
    rw [Nat.add_sub_cancel]
    simp only [Bool.false_eq_true, if_false, if_true, Nat.add_zero]
    split <;> split <;> omega
  have ha := hprefix a (by omega)
  have hb := hprefix (a + len) hin
  have hxs := hsum xs
  have hys := hsum ys
  rcases Nat.eq_zero_or_pos len with rfl | hpos
  · exact .inl (by rw [count_zero]; exact Nat.zero_le _)
  by_cases hdrop : q < a ∧ a + len = i
  · right
    have hall : count full xs a len = len := by
      apply Nat.le_antisymm (gapped.count_le xs a len)
      by_contra hlt
      obtain ⟨j, h1, h2, hj⟩ := exists_hole hin (Nat.lt_of_not_le hlt)
      exact hleft j (by omega) (by omega) hj
    refine ⟨hall, ?_⟩
    omega
  · left
    rcases Nat.lt_or_ge q a with hq | hq
    · have := hb.2.2 (by omega) (by omega)
      omega
    · have := ha.2.1 hq
      omega

end gapped
