-- Queues and the orders in which they can be emptied, one front at a time. The
-- law: of all that a question asks about, what comes last in every order is the
-- same exactly where it is the same in each queue.
import Mathlib

namespace queues

variable {α β : Type}

/-! ## The last answer -/

/-- The answer of the last element that has one. -/
def last_answer (f : α → Option β) (l : List α) : Option β := (l.filterMap f).getLast?

variable {f : α → Option β}

theorem last_answer_append (l l' : List α) :
    last_answer f (l ++ l') = (last_answer f l').or (last_answer f l) := by
  unfold last_answer
  rw [List.filterMap_append, List.getLast?_append]

theorem last_answer_cons (a : α) (l : List α) :
    last_answer f (a :: l) = (last_answer f l).or (f a) := by
  rw [← List.singleton_append, last_answer_append]
  congr 1
  unfold last_answer
  cases h : f a <;> simp [h]

theorem last_answer_eq_none {l : List α} : last_answer f l = none ↔ ∀ a ∈ l, f a = none := by
  unfold last_answer
  simp

theorem last_answer_mem {l : List α} {b : β} (h : last_answer f l = some b) : ∃ a ∈ l, f a = some b :=
  List.mem_filterMap.mp (List.mem_of_getLast? h)

/-! ## Orders -/

/-- The queues can be emptied in this order. -/
inductive Empties : List (List α) → List α → Prop
  | done {qs : List (List α)} (h : ∀ q ∈ qs, q = []) : Empties qs []
  | take {qs : List (List α)} {i : Nat} {a : α} {rest order : List α}
      (hi : qs[i]? = some (a :: rest)) (h : Empties (qs.set i rest) order) :
      Empties qs (a :: order)

theorem set_flatten {qs : List (List α)} {i : Nat} {q q' : List α} {a : α} (hi : qs[i]? = some q)
    (hp : q'.Perm (a :: q)) : (qs.set i q').flatten.Perm (a :: qs.flatten) := by
  induction qs generalizing i with
  | nil => cases hi
  | cons p qs ih =>
    cases i with
    | zero =>
      obtain rfl : p = q := by simpa using hi
      rw [List.set_cons_zero, List.flatten_cons, List.flatten_cons]
      exact hp.append_right _
    | succ i =>
      rw [List.set_cons_succ, List.flatten_cons, List.flatten_cons]
      exact ((ih (by simpa using hi)).append_left p).trans List.perm_middle

theorem flatten_eq_nil {qs : List (List α)} (h : ∀ q ∈ qs, q = []) : qs.flatten = [] :=
  List.flatten_eq_nil_iff.mpr h

namespace Empties

/-- Each element is taken exactly once. -/
theorem perm {qs : List (List α)} {order : List α} (h : Empties qs order) :
    order.Perm qs.flatten := by
  induction h with
  | done h => rw [flatten_eq_nil h]
  | @take qs i a rest order hi h ih =>
    have hback : (qs.set i rest).set i (a :: rest) = qs := by
      rw [List.set_set]
      obtain ⟨hlt, hget⟩ := List.getElem?_eq_some_iff.mp hi
      rw [← hget, List.set_getElem_self]
    have hnow : (qs.set i rest)[i]? = some rest :=
      List.getElem?_set_self (List.getElem?_eq_some_iff.mp hi).1
    have hput := set_flatten hnow (List.Perm.refl (a :: rest))
    rw [hback] at hput
    exact (List.Perm.cons a ih).trans hput.symm

/-- The last answer of an order is the last answer of one of the queues. -/
theorem answer_of_queue {qs : List (List α)} {order : List α} (h : Empties qs order) {b : β}
    (hb : last_answer f order = some b) : ∃ q ∈ qs, last_answer f q = some b := by
  induction h with
  | done h => cases hb
  | @take qs i a rest order hi h ih =>
    have hmem : a :: rest ∈ qs := List.mem_of_getElem? hi
    rw [last_answer_cons] at hb
    rcases hlast : last_answer f order with _ | c
    · -- nothing is left to answer, so the answer is that of the front
      rw [hlast, Option.none_or] at hb
      refine ⟨a :: rest, hmem, ?_⟩
      have hrest : last_answer f rest = none := by
        rw [last_answer_eq_none] at hlast ⊢
        intro x hx
        apply hlast x
        apply h.perm.mem_iff.mpr
        exact List.mem_flatten.mpr
          ⟨rest, List.mem_set (List.getElem?_eq_some_iff.mp hi).1 rest, hx⟩
      rw [last_answer_cons, hrest, Option.none_or, hb]
    · rw [hlast, Option.some_or] at hb
      obtain ⟨q, hq, hqb⟩ := ih (hlast.trans hb)
      rcases List.mem_or_eq_of_mem_set hq with hq | rfl
      · exact ⟨q, hq, hqb⟩
      · refine ⟨a :: q, hmem, ?_⟩
        rw [last_answer_cons, hqb, Option.some_or]

/-- One queue after the order of the others. -/
theorem append {qs : List (List α)} {k : Nat} {order q : List α} (hk : qs[k]? = some q)
    (h : Empties (qs.set k []) order) : Empties qs (order ++ q) := by
  generalize hrest : qs.set k [] = ps at h
  induction h generalizing qs with
  | done h =>
    subst hrest
    rw [List.nil_append]
    induction q generalizing qs with
    | nil =>
      apply Empties.done
      intro p hp
      apply h
      obtain ⟨hlt, hget⟩ := List.getElem?_eq_some_iff.mp hk
      rw [← hget, List.set_getElem_self]
      exact hp
    | cons a q ih =>
      apply Empties.take hk
      apply ih
      · exact List.getElem?_set_self (List.getElem?_eq_some_iff.mp hk).1
      · rw [List.set_set]
        exact h
  | @take ps i a rest order hi h ih =>
    subst hrest
    have hlt := (List.getElem?_eq_some_iff.mp hk).1
    have hki : k ≠ i := by
      rintro rfl
      rw [List.getElem?_set_self hlt] at hi
      cases hi
    rw [List.getElem?_set_ne hki] at hi
    apply Empties.take hi
    apply ih
    · rw [List.getElem?_set_ne (Ne.symm hki)]
      exact hk
    · exact List.set_comm _ _ (Ne.symm hki)

/-- There is an order, and one that empties a queue at the end. -/
theorem exists_order (qs : List (List α)) : ∃ order, Empties qs order := by
  generalize hn : qs.flatten.length = n
  induction n generalizing qs with
  | zero =>
    refine ⟨[], .done ?_⟩
    exact List.flatten_eq_nil_iff.mp (List.eq_nil_of_length_eq_zero hn)
  | succ n ih =>
    have hne : ∃ q ∈ qs, q ≠ [] := by
      by_contra hc
      push Not at hc
      rw [flatten_eq_nil hc] at hn
      cases hn
    obtain ⟨q, hq, hq0⟩ := hne
    obtain ⟨i, hi⟩ := List.mem_iff_getElem?.mp hq
    obtain ⟨a, rest, rfl⟩ := List.exists_cons_of_ne_nil hq0
    have hlen := (set_flatten (List.getElem?_set_self (List.getElem?_eq_some_iff.mp hi).1)
      (List.Perm.refl (a :: rest))).length_eq
    rw [List.set_set, ← (List.getElem?_eq_some_iff.mp hi).2, List.set_getElem_self,
      List.length_cons] at hlen
    obtain ⟨order, h⟩ := ih (qs.set i rest) (by omega)
    exact ⟨a :: order, .take hi h⟩

end Empties

/-- Whether the last answer is that of a list of the same elements, in every order. -/
theorem every_order_answers {qs : List (List α)} {l : List α} (hl : l.Perm qs.flatten) :
    (∀ order, Empties qs order → last_answer f order = last_answer f l) ↔
      ∀ q ∈ qs, last_answer f q = none ∨ last_answer f q = last_answer f l := by
  constructor
  · intro h q hq
    obtain ⟨k, hk⟩ := List.mem_iff_getElem?.mp hq
    obtain ⟨order, horder⟩ := Empties.exists_order (qs.set k [])
    rw [← h _ (horder.append hk), last_answer_append]
    cases last_answer f q <;> simp
  · intro h order horder
    rcases hlast : last_answer f order with _ | b
    · symm
      rw [last_answer_eq_none] at hlast ⊢
      intro a ha
      exact hlast a ((horder.perm.trans hl.symm).mem_iff.mpr ha)
    · obtain ⟨q, hq, hqb⟩ := horder.answer_of_queue hlast
      rcases h q hq with hnone | hsame
      · rw [hnone] at hqb
        cases hqb
      · rw [← hsame, hqb]

end queues
