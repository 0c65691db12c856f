-- One operation and its leaf locks: which locks it holds and how, what each
-- call of a lock asks for, and what the loops over the locks do to the range
-- that is held.
import PackedCsr.Sizes
import PackedCsr.Exec

namespace packed_csr

open effects

inductive Mode
  | shared
  | exclusive
deriving DecidableEq, Repr

/-- The state that an operation sees, and the leaf locks that it holds. -/
structure Own where
  s : PCSR
  mode : Nat → Option Mode

def no_locks : Nat → Option Mode := fun _ => none

/-- The locks from `a` to `b - 1`, all held in mode `m`. -/
def range (m : Mode) (a b : Nat) : Nat → Option Mode :=
  fun i => if a ≤ i ∧ i < b then some m else none

/-! ## The rule

In the world `crowd` other threads may do anything to the arrays between two accesses; only
a thread in the global lock changes the size. In `lone` no other thread is active, but the
three tests may still find anything, where `may` tells whether the nodes of a vertex can be
found changed, and a call that releases a lock asks for it. In `sound` each access asks to be
inside its table, and the tests find what the code computes, or nothing without `may`. -/

inductive World
  | crowd
  | lone
  | sound
deriving DecidableEq, Repr

section

variable (w : World) (may : Bool)

def asks : LeafCall → Nat → Own → Prop
  | .lock, i, t | .lock_shared, i, t => t.mode i = none ∧ ∀ j, t.mode j ≠ none → j < i
  | .unlock, i, t => w = .lone → t.mode i = some .exclusive
  | .unlock_shared, i, t => w = .lone → t.mode i = some .shared
  | .destroy, i, t => w = .lone → t.mode i = none

/-- What the table of the locks is after a call. -/
def after : LeafCall → Nat → (Nat → Option Mode) → Nat → Option Mode
  | .lock, i, mode => Function.update mode i (some .exclusive)
  | .lock_shared, i, mode => Function.update mode i (some .shared)
  | .unlock, i, mode | .unlock_shared, i, mode => Function.update mode i none
  | .destroy, _, mode => mode

/-- A call that takes a lock finds it in the table of the locks. -/
def in_table (N : Nat) : LeafCall → Nat → Prop
  | .lock, i | .lock_shared, i => i < N / logN N
  | _, _ => True

/-- The array that an access finds. -/
def Sees (s s1 : PCSR) : Prop := s1.N = s.N ∧ (w ≠ .crowd → s1 = s)

def locking.ask : ∀ {β : Type}, Instr β → Own → Prop
  | _, .act f, t => w = .sound → ∃ r, f t.s = .ok r
  | _, .test _ _, _ => True
  | _, .leaf c i, t => asks w c i t ∧ (w = .sound → i < t.s.versions.length ∧ in_table t.s.N c i)
  | _, .global _, t => t.mode = no_locks

def locking.can : ∀ {β : Type}, Instr β → Own → β → Own → Prop
  | _, .act f, t, b, t' => ∃ s1, Sees w t.s s1 ∧ f s1 = .ok (b, t'.s) ∧ t'.mode = t.mode
  | _, .test k b, t, b', t' =>
    t' = t ∧ (w = .sound → b' = (may && b)) ∧ (k = .nodes_changed → may = false → b' = false)
  | _, .leaf c i, t, _, t' => in_table t.s.N c i ∧ t' = { t with mode := after c i t.mode }
  | _, .global _, t, _, t' =>
    t'.mode = t.mode ∧ (w = .crowd → Pow t'.s.N) ∧ (w ≠ .crowd → t'.s = t.s)

def locking : Prog.Rule Instr Own := ⟨locking.ask w, locking.can w may⟩

end

/-! ## Single instructions -/

section

variable {w : World} {may : Bool} {α β : Type} {t u : Own}

/-- The array is still the one that the operation knows. -/
def Keeps (w : World) (t t' : Own) : Prop := t'.s.N = t.s.N ∧ (w ≠ .crowd → t'.s = t.s)

theorem Keeps.refl (t : Own) : Keeps w t t := ⟨rfl, fun _ => rfl⟩

theorem Keeps.trans {v : Own} (h : Keeps w t u) (h' : Keeps w u v) : Keeps w t v :=
  ⟨h'.1.trans h.1, fun hw => (h'.2 hw).trans (h.2 hw)⟩

theorem meets_look (f : PCSR → Res β) (t : Own) (hf : w = .sound → ∃ b, f t.s = .ok b) :
    Prog.Meets (locking w may) (look f)
      (fun b t' => Keeps w t t' ∧ t'.mode = t.mode ∧ ∃ s1, Sees w t.s s1 ∧ f s1 = .ok b) t := by
  refine ⟨fun hw => ?_, fun b t' hc => ?_⟩
  · obtain ⟨b, hb⟩ := hf hw
    exact ⟨(b, t.s), by simp only [hb]; rfl⟩
  · obtain ⟨s1, hs1, hf, hm⟩ := hc
    obtain ⟨b', hb', he⟩ := map_ok hf
    obtain ⟨rfl, hs⟩ := Prod.mk.inj he
    exact ⟨⟨by rw [← hs, hs1.1], fun hw => by rw [← hs, hs1.2 hw]⟩, hm, s1, hs1, hb'⟩

theorem meets_change (f : PCSR → Res PCSR) (t : Own) (hf : w = .sound → ∃ s', f t.s = .ok s') :
    Prog.Meets (locking w may) (change f)
      (fun _ t' => t'.mode = t.mode ∧ ∃ s1, Sees w t.s s1 ∧ f s1 = .ok t'.s) t := by
  refine ⟨fun hw => ?_, fun b t' hc => ?_⟩
  · obtain ⟨s', hs'⟩ := hf hw
    exact ⟨((), s'), by simp only [hs']; rfl⟩
  · obtain ⟨s1, hs1, hf, hm⟩ := hc
    obtain ⟨s', hs', he⟩ := map_ok hf
    obtain ⟨-, rfl⟩ := Prod.mk.inj he
    exact ⟨hm, s1, hs1, hs'⟩

theorem meets_test (k : Test) (b : Bool) (t : Own) :
    Prog.Meets (locking w may) (test k b)
      (fun b' t' => t' = t ∧ (w = .sound → b' = (may && b)) ∧
        (k = .nodes_changed → may = false → b' = false)) t :=
  ⟨trivial, fun _ _ hc => hc⟩

theorem meets_global (c : GlobalCall) (t : Own) (h : t.mode = no_locks) :
    Prog.Meets (locking w may) (global c)
      (fun _ t' => t'.mode = no_locks ∧ (w = .crowd → Pow t'.s.N) ∧ (w ≠ .crowd → t'.s = t.s)) t :=
  ⟨h, fun _ _ hc => ⟨hc.1.trans h, hc.2⟩⟩

theorem meets_leaf (c : LeafCall) (i : Nat) (t : Own) (h : asks w c i t)
    (hi : w = .sound → i < t.s.versions.length ∧ in_table t.s.N c i) :
    Prog.Meets (locking w may) (leaf c i)
      (fun _ t' => in_table t.s.N c i ∧ t' = { t with mode := after c i t.mode }) t :=
  ⟨⟨h, hi⟩, fun _ _ hc => hc⟩

theorem meets_stuck {Q : α → Own → Prop} (h : w ≠ .sound) :
    Prog.Meets (locking w may) (stuck : Op α) Q t :=
  ⟨fun hw => absurd hw h, fun b => b.elim⟩

/-- As `alone`, but without `may` no test finds anything. -/
def alone_or_calm (may : Bool) : ∀ {β : Type}, Instr β → PCSR → Res (β × PCSR)
  | _, .test _ b, s => .ok (may && b, s)
  | _, .act f, s => alone (.act f) s
  | _, .leaf c i, s => alone (.leaf c i) s
  | _, .global c, s => alone (.global c) s

/-- In the world `sound`, a program that keeps the rule runs to its end. -/
theorem meets_run {p : Op α} {Q : α → Own → Prop} (h : Prog.Meets (locking .sound may) p Q t) :
    ∃ a u, Prog.run (alone_or_calm may) p t.s = .ok (a, u.s) ∧ Q a u := by
  induction p generalizing t with
  | ret a => exact ⟨a, t, rfl, h⟩
  | op i k ih =>
    have hrun : ∀ b u, locking.can .sound may i t b u → alone_or_calm may i t.s = .ok (b, u.s) →
        ∃ a v, Prog.run (alone_or_calm may) (.op i k) t.s = .ok (a, v.s) ∧ Q a v := by
      intro b u hc ha
      obtain ⟨a, v, he, hq⟩ := ih b (h.2 b u hc)
      exact ⟨a, v, (Prog.run_op_ok (alone_or_calm may) ha).trans he, hq⟩
    cases i with
    | act f =>
      obtain ⟨⟨b, s'⟩, hf⟩ := h.1 rfl
      exact hrun b ⟨s', t.mode⟩ ⟨t.s, ⟨rfl, fun _ => rfl⟩, hf, rfl⟩ hf
    | test k b =>
      refine hrun (may && b) t ⟨rfl, fun _ => rfl, fun _ hm => ?_⟩ rfl
      rw [hm, Bool.false_and]
    | leaf c i =>
      obtain ⟨hi, htab⟩ := h.1.2 rfl
      exact hrun () { t with mode := after c i t.mode } ⟨htab, rfl⟩ (if_pos hi)
    | global c => exact hrun () t ⟨rfl, (fun hw => by cases hw), fun _ => rfl⟩ rfl

theorem run_alone_or_calm (p : Op α) (s : PCSR) :
    Prog.run (alone_or_calm true) p s = exec p s := by
  induction p generalizing s with
  | ret a => rfl
  | op i k ih =>
    have hi : alone_or_calm true i s = alone i s := by cases i <;> rfl
    unfold exec
    simp only [Prog.run, hi]
    split
    · exact ih _ _
    · rfl

theorem meets_exec {p : Op α} {Q : α → Own → Prop}
    (h : Prog.Meets (locking .sound true) p Q t) :
    ∃ a u, exec p t.s = .ok (a, u.s) ∧ Q a u := by
  obtain ⟨a, u, he, hq⟩ := meets_run h
  exact ⟨a, u, (run_alone_or_calm p t.s).symm.trans he, hq⟩

/-- As `alone`, and it keeps the table of the leaf locks that the operation holds. -/
def alone_holding : ∀ {β : Type}, Instr β → Own → Res (β × Own)
  | _, .act f, t => (f t.s).map fun r => (r.1, ⟨r.2, t.mode⟩)
  | _, .test _ b, t => .ok (b, t)
  | _, .leaf c i, t =>
    if i < t.s.versions.length then .ok ((), { t with mode := after c i t.mode }) else .error (.lock i)
  | _, .global _, t => .ok ((), t)

/-- The run of an operation with no other thread active, and the leaf locks that it holds in
the end. -/
def hold (p : Op α) (t : Own) : Res (α × Own) := Prog.run alone_holding p t

theorem meets_hold {p : Op α} {Q : α → Own → Prop} (h : Prog.Meets (locking .sound true) p Q t) :
    ∃ a u, hold p t = .ok (a, u) ∧ Q a u := by
  induction p generalizing t with
  | ret a => exact ⟨a, t, rfl, h⟩
  | op i k ih =>
    have hrun : ∀ b u, locking.can .sound true i t b u → alone_holding i t = .ok (b, u) →
        ∃ a v, hold (.op i k) t = .ok (a, v) ∧ Q a v := by
      intro b u hc ha
      obtain ⟨a, v, he, hq⟩ := ih b (h.2 b u hc)
      exact ⟨a, v, (Prog.run_op_ok alone_holding ha).trans he, hq⟩
    cases i with
    | act f =>
      obtain ⟨⟨b, s'⟩, hf⟩ := h.1 rfl
      apply hrun b ⟨s', t.mode⟩ ⟨t.s, ⟨rfl, fun _ => rfl⟩, hf, rfl⟩
      simp [alone_holding, hf, Except.map]
    | test k b =>
      refine hrun b t ⟨rfl, fun _ => by simp, fun _ hm => ?_⟩ rfl
      cases hm
    | leaf c i =>
      obtain ⟨hi, htab⟩ := h.1.2 rfl
      exact hrun () { t with mode := after c i t.mode } ⟨htab, rfl⟩ (if_pos hi)
    | global c => exact hrun () t ⟨rfl, (fun hw => by cases hw), fun _ => rfl⟩ rfl

/-- A program that only reads leaves the locks and, where it is alone, gives what it gives
by itself. -/
theorem meets_reads {p : Op α} (hp : Prog.Only reads p) (t : Own)
    (hs : w = .sound → ∃ a, exec p t.s = .ok (a, t.s)) :
    Prog.Meets (locking w may) p
      (fun a t' => Keeps w t t' ∧ t'.mode = t.mode ∧
        (w ≠ .crowd → exec p t.s = .ok (a, t.s))) t := by
  induction p generalizing t with
  | ret a => exact ⟨Keeps.refl t, rfl, fun _ => rfl⟩
  | op i k ih =>
    cases i with
    | act f =>
      -- the rest of the program runs on the same state
      have hrest : ∀ b, f t.s = .ok (b, t.s) → exec (.op (.act f) k) t.s = exec (k b) t.s :=
        fun b hf => Prog.run_op_ok alone (i := .act f) hf
      refine ⟨fun hw => ?_, fun b t' hc => ?_⟩
      · obtain ⟨a, ha⟩ := hs hw
        rcases hf : f t.s with e | r
        · rw [show exec (.op (.act f) k) t.s = .error e from
            Prog.run_op_error alone (i := .act f) hf] at ha
          cases ha
        · exact ⟨r, rfl⟩
      · obtain ⟨s1, hs1, hf, hm⟩ := hc
        have hsame := hp.1.1 _ _ _ hf
        have hfix : w ≠ .crowd → t'.s = t.s ∧ f t.s = .ok (b, t.s) := by
          intro hw
          obtain rfl := hs1.2 hw
          exact ⟨hsame, by rw [← hsame]; exact hsame ▸ hf⟩
        have hsound : w = .sound → ∃ a, exec (k b) t'.s = .ok (a, t'.s) := by
          intro hw
          have hw' : w ≠ .crowd := by rw [hw]; decide
          obtain ⟨a, ha⟩ := hs hw
          rw [hrest b (hfix hw').2] at ha
          rw [(hfix hw').1]
          exact ⟨a, ha⟩
        refine Prog.meets_mono (ih b (hp.2 b) t' hsound) ?_
        rintro a v ⟨hk, hv, he⟩
        have hkt : Keeps w t t' := ⟨by rw [hsame, hs1.1], fun hw => (hfix hw).1⟩
        refine ⟨hkt.trans hk, hv.trans hm, fun hw => ?_⟩
        have he := he hw
        rw [(hfix hw).1] at he
        rw [hrest b (hfix hw).2]
        exact he
    | test _ _ | leaf _ _ | global _ => exact hp.1.elim

/-! ## Ranges of locks -/

theorem range_empty (m : Mode) {a b : Nat} (h : b ≤ a) : range m a b = no_locks := by
  funext i
  unfold range no_locks
  rw [if_neg (by omega)]

theorem range_eq_none {m : Mode} {a b i : Nat} : range m a b i = none ↔ ¬ (a ≤ i ∧ i < b) := by
  unfold range
  split <;> simp_all

theorem range_update_end (m : Mode) {a b : Nat} (h : a ≤ b) :
    Function.update (range m a b) b (some m) = range m a (b + 1) := by
  funext i
  by_cases hi : i = b
  · subst hi
    rw [Function.update_self]
    unfold range
    rw [if_pos (by omega)]
  · rw [Function.update_of_ne hi]
    unfold range
    by_cases hr : a ≤ i ∧ i < b
    · rw [if_pos hr, if_pos (by omega)]
    · rw [if_neg hr, if_neg (by omega)]

theorem range_update_start (m : Mode) (a b : Nat) :
    Function.update (range m a b) a none = range m (a + 1) b := by
  funext i
  by_cases hi : i = a
  · subst hi
    rw [Function.update_self]
    unfold range
    rw [if_neg (by omega)]
  · rw [Function.update_of_ne hi]
    unfold range
    by_cases hr : a ≤ i ∧ i < b
    · rw [if_pos hr, if_pos (by omega)]
    · rw [if_neg hr, if_neg (by omega)]

/-- The calls that take a lock in mode `m`, and those that give it back. -/
def takes : Mode → LeafCall
  | .shared => .lock_shared
  | .exclusive => .lock

def gives : Mode → LeafCall
  | .shared => .unlock_shared
  | .exclusive => .unlock

/-- One more lock behind the range that is held. -/
theorem meets_take (m : Mode) {a b : Nat} (hab : a ≤ b) (ht : t.mode = range m a b)
    (hi : w = .sound → Sized t.s ∧ b < t.s.N / logN t.s.N) :
    Prog.Meets (locking w may) (leaf (takes m) b)
      (fun _ t' => b < t.s.N / logN t.s.N ∧ t' = { t with mode := range m a (b + 1) }) t := by
  have hask : asks w (takes m) b t := by
    have h : t.mode b = none ∧ ∀ j, t.mode j ≠ none → j < b := by
      rw [ht]
      refine ⟨range_eq_none.mpr (by omega), fun j hj => ?_⟩
      by_contra hjb
      exact hj (range_eq_none.mpr (by omega))
    cases m <;> exact h
  have htab : w = .sound → b < t.s.versions.length ∧ in_table t.s.N (takes m) b := by
    intro hw
    obtain ⟨hs, hb⟩ := hi hw
    rw [hs.versions]
    cases m <;> exact ⟨hb, hb⟩
  refine Prog.meets_mono (meets_leaf _ _ _ hask htab) ?_
  rintro _ t' ⟨htab, rfl⟩
  have hafter : after (takes m) b t.mode = range m a (b + 1) := by
    rw [ht, ← range_update_end m hab]
    cases m <;> rfl
  refine ⟨?_, by rw [hafter]⟩
  cases m <;> exact htab

/-- The first lock. -/
theorem meets_take_first (m : Mode) (b : Nat) (ht : t.mode = no_locks)
    (hi : w = .sound → Sized t.s ∧ b < t.s.N / logN t.s.N) :
    Prog.Meets (locking w may) (leaf (takes m) b)
      (fun _ t' => b < t.s.N / logN t.s.N ∧ t' = { t with mode := range m b (b + 1) }) t :=
  meets_take m (le_refl b) (by rw [ht, range_empty m (le_refl b)]) hi

theorem meets_take_loop (m : Mode) {a b : Nat} (n : Nat) (hab : a ≤ b)
    (ht : t.mode = range m a b)
    (hi : w = .sound → Sized t.s ∧ b + n ≤ t.s.N / logN t.s.N) :
    Prog.Meets (locking w may) (leaf_loop (takes m) b n)
      (fun _ t' => (0 < n → b + n ≤ t.s.N / logN t.s.N) ∧
        t' = { t with mode := range m a (b + n) }) t := by
  induction n generalizing b t with
  | zero => exact ⟨fun h => absurd h (by decide), by rw [Nat.add_zero, ← ht]⟩
  | succ n ih =>
    unfold leaf_loop
    refine Prog.meets_seq (meets_take m hab ht fun hw => ?_) ?_
    · obtain ⟨hs, hb⟩ := hi hw
      exact ⟨hs, by omega⟩
    rintro _ t' ⟨hb, rfl⟩
    refine Prog.meets_mono (ih (t := { t with mode := range m a (b + 1) })
      (Nat.le_succ_of_le hab) rfl fun hw => ?_) ?_
    · obtain ⟨hs, hb⟩ := hi hw
      exact ⟨hs, by simp only; omega⟩
    rintro _ t' ⟨hn, rfl⟩
    refine ⟨fun _ => ?_, by rw [Nat.add_assoc, Nat.add_comm 1 n]⟩
    rcases Nat.eq_zero_or_pos n with rfl | h
    · omega
    · have := hn h
      simp only at this
      omega

theorem meets_take_range (m : Mode) (a b : Nat) (ht : t.mode = no_locks)
    (hi : w = .sound → a ≤ b → Sized t.s ∧ b < t.s.N / logN t.s.N) :
    Prog.Meets (locking w may) (leaf_range (takes m) a b)
      (fun _ t' => (a ≤ b → b < t.s.N / logN t.s.N) ∧
        t' = { t with mode := range m a (b + 1) }) t := by
  by_cases hab : a ≤ b
  · refine Prog.meets_mono (meets_take_loop m (b + 1 - a) (le_refl a)
      (by rw [ht, range_empty m (le_refl a)]) fun hw => ?_) ?_
    · obtain ⟨hs, hb⟩ := hi hw hab
      exact ⟨hs, by omega⟩
    rintro _ t' ⟨hn, rfl⟩
    refine ⟨fun _ => ?_, by rw [show a + (b + 1 - a) = b + 1 by omega]⟩
    have := hn (by omega)
    omega
  · unfold leaf_range
    rw [show b + 1 - a = 0 by omega]
    refine ⟨fun h => absurd h hab, ?_⟩
    rw [range_empty m (by omega : b + 1 ≤ a), ← ht]

/-- The first lock of the range is given back. -/
theorem meets_give (m : Mode) {a b : Nat} (hab : a < b) (ht : t.mode = range m a b)
    (hi : w = .sound → a < t.s.versions.length) :
    Prog.Meets (locking w may) (leaf (gives m) a)
      (fun _ t' => t' = { t with mode := range m (a + 1) b }) t := by
  have hask : asks w (gives m) a t := by
    have h : t.mode a = some m := by
      rw [ht]
      exact if_pos ⟨le_refl a, hab⟩
    cases m <;> exact fun _ => h
  have htab : w = .sound → a < t.s.versions.length ∧ in_table t.s.N (gives m) a :=
    fun hw => ⟨hi hw, by cases m <;> trivial⟩
  refine Prog.meets_mono (meets_leaf _ _ _ hask htab) ?_
  rintro _ t' ⟨-, rfl⟩
  rw [ht, ← range_update_start m a b]
  cases m <;> rfl

theorem meets_give_loop (m : Mode) {a : Nat} (n : Nat) (ht : t.mode = range m a (a + n))
    (hi : w = .sound → a + n ≤ t.s.versions.length) :
    Prog.Meets (locking w may) (leaf_loop (gives m) a n)
      (fun _ t' => t' = { t with mode := no_locks }) t := by
  induction n generalizing a t with
  | zero =>
    have hm : t.mode = no_locks := by rw [ht, range_empty m (le_of_eq (Nat.add_zero a))]
    show t = { t with mode := no_locks }
    rw [← hm]
  | succ n ih =>
    unfold leaf_loop
    refine Prog.meets_seq (meets_give m (by omega) ht fun hw => ?_) ?_
    · have := hi hw
      omega
    rintro _ t' rfl
    refine ih (t := { t with mode := range m (a + 1) (a + (n + 1)) }) ?_ fun hw => ?_
    · rw [show a + 1 + n = a + (n + 1) by omega]
    · have := hi hw
      simp only
      omega

theorem meets_give_range (m : Mode) {a b : Nat} (ht : t.mode = range m a (b + 1))
    (hi : w = .sound → a ≤ b → b < t.s.versions.length) :
    Prog.Meets (locking w may) (leaf_range (gives m) a b)
      (fun _ t' => t' = { t with mode := no_locks }) t := by
  by_cases hab : a ≤ b
  · refine meets_give_loop m (b + 1 - a) ?_ fun hw => ?_
    · rw [ht, show a + (b + 1 - a) = b + 1 by omega]
    · have := hi hw hab
      omega
  · unfold leaf_range
    rw [show b + 1 - a = 0 by omega]
    show t = { t with mode := no_locks }
    rw [← ht.trans (range_empty m (by omega))]

/-- All locks that are held lie from `a` to `b - 1`. -/
def Within (mode : Nat → Option Mode) (a b : Nat) : Prop := ∀ i, mode i ≠ none → a ≤ i ∧ i < b

theorem within_range (m : Mode) {a b c d : Nat} (hca : c ≤ a) (hbd : b ≤ d) :
    Within (range m a b) c d := by
  intro i hi
  by_contra hn
  exact hi (range_eq_none.mpr (by omega))

theorem Within.no_locks {mode : Nat → Option Mode} {a b : Nat} (h : Within mode a b)
    (hle : b ≤ a) : mode = no_locks := by
  funext i
  by_contra hi
  have := h i hi
  omega

theorem Within.unlock {mode : Nat → Option Mode} {a b : Nat} (h : Within mode a b) :
    Within (Function.update mode a none) (a + 1) b := by
  intro i hi
  by_cases hia : i = a
  · subst hia
    rw [Function.update_self] at hi
    exact absurd rfl hi
  · rw [Function.update_of_ne hia] at hi
    have := h i hi
    omega

/-- Among other threads, where releases are not checked, a loop over all that is held
releases it, however it is held. -/
theorem meets_unlock_all (hw : w = .crowd) {a : Nat} (n : Nat) (ht : Within t.mode a (a + n)) :
    Prog.Meets (locking w may) (leaf_loop .unlock a n)
      (fun _ t' => t' = { t with mode := no_locks }) t := by
  subst hw
  induction n generalizing a t with
  | zero =>
    show t = { t with mode := no_locks }
    rw [← ht.no_locks (le_refl a)]
  | succ n ih =>
    unfold leaf_loop
    refine Prog.meets_seq (meets_leaf _ _ _ (fun hw => by cases hw) fun hw => by cases hw) ?_
    rintro _ t' ⟨-, rfl⟩
    refine ih (t := { t with mode := after .unlock a t.mode }) ?_
    rw [show a + 1 + n = a + (n + 1) by omega]
    exact ht.unlock

end

end packed_csr
