-- The order of the leaf locks: an operation takes leaves from left to right, and
-- it calls the global lock with no leaf in hand. So threads never wait in a
-- circle, whatever they do to the arrays in between.
import PackedCsr.LockCalls
import PackedCsr.FastLock

namespace packed_csr

open effects

/-! ## One operation -/

/-- What each instruction asks of the leaves that are held. -/
def order.ask : ∀ {β : Type}, Instr β → Own → Prop
  | _, .leaf .lock i, t | _, .leaf .lock_shared i, t => ∀ j, t.mode j ≠ none → j < i
  | _, .global _, t => t.mode = no_locks
  | _, .leaf .unlock _, _ | _, .leaf .unlock_shared _, _ | _, .leaf .destroy _, _ => True
  | _, .act _, _ | _, .test _ _, _ => True

/-- Other threads may do anything to the arrays, and the tests may find anything. -/
def order : Prog.Rule Instr Own := ⟨order.ask, locking.can .crowd true⟩

theorem locking_order {β : Type} (i : Instr β) (t : Own) (h : (locking .crowd true).ask i t) :
    order.ask i t := by
  cases i with
  | act f => trivial
  | test k b => trivial
  | global c => exact h
  | leaf c i =>
    cases c with
    | lock => exact h.1.2
    | lock_shared => exact h.1.2
    | unlock => trivial
    | unlock_shared => trivial
    | destroy => trivial

/-- Each call keeps the order, and ends without a leaf lock. -/
theorem call_meets_order (c : Call) (calls : Nat) {t : Own} (hpow : Pow t.s.N)
    (hmode : t.mode = no_locks) :
    Prog.Meets order (c.prog calls) (fun _ t' => t'.mode = no_locks) t := by
  have hready : Ready .crowd t := ⟨t.s.N, ⟨rfl, hpow, fun h => absurd rfl h⟩, hmode⟩
  refine Prog.meets_rule ?_ locking_order fun _ _ _ _ h => h
  cases c with
  | add_edge src dest value => exact meets_add_edge_parallel (by decide) src dest value 4 hready
  | remove_edge src dest =>
    have hsame : Same .crowd t.s t := fun h => by cases h
    exact meets_remove_edge (by decide) src dest calls hready hsame (fun h => by cases h)
      (fun h => by cases h) fun h => by cases h

/-! ## Threads

Each thread is somewhere in an operation and somewhere in the global lock. A thread whose
next instruction is a call of the global lock goes through the atomic steps of that call. -/

open fast_lock in
/-- The thread is inside a call of the global lock. -/
def in_call : Pc → Bool
  | .unregistered | .outside | .shared | .exclusive => false
  | _ => true

def Instr.is_global : ∀ {β : Type}, Instr β → Bool
  | _, .global _ => true
  | _, .act _ | _, .test _ _ | _, .leaf _ _ => false

structure Threads (T : Type) where
  lock : fast_lock.FastLock T
  pc : T → fast_lock.Pc
  op : T → Op Unit
  own : T → Own

section

variable {T : Type} [DecidableEq T]

inductive ThreadStep : Threads T → Threads T → Prop
  /-- A thread registers or unregisters, between two operations. -/
  | join (s : Threads T) (t : T) {q : fast_lock.Pc} {m : fast_lock.FastLock T}
      (hop : s.op t = .ret ()) (h : fast_lock.Atomic t (s.pc t) s.lock q m)
      (hp : in_call (s.pc t) = false) (hq : in_call q = false) :
      ThreadStep s { s with lock := m, pc := Function.update s.pc t q }
  /-- A thread starts an operation on the array that stands there. -/
  | start (s : Threads T) (t : T) (c : Call) (calls : Nat) (a : PCSR) (hop : s.op t = .ret ())
      (hpow : Pow a.N) :
      ThreadStep s { s with
        op := Function.update s.op t (c.prog calls)
        own := Function.update s.own t ⟨a, no_locks⟩ }
  /-- An instruction that is no call of the global lock. -/
  | instr (s : Threads T) (t : T) {β : Type} {i : Instr β} {k : β → Op Unit} {b : β} {u : Own}
      (hop : s.op t = .op i k) (hi : i.is_global = false)
      (hc : order.can i (s.own t) b u) :
      ThreadStep s { s with
        op := Function.update s.op t (k b)
        own := Function.update s.own t u }
  /-- A step into a call of the global lock, or inside it. -/
  | inside (s : Threads T) (t : T) {c : GlobalCall} {k : Unit → Op Unit} {q : fast_lock.Pc}
      {m : fast_lock.FastLock T} (hop : s.op t = .op (.global c) k)
      (h : fast_lock.Atomic t (s.pc t) s.lock q m) (hq : in_call q = true) :
      ThreadStep s { s with lock := m, pc := Function.update s.pc t q }
  /-- The call of the global lock returns. -/
  | back (s : Threads T) (t : T) {c : GlobalCall} {k : Unit → Op Unit} {q : fast_lock.Pc}
      {m : fast_lock.FastLock T} {u : Own} (hop : s.op t = .op (.global c) k)
      (h : fast_lock.Atomic t (s.pc t) s.lock q m) (hp : in_call (s.pc t) = true)
      (hq : in_call q = false) (hc : order.can (.global c) (s.own t) () u) :
      ThreadStep s
        { lock := m
          pc := Function.update s.pc t q
          op := Function.update s.op t (k ())
          own := Function.update s.own t u }

/-- No thread is registered, and none is in an operation. -/
def Threads.Fresh (s : Threads T) : Prop :=
  s.lock = ⟨⟨none, ∅⟩, false, 0, 0⟩ ∧
    ∀ t, s.pc t = .unregistered ∧ s.op t = .ret () ∧ (s.own t).mode = no_locks

def Threads.Reachable (s : Threads T) : Prop :=
  ∃ s0, Threads.Fresh s0 ∧ Relation.ReflTransGen ThreadStep s0 s

/-! ## The invariant -/

/-- Each thread keeps the order in the rest of its operation, and a thread inside a call of the
global lock has that call in front. -/
structure Ordered (s : Threads T) : Prop where
  meets : ∀ t, Prog.Meets order (s.op t) (fun _ u => u.mode = no_locks) (s.own t)
  front : ∀ t, in_call (s.pc t) = true →
    ∃ c, ∃ k : Unit → Op Unit, s.op t = .op (.global c) k

omit [DecidableEq T] in
theorem fresh_ordered {s : Threads T} (h : Threads.Fresh s) : Ordered s := by
  constructor
  · intro t
    rw [(h.2 t).2.1]
    exact (h.2 t).2.2
  · intro t ht
    rw [(h.2 t).1] at ht
    cases ht

omit [DecidableEq T] in
/-- A thread with another instruction in front is in no call of the global lock. -/
theorem Ordered.not_in_call {s : Threads T} (h : Ordered s) {t : T} {β : Type} {i : Instr β}
    {k : β → Op Unit} (hop : s.op t = .op i k) (hi : i.is_global = false) :
    in_call (s.pc t) = false := by
  by_contra hc
  obtain ⟨c, k', hop'⟩ := h.front t (by simpa using hc)
  rw [hop] at hop'
  cases hop'
  cases hi

omit [DecidableEq T] in
theorem Ordered.not_in_call_ret {s : Threads T} (h : Ordered s) {t : T} {a : Unit}
    (hop : s.op t = .ret a) : in_call (s.pc t) = false := by
  by_contra hc
  obtain ⟨c, k', hop'⟩ := h.front t (by simpa using hc)
  rw [hop] at hop'
  cases hop'

theorem update_meets {op : T → Op Unit} {own : T → Own} {t : T} {p : Op Unit} {u : Own}
    (h : ∀ t, Prog.Meets order (op t) (fun _ u => u.mode = no_locks) (own t))
    (hp : Prog.Meets order p (fun _ u => u.mode = no_locks) u) (v : T) :
    Prog.Meets order (Function.update op t p v) (fun _ u => u.mode = no_locks)
      (Function.update own t u v) := by
  by_cases hv : v = t
  · subst hv
    rw [Function.update_self, Function.update_self]
    exact hp
  · rw [Function.update_of_ne hv, Function.update_of_ne hv]
    exact h v

theorem step_ordered {s s' : Threads T} (h : Ordered s) (hs : ThreadStep s s') : Ordered s' := by
  cases hs with
  | join t hop ha hp hq =>
    refine ⟨h.meets, fun v hv => h.front v ?_⟩
    dsimp only at hv
    by_cases hvt : v = t
    · subst hvt
      rw [Function.update_self, hq] at hv
      cases hv
    · rwa [Function.update_of_ne hvt] at hv
  | start t c calls a hop hpow =>
    refine ⟨update_meets h.meets (call_meets_order c calls hpow rfl), fun v hv => ?_⟩
    dsimp only at hv ⊢
    by_cases hvt : v = t
    · subst hvt
      rw [h.not_in_call_ret hop] at hv
      cases hv
    · obtain ⟨c', k, hk⟩ := h.front v hv
      exact ⟨c', k, by rw [Function.update_of_ne hvt]; exact hk⟩
  | instr t hop hi hc =>
    refine ⟨update_meets h.meets ?_, fun v hv => ?_⟩
    · have hm := h.meets t
      rw [hop] at hm
      exact hm.2 _ _ hc
    · dsimp only at hv ⊢
      by_cases hvt : v = t
      · subst hvt
        rw [h.not_in_call hop hi] at hv
        cases hv
      · obtain ⟨c', k, hk⟩ := h.front v hv
        exact ⟨c', k, by rw [Function.update_of_ne hvt]; exact hk⟩
  | inside t hop ha hq =>
    refine ⟨h.meets, fun v hv => ?_⟩
    dsimp only at hv
    by_cases hvt : v = t
    · subst hvt
      exact ⟨_, _, hop⟩
    · rw [Function.update_of_ne hvt] at hv
      exact h.front v hv
  | back t hop ha hp hq hc =>
    refine ⟨update_meets h.meets ?_, fun v hv => ?_⟩
    · have hm := h.meets t
      rw [hop] at hm
      exact hm.2 _ _ hc
    · dsimp only at hv ⊢
      by_cases hvt : v = t
      · subst hvt
        rw [Function.update_self, hq] at hv
        cases hv
      · rw [Function.update_of_ne hvt] at hv
        obtain ⟨c', k, hk⟩ := h.front v hv
        exact ⟨c', k, by rw [Function.update_of_ne hvt]; exact hk⟩

theorem reachable_ordered {s : Threads T} (h : Threads.Reachable s) : Ordered s := by
  obtain ⟨s0, h0, hs⟩ := h
  induction hs with
  | refl => exact fresh_ordered h0
  | tail _ hstep ih => exact step_ordered ih hstep

end

/-! ## Waiting -/

/-- A relation whose steps one after the other climb some measure has no cycle. -/
theorem no_cycle_of_measure {α : Type} {r : α → α → Prop} (m : α → Nat)
    (h : ∀ a b c, r a b → r b c → m a < m b) (a : α) : ¬ Relation.TransGen r a a := by
  have hlt : ∀ b c, Relation.TransGen r a b → r b c → m a < m b := by
    intro b c hab
    induction hab generalizing c with
    | single hab => exact h a _ c hab
    | tail _ hb ih => exact fun hc => (ih _ hb).trans (h _ _ c hb hc)
  intro hc
  obtain ⟨b, hb, -⟩ := Relation.TransGen.head'_iff.mp hc
  exact lt_irrefl _ (hlt a b hc hb)

/-- The leaf lock that a thread takes next. -/
def leaf_wanted : Op Unit → Option Nat
  | .op (.leaf .lock i) _ | .op (.leaf .lock_shared i) _ => some i
  | _ => none

/-- The thread is in the wait loop of `lock`. -/
def spins : fast_lock.Pc → Bool
  | .lock_load_arrived | .lock_load_counter _ => true
  | _ => false

/-- The thread asks for the mutex of the global lock. -/
def wants_mtx : fast_lock.Pc → Bool
  | .lock_mtx | .shared_mtx _ => true
  | _ => false

section

variable {T : Type}

/-- Thread `t` waits for thread `u`: for a leaf that `u` holds, for the mutex of the global
lock that `u` owns or shares, or in `lock` until `u` is parked. -/
def Waits (s : Threads T) (t u : T) : Prop :=
  u ≠ t ∧
    ((∃ i, leaf_wanted (s.op t) = some i ∧ (s.own u).mode i ≠ none) ∨
      (wants_mtx (s.pc t) = true ∧ ((s.pc u).owns = true ∨ (s.pc u).shares = true)) ∨
      (spins (s.pc t) = true ∧ (s.pc u).registered = true ∧ (s.pc u).arrived = false))

/-- What a waiting thread waits for comes later: the mutex first, then the threads that are not
parked, then the leaves from left to right. -/
def wait_rank (s : Threads T) (t : T) : Nat :=
  if wants_mtx (s.pc t) then 0 else if spins (s.pc t) then 1
  else (leaf_wanted (s.op t)).elim 0 (· + 2)

theorem wants_in_call {p : fast_lock.Pc} (h : wants_mtx p = true) : in_call p = true := by
  cases p <;> simp_all [wants_mtx, in_call]

theorem spins_in_call {p : fast_lock.Pc} (h : spins p = true) : in_call p = true := by
  cases p <;> simp_all [spins, in_call]

theorem wants_arrived {p : fast_lock.Pc} (h : wants_mtx p = true) : p.arrived = true := by
  cases p <;> simp_all [wants_mtx, fast_lock.Pc.arrived]

theorem spins_arrived {p : fast_lock.Pc} (h : spins p = true) : p.arrived = true := by
  cases p <;> simp_all [spins, fast_lock.Pc.arrived]

theorem wants_no_mtx {p : fast_lock.Pc} (h : wants_mtx p = true) :
    p.owns = false ∧ p.shares = false := by
  cases p <;> simp_all [wants_mtx, fast_lock.Pc.owns, fast_lock.Pc.shares]

/-- A thread inside a call of the global lock holds no leaf, and wants none. -/
theorem Ordered.no_leaf {s : Threads T} (h : Ordered s) {t : T} (ht : in_call (s.pc t) = true) :
    (s.own t).mode = no_locks ∧ leaf_wanted (s.op t) = none := by
  obtain ⟨c, k, hop⟩ := h.front t ht
  have hm := h.meets t
  rw [hop] at hm
  refine ⟨hm.1, ?_⟩
  rw [hop]
  rfl

/-- A thread that wants a leaf holds only leaves further left. -/
theorem Ordered.leaf_lt {s : Threads T} (h : Ordered s) {t : T} {i j : Nat}
    (hi : leaf_wanted (s.op t) = some i) (hj : (s.own t).mode j ≠ none) : j < i := by
  have hm := h.meets t
  unfold leaf_wanted at hi
  split at hi
  · rename_i k hop
    rw [hop] at hm
    cases hi
    exact hm.1 j hj
  · rename_i k hop
    rw [hop] at hm
    cases hi
    exact hm.1 j hj
  · cases hi

theorem wait_rank_lt {s : Threads T} (h : Ordered s) {t u v : T} (h1 : Waits s t u)
    (h2 : Waits s u v) : wait_rank s t < wait_rank s u := by
  have hleaf : ∀ i, leaf_wanted (s.op u) = some i → wait_rank s u = i + 2 := by
    intro i hi
    have hc : in_call (s.pc u) = false := by
      by_contra hc
      rw [(h.no_leaf (by simpa using hc)).2] at hi
      cases hi
    have hw : wants_mtx (s.pc u) = false := by
      by_contra hw
      rw [wants_in_call (by simpa using hw)] at hc
      cases hc
    have hs : spins (s.pc u) = false := by
      by_contra hs
      rw [spins_in_call (by simpa using hs)] at hc
      cases hc
    simp [wait_rank, hw, hs, hi]
  obtain ⟨-, ⟨i, hi, hold⟩ | ⟨hw, hmtx⟩ | ⟨hs, -, hnot⟩⟩ := h1
  · -- `u` holds a leaf, so it waits for a leaf further right
    have hcu : in_call (s.pc u) = false := by
      by_contra hc
      exact hold (by rw [(h.no_leaf (by simpa using hc)).1]; rfl)
    have hct : in_call (s.pc t) = false := by
      by_contra hc
      rw [(h.no_leaf (by simpa using hc)).2] at hi
      cases hi
    obtain ⟨-, ⟨j, hj, -⟩ | ⟨hw, -⟩ | ⟨hs, -⟩⟩ := h2
    · have hlt := h.leaf_lt hj hold
      have ht : wait_rank s t = i + 2 := by
        have hw : wants_mtx (s.pc t) = false := by
          by_contra hw
          rw [wants_in_call (by simpa using hw)] at hct
          cases hct
        have hs : spins (s.pc t) = false := by
          by_contra hs
          rw [spins_in_call (by simpa using hs)] at hct
          cases hct
        simp [wait_rank, hw, hs, hi]
      rw [ht, hleaf j hj]
      omega
    · rw [wants_in_call hw] at hcu
      cases hcu
    · rw [spins_in_call hs] at hcu
      cases hcu
  · have ht : wait_rank s t = 0 := by simp [wait_rank, hw]
    rw [ht]
    obtain ⟨-, ⟨j, hj, -⟩ | ⟨hw', -⟩ | ⟨hs, -⟩⟩ := h2
    · rw [hleaf j hj]
      omega
    · obtain ⟨ho, hsh⟩ := wants_no_mtx hw'
      simp [ho, hsh] at hmtx
    · have hw' : wants_mtx (s.pc u) = false := by
        cases hp : s.pc u <;> simp_all [spins, wants_mtx]
      simp [wait_rank, hw', hs]
  · have ht : wait_rank s t ≤ 1 := by
      unfold wait_rank
      rw [hs]
      split <;> simp
    obtain ⟨-, ⟨j, hj, -⟩ | ⟨hw', -⟩ | ⟨hs', -⟩⟩ := h2
    · rw [hleaf j hj]
      omega
    · rw [wants_arrived hw'] at hnot
      cases hnot
    · rw [spins_arrived hs'] at hnot
      cases hnot

end

/-! ## The law -/

/-- An operation takes leaf locks from left to right and holds none in the calls of the global
lock, whatever other threads do; and threads never wait in a circle. -/
theorem leaf_locks_are_taken_from_left_to_right :
    (∀ (s : PCSR) (c : Call) (calls : Nat) (q : Op Unit) (u : Own), Pow s.N →
      Prog.Steps order (c.prog calls) ⟨s, no_locks⟩ q u →
      Prog.Next order (fun _ t => t.mode = no_locks) q u) ∧
    ∀ (T : Type) [DecidableEq T] (s : Threads T), Threads.Reachable s →
      ∀ t, ¬ Relation.TransGen (Waits s) t t := by
  constructor
  · intro s c calls q u hpow hsteps
    exact Prog.meets_iff_next.mp (call_meets_order c calls hpow rfl) q u hsteps
  · intro T _ s hs t
    have hord := reachable_ordered hs
    exact no_cycle_of_measure (wait_rank s) (fun a b c h1 h2 => wait_rank_lt hord h1 h2) t

/-- Thread 0 begins to insert an edge. -/
def first_insertion : Threads (Fin 2) where
  lock := ⟨⟨none, ∅⟩, false, 0, 0⟩
  pc := fun _ => .unregistered
  op := Function.update (fun _ => .ret ()) 0 ((Call.add_edge 0 5 7).prog 1)
  own := Function.update (fun _ => ⟨new_pcsr 2 2 true, no_locks⟩) 0 ⟨new_pcsr 2 2 true, no_locks⟩

theorem pow_first : Pow (new_pcsr 2 2 true).N := ⟨11, by decide +kernel⟩

theorem reachable_first_insertion : Threads.Reachable first_insertion := by
  let s0 : Threads (Fin 2) :=
    { lock := ⟨⟨none, ∅⟩, false, 0, 0⟩
      pc := fun _ => .unregistered
      op := fun _ => .ret ()
      own := fun _ => ⟨new_pcsr 2 2 true, no_locks⟩ }
  refine ⟨s0, ⟨rfl, fun t => ⟨rfl, rfl, rfl⟩⟩, .single ?_⟩
  exact .start s0 0 (.add_edge 0 5 7) 1 (new_pcsr 2 2 true) rfl pow_first

theorem leaf_locks_are_taken_from_left_to_right_for_two :
    Prog.Next order (fun _ t => t.mode = no_locks) ((Call.add_edge 0 5 7).prog 1)
        ⟨new_pcsr 2 2 true, no_locks⟩ ∧
      ∀ t, ¬ Relation.TransGen (Waits first_insertion) t t := by
  constructor
  · exact leaf_locks_are_taken_from_left_to_right.1 (new_pcsr 2 2 true) (.add_edge 0 5 7) 1 _ _
      pow_first (.refl _ _)
  · exact leaf_locks_are_taken_from_left_to_right.2 (Fin 2) first_insertion
      reachable_first_insertion

end packed_csr
