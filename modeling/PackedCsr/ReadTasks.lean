-- The workers of a pool and the global locks: the loop of `execute` with its adds,
-- deletes and reads. The law: a read is beside no writer, in every run where no
-- worker joins too late for a task that does not ask for the lock.
import PackedCsr.FastLock
import PackedCsr.Sections
import PackedCsr.Pools

namespace packed_csr

open effects fast_lock thread_pool

/-! ## Calls in progress -/

/-- The call of the global lock that a thread is in. -/
def call_of : Pc → Option GlobalCall
  | .lock_add | .lock_mtx | .lock_request | .lock_load_arrived | .lock_load_counter _ => some .lock
  | .lock_sub => some .lock
  | .unlock_request | .unlock_mtx => some .unlock
  | .shared_load l | .shared_add l | .shared_mtx l | .shared_sub l | .shared_release l =>
    some (if l then .unlock_shared else .lock_shared)
  | .unregistered | .outside | .shared | .exclusive => none

/-- Where a call begins. -/
def GlobalCall.entry : GlobalCall → Pc
  | .lock => .lock_add
  | .unlock => .unlock_request
  | .lock_shared => .shared_load false
  | .unlock_shared => .shared_load true

/-- Where a thread stands that is in no call. -/
def section_of : Pc → Section
  | .shared => .shared
  | .exclusive => .exclusive
  | _ => .outside

section

variable {T : Type} [DecidableEq T] {t : T} {p q : Pc} {l m : FastLock T}

theorem atomic_in_call {c : GlobalCall} (h : Atomic t p l q m) (hp : call_of p = some c) :
    call_of q = some c ∨ (call_of q = none ∧ q ≠ .unregistered ∧ section_of q = c.next) := by
  cases h with
  | shared_pass _ b h | shared_release _ b => cases b <;> cases hp <;> exact .inr ⟨rfl, by simp [Pc.back], rfl⟩
  | shared_park _ b h | shared_add _ b | shared_mtx _ b ho | shared_sub _ b => exact .inl hp
  | unlock_mtx => cases hp; exact .inr ⟨rfl, by simp, rfl⟩
  | lock_sub => cases hp; exact .inr ⟨rfl, by simp, rfl⟩
  | lock_add | lock_mtx _ ho hs | lock_request | lock_load_arrived | lock_wait _ a h | lock_go _ a h
  | unlock_request => exact .inl hp
  | registerThread | unregisterThread | lock | unlock | lock_shared | unlock_shared => cases hp

/-- A thread comes out of a call from where no writer would have let it go on. -/
theorem atomic_out_of_call (h : Atomic t p l .outside m) (hp : call_of p ≠ none) :
    p.quiet = false := by
  generalize hq : Pc.outside = q at h
  cases h with
  | shared_pass _ b h | shared_release _ b => cases b <;> simp [Pc.back, Pc.quiet] at hq ⊢
  | unlock_mtx => rfl
  | registerThread => exact absurd rfl hp
  | _ => cases hq

variable [Fintype T]

/-- Where a thread gets alone, no other thread is registered and outside the calls. -/
theorem atomic_alone {s : System T} (hs : Safe s) (h : Atomic t (s.pc t) s.lock q m)
    (hq : q.alone = true) : (s.pc t).alone = true ∨ ∀ u, s.pc u ≠ .outside := by
  generalize hp : s.pc t = p at h
  cases h with
  | lock_go _ a ha =>
    right
    intro u hu
    have harr := hs.all_arrived hp ha u (by rw [hu]; rfl)
    rw [hu] at harr
    cases harr
  | lock_sub => exact .inl rfl
  | shared_pass _ b h | shared_release _ b => cases b <;> cases hq
  | _ => cases hq

end

/-! ## Workers

`K` are the graphs that the workers share: one for `ThreadPool`, the partitions for
`ThreadPoolPPPCSR`. The graph of a source is `par`, and `vertex` is its number there. -/

/-- Where a worker stands in the loop of `execute`. -/
inductive Stage (K : Type)
  | loop
  | taken (x : Task)
  | running (k : K) (op : Op Unit)
  | reading (k : K)
  | left

structure Workers (T K : Type) where
  lock : K → FastLock T
  pc : K → T → Pc
  tasks : T → List Task
  finished : Bool
  stage : T → Stage K
  registered : T → Option K

section

variable {T K : Type} [DecidableEq T] [DecidableEq K]

/-- Worker `t` comes to `st`. -/
def Workers.turn (s : Workers T K) (t : T) (st : Stage K) : Workers T K :=
  { s with stage := Function.update s.stage t st }

/-- Worker `t` takes an atomic step at the lock of graph `k`. -/
def Workers.move (s : Workers T K) (t : T) (k : K) (q : Pc) (m : FastLock T) (st : Stage K)
    (reg : Option K) : Workers T K :=
  { s with
    lock := Function.update s.lock k m
    pc := Function.update s.pc k (Function.update (s.pc k) t q)
    stage := Function.update s.stage t st
    registered := Function.update s.registered t reg }

variable (par : Nat → K) (vertex : Nat → Nat) (master : T)

/-- The operation of a task that is no read. `calls` bounds the calls that `remove_edge` makes of
itself. -/
def op_of (calls : Nat) (x : Task) : Op Unit :=
  if x.add then Call.prog calls (.add_edge (vertex x.src) x.target 1)
  else Call.prog calls (.remove_edge (vertex x.src) x.target)

/-- One step of a worker. A worker registers with the lock of the graph of its task where `may`
allows it. `n` are the numbers of vertices. -/
inductive WorkerStep (n : K → Nat) (may : Workers T K → T → Task → Prop) :
    Workers T K → Workers T K → Prop
  | take (s : Workers T K) (t : T) {x : Task} {rest : List Task} (hs : s.stage t = .loop)
      (hq : s.tasks t = x :: rest) :
      WorkerStep n may s { s.turn t (.taken x) with tasks := Function.update s.tasks t rest }
  | unregister_other (s : Workers T K) (t : T) {x : Task} {k : K} {m : FastLock T}
      (hs : s.stage t = .taken x) (hr : s.registered t = some k) (hk : k ≠ par x.src)
      (h : Atomic t (s.pc k t) (s.lock k) .unregistered m) :
      WorkerStep n may s (s.move t k .unregistered m (.taken x) none)
  | register (s : Workers T K) (t : T) {x : Task} {m : FastLock T} (hs : s.stage t = .taken x)
      (hr : s.registered t = none) (hmay : may s t x)
      (h : Atomic t (s.pc (par x.src) t) (s.lock (par x.src)) .outside m) :
      WorkerStep n may s (s.move t (par x.src) .outside m (.taken x) (some (par x.src)))
  | update (s : Workers T K) (t : T) {x : Task} (calls : Nat) (hs : s.stage t = .taken x)
      (hr : s.registered t = some (par x.src)) (hx : x.add = true ∨ x.read = false) :
      WorkerStep n may s (s.turn t (.running (par x.src) (op_of vertex calls x)))
  | read_neighbourhood (s : Workers T K) (t : T) {x : Task} (hs : s.stage t = .taken x)
      (hr : s.registered t = some (par x.src)) (ha : x.add = false) (hx : x.read = true) :
      WorkerStep n may s (s.turn t (.reading (par x.src)))
  | instr (s : Workers T K) (t : T) {k : K} {β : Type} {i : Instr β} {f : β → Op Unit} {b : β}
      (hs : s.stage t = .running k (.op i f)) (hi : calm i) (hb : answers (n k) i b) :
      WorkerStep n may s (s.turn t (.running k (f b)))
  | call (s : Workers T K) (t : T) {k : K} {c : GlobalCall} {f : Unit → Op Unit} {q : Pc}
      {m : FastLock T} (hs : s.stage t = .running k (.op (.global c) f))
      (h : Atomic t (s.pc k t) (s.lock k) q m) (hc : call_of (s.pc k t) ≠ none ∨ q = c.entry)
      (hq : call_of q ≠ none) :
      WorkerStep n may s (s.move t k q m (.running k (.op (.global c) f)) (s.registered t))
  | back (s : Workers T K) (t : T) {k : K} {c : GlobalCall} {f : Unit → Op Unit} {q : Pc}
      {m : FastLock T} (hs : s.stage t = .running k (.op (.global c) f))
      (h : Atomic t (s.pc k t) (s.lock k) q m) (hc : call_of (s.pc k t) ≠ none)
      (hq : call_of q = none) :
      WorkerStep n may s (s.move t k q m (.running k (f ())) (s.registered t))
  | ends (s : Workers T K) (t : T) {k : K} (hs : s.stage t = .running k (.ret ())) :
      WorkerStep n may s (s.turn t .loop)
  | read_ends (s : Workers T K) (t : T) {k : K} (hs : s.stage t = .reading k) :
      WorkerStep n may s (s.turn t .loop)
  | idle (s : Workers T K) (t : T) {k : K} {m : FastLock T} (hs : s.stage t = .loop)
      (hq : s.tasks t = []) (ht : t ≠ master) (hf : s.finished = false)
      (hr : s.registered t = some k) (h : Atomic t (s.pc k t) (s.lock k) .unregistered m) :
      WorkerStep n may s (s.move t k .unregistered m .loop none)
  | leave (s : Workers T K) (t : T) (hs : s.stage t = .loop) (hq : s.tasks t = [])
      (hf : t = master ∨ s.finished = true) (hr : s.registered t = none) :
      WorkerStep n may s (s.turn t .left)
  | leave_registered (s : Workers T K) (t : T) {k : K} {m : FastLock T} (hs : s.stage t = .loop)
      (hq : s.tasks t = []) (hf : t = master ∨ s.finished = true) (hr : s.registered t = some k)
      (h : Atomic t (s.pc k t) (s.lock k) .unregistered m) :
      WorkerStep n may s (s.move t k .unregistered m .left none)
  /-- `stop`, when the loop of the thread that called `start` is over. -/
  | stop (s : Workers T K) (hs : s.stage master = .left) :
      WorkerStep n may s { s with finished := true }
  /-- `start` after `stop`. -/
  | start (s : Workers T K) (hs : ∀ t, s.stage t = .left) :
      WorkerStep n may s { s with stage := fun _ => .loop, finished := false }
  /-- A task is submitted, at any time. -/
  | submit (s : Workers T K) (t : T) (x : Task) :
      WorkerStep n may s { s with tasks := Function.update s.tasks t (s.tasks t ++ [x]) }

/-- The workers after the first `start`. -/
def Workers.fresh (tasks : T → List Task) : Workers T K where
  lock _ := ⟨⟨none, ∅⟩, false, 0, 0⟩
  pc _ _ := .unregistered
  tasks := tasks
  finished := false
  stage _ := .loop
  registered _ := none

def Workers.Reachable (n : K → Nat) (may : Workers T K → T → Task → Prop) (s : Workers T K) : Prop :=
  ∃ tasks, Relation.ReflTransGen (WorkerStep par vertex master n may) (.fresh tasks) s

/-- A task that asks for the global lock: a delete, or an add from a vertex of the graph. -/
def Asks (n : K → Nat) (x : Task) : Prop :=
  if x.add then vertex x.src < n (par x.src) else x.read = false

/-- A worker that registers while the wait of a writer is over does so for a task that asks for
the lock. -/
def Timely (n : K → Nat) (s : Workers T K) (t : T) (x : Task) : Prop :=
  (∃ u, u ≠ t ∧ (s.pc (par x.src) u).alone = true) → Asks par vertex n x

/-! ## The invariant -/

variable {par vertex master} {n : K → Nat}

/-- What is left of an operation on graph `k` closes the section that is open, and a thread in a
call has that call in front. -/
def Carries (n : K → Nat) (k : K) (p : Pc) (op : Op Unit) : Prop :=
  match call_of p with
  | none => Prog.Meets (sections (n k)) op Outside (section_of p)
  | some c => ∃ f : Unit → Op Unit, op = .op (.global c) f ∧
      Prog.Meets (sections (n k)) (f ()) Outside c.next

/-- One worker: it is registered with one lock at most, and outside its operations it is in no
section. -/
structure Fine (n : K → Nat) (pc : K → Pc) (st : Stage K) (reg : Option K) : Prop where
  member : ∀ k, reg = some k ↔ pc k ≠ .unregistered
  running : ∀ k op, st = .running k op → reg = some k ∧ Carries n k (pc k) op
  reading : ∀ k, st = .reading k → reg = some k
  resting : (∀ k op, st ≠ .running k op) → ∀ k, pc k = .unregistered ∨ pc k = .outside

/-- The worker is about to ask for the lock of graph `k`. -/
def Entering (par : Nat → K) (vertex : Nat → Nat) (n : K → Nat) (k : K) : Stage K → Prop
  | .running j op => j = k ∧ Enters (n k) op
  | .taken x => par x.src = k ∧ Asks par vertex n x
  | .loop | .reading _ | .left => False

/-- Beside a writer whose wait is over, a worker that is registered and in no call is about to
ask for the lock. -/
structure Sound [Fintype T] (par : Nat → K) (vertex : Nat → Nat) (n : K → Nat) (s : Workers T K) :
    Prop where
  safe : ∀ k, Safe ⟨s.lock k, s.pc k⟩
  fine : ∀ t, Fine n (fun k => s.pc k t) (s.stage t) (s.registered t)
  late : ∀ k w, (s.pc k w).alone = true → ∀ t, t ≠ w → s.pc k t = .outside →
    Entering par vertex n k (s.stage t)

variable [Fintype T] {s : Workers T K} {t : T}

omit [DecidableEq T] [DecidableEq K] in
theorem fresh_sound (tasks : T → List Task) :
    Sound par vertex n (Workers.fresh (K := K) tasks) := by
  refine ⟨fun _ => start_safe, ?_, ?_⟩
  · intro t
    refine ⟨?_, ?_, ?_, ?_⟩
    · intro k
      simp [Workers.fresh]
    · intro k op h
      cases h
    · intro k h
      cases h
    · exact fun _ _ => .inl rfl
  · intro k w h
    cases h

omit [DecidableEq K] in
/-- The worker moves on without its lock. -/
theorem turn_sound (h : Sound par vertex n s) {st : Stage K}
    (hf : Fine n (fun k => s.pc k t) st (s.registered t))
    (hl : ∀ k, s.pc k t = .outside → Entering par vertex n k (s.stage t) →
      Entering par vertex n k st) : Sound par vertex n (s.turn t st) := by
  refine ⟨h.safe, ?_, ?_⟩
  · intro u
    by_cases hu : u = t
    · subst hu
      simpa [Workers.turn] using hf
    · simpa [Workers.turn, hu] using h.fine u
  · intro k w hw u hu hout
    have hold := h.late k w hw u hu hout
    by_cases hut : u = t
    · subst hut
      simpa [Workers.turn] using hl k hout hold
    · simpa [Workers.turn, hut] using hold

/-- The worker takes a step at the lock that it is registered with, or registers with now. -/
theorem move_sound (h : Sound par vertex n s) {k : K} {q : Pc} {m : FastLock T} {st : Stage K}
    {reg : Option K} (ha : Atomic t (s.pc k t) (s.lock k) q m) (hreg : ∀ j, reg = some j → j = k)
    (hf : Fine n (Function.update (fun j => s.pc j t) k q) st reg)
    (hl : q = .outside → (∃ w, w ≠ t ∧ (s.pc k w).alone = true) → Entering par vertex n k st) :
    Sound par vertex n (s.move t k q m st reg) := by
  have hpc : ∀ u, (fun j => (s.move t k q m st reg).pc j u) =
      if u = t then Function.update (fun j => s.pc j t) k q else fun j => s.pc j u := by
    intro u
    funext j
    by_cases hj : j = k
    · subst hj
      by_cases hu : u = t
      · simp [Workers.move, hu]
      · simp [Workers.move, hu]
    · by_cases hu : u = t
      · simp [Workers.move, hj, hu]
      · simp [Workers.move, hj, hu]
  refine ⟨?_, ?_, ?_⟩
  · intro j
    by_cases hj : j = k
    · subst hj
      have hstep := step_safe (h.safe j) (.thread _ t rfl ha)
      simpa [Workers.move] using hstep
    · simpa [Workers.move, hj] using h.safe j
  · intro u
    rw [hpc u]
    by_cases hu : u = t
    · simpa [Workers.move, hu] using hf
    · simpa [Workers.move, hu] using h.fine u
  · intro j w hw u huw hout
    have hpcj : ∀ v, (s.move t k q m st reg).pc j v =
        if v = t then Function.update (fun j => s.pc j t) k q j else s.pc j v := by
      intro v
      have hv := congrFun (hpc v) j
      split at hv
      · rename_i hvt
        rw [if_pos hvt]
        exact hv
      · rename_i hvt
        rw [if_neg hvt]
        exact hv
    rw [hpcj] at hw hout
    by_cases hj : j = k
    · subst hj
      by_cases hu : u = t
      · subst hu
        rw [if_pos rfl, Function.update_self] at hout
        rw [if_neg (Ne.symm huw)] at hw
        have hgoal := hl hout ⟨w, Ne.symm huw, hw⟩
        simpa [Workers.move] using hgoal
      · rw [if_neg hu] at hout
        have hstage : (s.move t j q m st reg).stage u = s.stage u := by
          simp [Workers.move, hu]
        rw [hstage]
        by_cases hwt : w = t
        · subst hwt
          rw [if_pos rfl, Function.update_self] at hw
          rcases atomic_alone (h.safe j) ha hw with hold | hnone
          · exact h.late j w hold u huw hout
          · exact absurd hout (hnone u)
        · rw [if_neg hwt] at hw
          exact h.late j w hw u huw hout
    · -- at the other locks the worker is not registered
      by_cases hu : u = t
      · subst hu
        rw [if_pos rfl, Function.update_of_ne hj] at hout
        have hmem := (hf.member j).mpr (by
          rw [Function.update_of_ne hj, hout]
          simp)
        exact absurd (hreg j hmem) hj
      · rw [if_neg hu] at hout
        have hw' : (s.pc j w).alone = true := by
          split at hw
          · rename_i hwt
            rw [Function.update_of_ne hj] at hw
            rw [hwt]
            exact hw
          · exact hw
        have hold := h.late j w hw' u huw hout
        simpa [Workers.move, hu] using hold

/-! ## The steps -/

section

variable {pc : K → Pc} {st st' : Stage K} {reg : Option K} {k : K}

omit [DecidableEq K]

/-- A worker that runs no operation is outside. -/
theorem Fine.at_rest (h : Fine n pc st reg) (hrest : ∀ k, pc k = .unregistered ∨ pc k = .outside)
    (hrun : ∀ k op, st' ≠ .running k op) (hread : ∀ k, st' = .reading k → reg = some k) :
    Fine n pc st' reg :=
  ⟨h.member, fun k op hk => absurd hk (hrun k op), hread, fun _ => hrest⟩

theorem Fine.others (h : Fine n pc st (some k)) {j : K} (hj : j ≠ k) : pc j = .unregistered := by
  by_contra hne
  exact hj (Option.some.inj ((h.member j).mpr hne)).symm

/-- The lock of the worker, when it runs no operation. -/
theorem Fine.outside (h : Fine n pc st (some k)) (hrun : ∀ k op, st ≠ .running k op) :
    pc k = .outside := by
  rcases h.resting hrun k with hun | hout
  · exact absurd hun ((h.member k).mp rfl)
  · exact hout

/-- A worker that is not yet registered. -/
theorem Fine.free (h : Fine n pc st none) (k : K) : pc k = .unregistered := by
  by_contra hne
  cases (h.member k).mpr hne

end

/-- A worker that gives its lock up. -/
theorem Fine.unregister {pc : K → Pc} {st st' : Stage K} {k : K} (h : Fine n pc st (some k))
    (hrun : ∀ k op, st' ≠ .running k op) (hread : ∀ k, st' ≠ .reading k) :
    Fine n (Function.update pc k .unregistered) st' none := by
  have hall : ∀ j, Function.update pc k Pc.unregistered j = .unregistered := by
    intro j
    by_cases hj : j = k
    · rw [hj, Function.update_self]
    · rw [Function.update_of_ne hj]
      exact h.others hj
  refine ⟨?_, fun j op hj => absurd hj (hrun j op), fun j hj => absurd hj (hread j),
    fun _ j => .inl (hall j)⟩
  intro j
  rw [hall j]
  simp

/-- A worker inside an operation takes a step at its lock. -/
theorem Fine.inside {pc : K → Pc} {st : Stage K} {k : K} {q : Pc} {op : Op Unit}
    (h : Fine n pc st (some k)) (hq : q ≠ .unregistered) (hc : Carries n k q op) :
    Fine n (Function.update pc k q) (.running k op) (some k) := by
  refine ⟨?_, ?_, ?_, fun hrun => absurd rfl (hrun k op)⟩
  · intro j
    by_cases hj : j = k
    · subst hj
      rw [Function.update_self]
      exact ⟨fun _ => hq, fun _ => rfl⟩
    · rw [Function.update_of_ne hj]
      exact h.member j
  · rintro j op' hj
    obtain ⟨rfl, rfl⟩ := Stage.running.inj hj
    rw [Function.update_self]
    exact ⟨rfl, hc⟩
  · intro j hj
    cases hj

omit [DecidableEq T] [DecidableEq K] [Fintype T] in
/-- The call in front, for a worker that is in it or may come to it. -/
theorem Carries.global {k : K} {p : Pc} {c : GlobalCall} {f : Unit → Op Unit}
    (h : Carries n k p (.op (.global c) f)) :
    (call_of p = none ∨ call_of p = some c) ∧
      Prog.Meets (sections (n k)) (f ()) Outside c.next := by
  unfold Carries at h
  split at h
  · rename_i hp
    exact ⟨.inl hp, h.2 () _ ⟨trivial, rfl⟩⟩
  · rename_i c' hp
    obtain ⟨f', hop, hmeets⟩ := h
    cases hop
    exact ⟨.inr hp, hmeets⟩

omit [DecidableEq T] [DecidableEq K] [Fintype T] in
theorem Carries.in_call {k : K} {p : Pc} {c : GlobalCall} {f : Unit → Op Unit}
    (hp : call_of p = some c) (h : Prog.Meets (sections (n k)) (f ()) Outside c.next) :
    Carries n k p (.op (.global c) f) := by
  unfold Carries
  rw [hp]
  exact ⟨f, rfl, h⟩

omit [DecidableEq T] [DecidableEq K] [Fintype T] in
theorem Carries.free {k : K} {p : Pc} {op : Op Unit} (hp : call_of p = none)
    (h : Prog.Meets (sections (n k)) op Outside (section_of p)) : Carries n k p op := by
  unfold Carries
  rw [hp]
  exact h

omit [DecidableEq T] [DecidableEq K] [Fintype T] in
/-- With another instruction in front, or none, a worker is in no call. -/
theorem Carries.of_free {k : K} {p : Pc} {op : Op Unit} (h : Carries n k p op)
    (hop : ∀ c, ∀ f : Unit → Op Unit, op ≠ .op (.global c) f) :
    call_of p = none ∧ Prog.Meets (sections (n k)) op Outside (section_of p) := by
  unfold Carries at h
  split at h
  · rename_i hp
    exact ⟨hp, h⟩
  · obtain ⟨f, hf, -⟩ := h
    exact absurd hf (hop _ f)

omit [DecidableEq T] [DecidableEq K] [Fintype T] in
theorem op_of_carries (k : K) (calls : Nat) (x : Task) :
    Carries n k .outside (op_of vertex calls x) := by
  apply Carries.free rfl
  unfold op_of
  split
  · exact call_meets_sections _ calls
  · exact call_meets_sections _ calls

omit [DecidableEq T] [DecidableEq K] [Fintype T] in
theorem Asks.enters {x : Task} (h : Asks par vertex n x) (calls : Nat) :
    Enters (n (par x.src)) (op_of vertex calls x) := by
  unfold Asks at h
  unfold op_of
  split at h
  · rename_i hadd
    rw [if_pos hadd]
    exact enters_add_edge h _
  · rename_i hadd
    rw [if_neg hadd]
    exact enters_remove_edge _ _ _

theorem step_sound {s' : Workers T K} (h : Sound par vertex n s)
    (hs : WorkerStep par vertex master n (Timely par vertex n) s s') : Sound par vertex n s' := by
  cases hs with
  | @take t x rest hs hq =>
    have hf := h.fine t
    rw [hs] at hf
    have hturn : Sound par vertex n (s.turn t (.taken x)) := by
      apply turn_sound h (hf.at_rest (hf.resting (by simp)) (by simp) (by simp))
      intro k _ he
      rw [hs] at he
      exact he.elim
    exact ⟨hturn.safe, hturn.fine, hturn.late⟩
  | @unregister_other t x k m hs hr hk ha =>
    have hf := h.fine t
    rw [hr] at hf
    apply move_sound h ha
    · simp
    · exact hf.unregister (by simp) (by simp)
    · simp
  | @register t x m hs hr hmay ha =>
    have hf := h.fine t
    rw [hr, hs] at hf
    have hpc : ∀ j, Function.update (fun j => s.pc j t) (par x.src) Pc.outside j =
        if j = par x.src then .outside else .unregistered := by
      intro j
      by_cases hj : j = par x.src
      · rw [hj, Function.update_self, if_pos rfl]
      · rw [Function.update_of_ne hj, if_neg hj]
        exact hf.free j
    apply move_sound h ha
    · simp
    · refine ⟨?_, by simp, by simp, ?_⟩
      · intro j
        rw [hpc]
        by_cases hj : j = par x.src
        · simp [hj]
        · simp [hj, Ne.symm hj]
      · intro _ j
        rw [hpc]
        by_cases hj : j = par x.src
        · exact .inr (if_pos hj)
        · exact .inl (if_neg hj)
    · exact fun _ hw => ⟨rfl, hmay hw⟩
  | @update t x calls hs hr hx =>
    have hf := h.fine t
    rw [hs, hr] at hf
    have hout := hf.outside (by simp)
    apply turn_sound h
    · rw [hr]
      refine ⟨hf.member, ?_, by simp, fun hrun => absurd rfl (hrun _ _)⟩
      rintro k op hk
      obtain ⟨rfl, rfl⟩ := Stage.running.inj hk
      refine ⟨rfl, ?_⟩
      rw [hout]
      exact op_of_carries _ calls x
    · intro k _ he
      rw [hs] at he
      obtain ⟨rfl, hasks⟩ := he
      exact ⟨rfl, hasks.enters calls⟩
  | @read_neighbourhood t x hs hr hadd hx =>
    have hf := h.fine t
    rw [hs] at hf
    apply turn_sound h
    · apply hf.at_rest (hf.resting (by simp)) (by simp)
      intro k hk
      rw [hr, Stage.reading.inj hk]
    · intro k _ he
      rw [hs] at he
      obtain ⟨-, hasks⟩ := he
      unfold Asks at hasks
      rw [hadd, hx] at hasks
      cases hasks
  | @instr t k β i f b hs hi hb =>
    have hf := h.fine t
    obtain ⟨hreg, hcarries⟩ := hf.running k _ hs
    have hfree := hcarries.of_free (by
      intro c f' he
      cases he
      exact hi)
    rw [hreg] at hf
    apply turn_sound h
    · rw [hreg]
      refine ⟨hf.member, ?_, by simp, fun hrun => absurd rfl (hrun _ _)⟩
      rintro j op hj
      obtain ⟨rfl, rfl⟩ := Stage.running.inj hj
      refine ⟨rfl, .free hfree.1 (hfree.2.2 b _ ⟨hb, (calm_next hi _).2.symm⟩)⟩
    · intro j _ he
      rw [hs] at he
      obtain ⟨rfl, henters⟩ := he
      rcases henters with hno | henters
      · exact absurd hi hno
      · exact ⟨rfl, henters b hb⟩
  | @call t k c f q m hs ha hc hq =>
    have hf := h.fine t
    obtain ⟨hreg, hcarries⟩ := hf.running k _ hs
    rw [hreg] at hf ⊢
    obtain ⟨hcall, hmeets⟩ := hcarries.global
    have hqc : call_of q = some c := by
      rcases hc with hc | rfl
      · rcases atomic_in_call ha (hcall.resolve_left hc) with hin | ⟨hnone, -⟩
        · exact hin
        · exact absurd hnone hq
      · cases c <;> rfl
    apply move_sound h ha (fun j hj => (Option.some.inj hj).symm)
    · apply hf.inside _ (.in_call hqc hmeets)
      rintro rfl
      cases hqc
    · rintro rfl
      cases hqc
  | @back t k c f q m hs ha hc hq =>
    have hf := h.fine t
    obtain ⟨hreg, hcarries⟩ := hf.running k _ hs
    rw [hreg] at hf ⊢
    obtain ⟨hcall, hmeets⟩ := hcarries.global
    rcases atomic_in_call ha (hcall.resolve_left hc) with hin | ⟨-, hun, hsection⟩
    · rw [hq] at hin
      cases hin
    · apply move_sound h ha (fun j hj => (Option.some.inj hj).symm)
      · apply hf.inside hun (.free hq _)
        rw [hsection]
        exact hmeets
      · rintro rfl ⟨w, hw, halone⟩
        have hquiet := (h.safe k).quiet w halone t (Ne.symm hw)
        rw [atomic_out_of_call ha hc] at hquiet
        cases hquiet
  | @ends t k hs =>
    have hf := h.fine t
    obtain ⟨hreg, hcarries⟩ := hf.running k _ hs
    rw [hreg] at hf
    obtain ⟨hfree, hmeets⟩ := hcarries.of_free (by simp)
    have hout : s.pc k t = .unregistered ∨ s.pc k t = .outside := by
      have hsection : section_of (s.pc k t) = .outside := hmeets
      generalize s.pc k t = p at hfree hsection
      cases p <;> simp_all [call_of, section_of]
    apply turn_sound h
    · rw [hreg]
      apply hf.at_rest _ (by simp) (by simp)
      intro j
      by_cases hj : j = k
      · rw [hj]
        exact hout
      · exact .inl (hf.others hj)
    · intro j _ he
      rw [hs] at he
      exact he.2.elim
  | @read_ends t k hs =>
    have hf := h.fine t
    rw [hs] at hf
    apply turn_sound h (hf.at_rest (hf.resting (by simp)) (by simp) (by simp))
    intro j _ he
    rw [hs] at he
    exact he.elim
  | @idle t k m hs hq ht hfin hr ha =>
    have hf := h.fine t
    rw [hr] at hf
    apply move_sound h ha
    · simp
    · exact hf.unregister (by simp) (by simp)
    · simp
  | @leave t hs hq hfin hr =>
    have hf := h.fine t
    rw [hs] at hf
    apply turn_sound h (hf.at_rest (hf.resting (by simp)) (by simp) (by simp))
    intro j _ he
    rw [hs] at he
    exact he.elim
  | @leave_registered t k m hs hq hfin hr ha =>
    have hf := h.fine t
    rw [hr] at hf
    apply move_sound h ha
    · simp
    · exact hf.unregister (by simp) (by simp)
    · simp
  | stop hs => exact ⟨h.safe, h.fine, h.late⟩
  | start hs =>
    refine ⟨h.safe, ?_, ?_⟩
    · intro t
      have hf := h.fine t
      rw [hs t] at hf
      exact hf.at_rest (hf.resting (by simp)) (by simp) (by simp)
    · intro k w hw t ht hout
      have hold := h.late k w hw t ht hout
      rw [hs t] at hold
      exact hold.elim
  | submit t x => exact ⟨h.safe, h.fine, h.late⟩

theorem reachable_sound (h : s.Reachable par vertex master n (Timely par vertex n)) :
    Sound par vertex n s := by
  obtain ⟨tasks, hrun⟩ := h
  induction hrun with
  | refl => exact fresh_sound tasks
  | tail _ hstep ih => exact step_sound ih hstep

/-! ## The law -/

end

/-- In every run where each worker that registers beside a writer whose wait is over does so for a
task that asks for the lock, no worker reads a neighbourhood beside a section under `lock`. -/
theorem a_read_is_beside_no_writer {T K : Type} [DecidableEq T] [Fintype T] [DecidableEq K]
    (par : Nat → K) (vertex : Nat → Nat) (master : T) (n : K → Nat) (s : Workers T K)
    (h : s.Reachable par vertex master n (Timely par vertex n)) (t u : T) (k : K)
    (ht : s.stage t = .reading k) (hu : u ≠ t) : s.pc k u ≠ .exclusive := by
  have hsound := reachable_sound h
  intro hexclusive
  have hf := hsound.fine t
  rw [ht, (hsound.fine t).reading k ht] at hf
  have hlate := hsound.late k u (by rw [hexclusive]; rfl) t (Ne.symm hu) (hf.outside (by simp))
  rw [ht] at hlate
  exact hlate

/-! ## A read beside a writer

Worker 0 has an edge to add whose place is the last slot, which is full. Worker 1 has a read. -/

/-- The program up to its next call of the global lock, on the array `a` of one vertex. -/
def advance : (fuel : Nat) → Op Unit → (a : PCSR) → Op Unit × PCSR
  | 0, p, a => (p, a)
  | _ + 1, .ret r, a => (.ret r, a)
  | _ + 1, .op (.global c) f, a => (.op (.global c) f, a)
  | fuel + 1, .op (.act g) f, a =>
    if a.get_n = 1 then
      match g a with
      | .ok (b, a') => advance fuel (f b) a'
      | .error _ => (.op (.act g) f, a)
    else (.op (.act g) f, a)
  | fuel + 1, .op (.test _ b) f, a => advance fuel (f b) a
  | fuel + 1, .op (.leaf _ _) f, a => advance fuel (f ()) a

def front : Op Unit → Option GlobalCall
  | .op (.global c) _ => some c
  | .op (.act _) _ | .op (.test _ _) _ | .op (.leaf _ _) _ | .ret _ => none

def behind : Op Unit → Op Unit
  | .op (.global _) f => f ()
  | .op (.act g) f => .op (.act g) f
  | .op (.test t b) f => .op (.test t b) f
  | .op (.leaf c i) f => .op (.leaf c i) f
  | .ret r => .ret r

theorem front_eq {p : Op Unit} {c : GlobalCall} (h : front p = some c) :
    ∃ f : Unit → Op Unit, p = .op (.global c) f ∧ behind p = f () := by
  cases p with
  | ret r => cases h
  | op i f =>
    cases i with
    | global c' =>
      cases h
      exact ⟨f, rfl, rfl⟩
    | act g => cases h
    | test t b => cases h
    | leaf c i => cases h

/-- A vertex whose edges fill all slots. -/
def full_end : PCSR where
  N := 4
  items := [⟨0, UINT32_MAX, UINT32_MAX⟩, ⟨0, 3, 1⟩, ⟨0, 4, 1⟩, ⟨0, 10, 1⟩]
  nodes := [⟨0, 3, 3⟩]
  versions := [0]
  lock_bsearch := false

def add_task : Task := ⟨true, false, 0, 9⟩

def read_task : Task := ⟨false, true, 0, 0⟩

def two_tasks (t : Fin 2) : List Task := if t.val = 0 then [add_task] else [read_task]

/-- No condition on the workers. -/
def Anyhow {T K : Type} (_ : Workers T K) (_ : T) (_ : Task) : Prop := True

/-- Worker 0 stands at `st` and `p`, and worker 1 has not begun. -/
structure Scene (may : Workers (Fin 2) Unit → Fin 2 → Task → Prop) (st : Stage Unit) (p : Pc)
    (l : FastLock (Fin 2)) (s : Workers (Fin 2) Unit) : Prop where
  reachable : s.Reachable (fun _ => ()) id 0 (fun _ => 1) may
  stage : s.stage 0 = st
  pc : s.pc () 0 = p
  lock : s.lock () = l
  registered : s.registered 0 = some ()
  stage_one : s.stage 1 = .loop
  tasks_one : s.tasks 1 = [read_task]
  registered_one : s.registered 1 = none
  pc_one : s.pc () 1 = .unregistered

section

variable {may : Workers (Fin 2) Unit → Fin 2 → Task → Prop} {st : Stage Unit} {p : Pc}
  {l : FastLock (Fin 2)}

theorem Workers.Reachable.next {s s' : Workers (Fin 2) Unit}
    (h : s.Reachable (fun _ => ()) id 0 (fun _ => 1) may)
    (hs : WorkerStep (fun _ => ()) id 0 (fun _ => 1) may s s') :
    s'.Reachable (fun _ => ()) id 0 (fun _ => 1) may := by
  obtain ⟨tasks, hrun⟩ := h
  exact ⟨tasks, hrun.tail hs⟩

theorem Scene.turn {s : Workers (Fin 2) Unit} (h : Scene may st p l s) {st' : Stage Unit}
    (hs : WorkerStep (fun _ => ()) id 0 (fun _ => 1) may s (s.turn 0 st')) :
    Scene may st' p l (s.turn 0 st') :=
  ⟨h.reachable.next hs, rfl, h.pc, h.lock, h.registered, h.stage_one, h.tasks_one,
    h.registered_one, h.pc_one⟩

theorem Scene.move {s : Workers (Fin 2) Unit} (h : Scene may st p l s) {st' : Stage Unit} {q : Pc}
    {m : FastLock (Fin 2)}
    (hs : WorkerStep (fun _ => ()) id 0 (fun _ => 1) may s
      (s.move 0 () q m st' (s.registered 0))) :
    Scene may st' q m (s.move 0 () q m st' (s.registered 0)) :=
  ⟨h.reachable.next hs, rfl, rfl, rfl, h.registered, h.stage_one, h.tasks_one,
    h.registered_one, h.pc_one⟩

theorem scene_advance (fuel : Nat) {op : Op Unit} (a : PCSR)
    (h : ∃ s, Scene may (.running () op) p l s) :
    ∃ s, Scene may (.running () (advance fuel op a).1) p l s := by
  induction fuel generalizing op a with
  | zero => exact h
  | succ fuel ih =>
    obtain ⟨s, hs⟩ := h
    cases op with
    | ret r => exact ⟨s, hs⟩
    | op i f =>
      cases i with
      | global c => exact ⟨s, hs⟩
      | test t b => exact ih a ⟨_, hs.turn (.instr s 0 hs.stage trivial (b := b) trivial)⟩
      | leaf c i => exact ih a ⟨_, hs.turn (.instr s 0 hs.stage trivial (b := ()) trivial)⟩
      | act g =>
        unfold advance
        split
        · rename_i hn
          split
          · rename_i b a' hg
            exact ih a' ⟨_, hs.turn (.instr s 0 hs.stage trivial ⟨a, a', hn, hg⟩)⟩
          · exact ⟨s, hs⟩
        · exact ⟨s, hs⟩

theorem scene_call {op : Op Unit} {c : GlobalCall} {q : Pc} {m : FastLock (Fin 2)}
    (h : ∃ s, Scene may (.running () op) p l s) (hf : front op = some c) (ha : Atomic 0 p l q m)
    (hc : call_of p ≠ none ∨ q = c.entry) (hq : call_of q ≠ none) :
    ∃ s, Scene may (.running () op) q m s := by
  obtain ⟨s, hs⟩ := h
  obtain ⟨f, rfl, -⟩ := front_eq hf
  rw [← hs.pc, ← hs.lock] at ha
  rw [← hs.pc] at hc
  exact ⟨_, hs.move (.call s 0 hs.stage ha hc hq)⟩

theorem scene_back {op : Op Unit} {c : GlobalCall} {q : Pc} {m : FastLock (Fin 2)}
    (h : ∃ s, Scene may (.running () op) p l s) (hf : front op = some c) (ha : Atomic 0 p l q m)
    (hc : call_of p ≠ none) (hq : call_of q = none) :
    ∃ s, Scene may (.running () (behind op)) q m s := by
  obtain ⟨s, hs⟩ := h
  obtain ⟨f, rfl, hb⟩ := front_eq hf
  rw [hb]
  rw [← hs.pc, ← hs.lock] at ha
  rw [← hs.pc] at hc
  exact ⟨_, hs.move (.back s 0 hs.stage ha hc hq)⟩

/-- Worker 0 registers for its add. -/
theorem scene_begin (hmay : ∀ s, (∀ u, s.pc () u = .unregistered) → may s 0 add_task) (calls : Nat) :
    ∃ s, Scene may (.running () (op_of id calls add_task)) .outside ⟨⟨none, ∅⟩, false, 1, 0⟩ s := by
  have h₀ : Workers.Reachable (fun _ => ()) id 0 (fun _ => 1) may (.fresh two_tasks) :=
    ⟨two_tasks, .refl⟩
  have h₁ := h₀.next (.take _ 0 (x := add_task) rfl rfl)
  have h₂ := h₁.next (.register _ 0 (x := add_task) rfl rfl (hmay _ fun _ => rfl) (.registerThread _))
  have h₃ := h₂.next (.update _ 0 calls (x := add_task) rfl rfl (.inl rfl))
  exact ⟨_, h₃, rfl, rfl, rfl, rfl, rfl, rfl, rfl, rfl⟩

/-- Worker 1 registers for its read and reads. -/
theorem scene_reads (hmay : ∀ s, s.pc () 0 = p → may s 1 read_task)
    (h : ∃ s, Scene may st p l s) :
    ∃ s : Workers (Fin 2) Unit, s.Reachable (fun _ => ()) id 0 (fun _ => 1) may ∧
      s.stage 1 = .reading () ∧ s.pc () 0 = p := by
  obtain ⟨s, hs⟩ := h
  have h₁ := hs.reachable.next (.take s 1 hs.stage_one hs.tasks_one)
  have h₂ := h₁.next (.register _ 1 rfl hs.registered_one (hmay _ hs.pc) (m := { s.lock () with
    thread_counter := (s.lock ()).thread_counter + 1 }) (by
      change Atomic 1 (s.pc () 1) (s.lock ()) .outside _
      rw [hs.pc_one]
      exact .registerThread _))
  have h₃ := h₂.next (.read_neighbourhood _ 1 (x := read_task) rfl rfl rfl rfl)
  exact ⟨_, h₃, rfl, hs.pc⟩

end

/-- The operation of worker 0 up to its calls of the global lock. -/
def at_lock_shared : Op Unit × PCSR := advance 10 (op_of id 0 add_task) full_end

def at_unlock_shared : Op Unit × PCSR := advance 50 (behind at_lock_shared.1) at_lock_shared.2

def at_lock : Op Unit × PCSR := advance 10 (behind at_unlock_shared.1) at_unlock_shared.2

theorem front_at_lock_shared : front at_lock_shared.1 = some .lock_shared := rfl

theorem front_at_unlock_shared : front at_unlock_shared.1 = some .unlock_shared := rfl

theorem front_at_lock : front at_lock.1 = some .lock := rfl

/-- Worker 0 plans its insertion in a section under `lock_shared`. -/
theorem scene_shared {may : Workers (Fin 2) Unit → Fin 2 → Task → Prop}
    (hmay : ∀ s, (∀ u, s.pc () u = .unregistered) → may s 0 add_task) :
    ∃ s, Scene may (.running () (behind at_lock_shared.1)) .shared ⟨⟨none, ∅⟩, false, 1, 0⟩ s := by
  have h₁ := scene_advance 10 full_end (scene_begin hmay 0)
  have h₂ := scene_call h₁ front_at_lock_shared (.lock_shared _) (.inr rfl) (by decide)
  exact scene_back h₂ front_at_lock_shared (.shared_pass _ false rfl) (by decide) rfl

/-- Worker 0 is about to double the array. -/
theorem scene_exclusive {may : Workers (Fin 2) Unit → Fin 2 → Task → Prop}
    (hmay : ∀ s, (∀ u, s.pc () u = .unregistered) → may s 0 add_task) :
    ∃ s, Scene may (.running () (behind at_lock.1)) .exclusive ⟨⟨some 0, ∅⟩, true, 1, 0⟩ s := by
  have h₁ := scene_advance 50 at_lock_shared.2 (scene_shared hmay)
  have h₂ := scene_call h₁ front_at_unlock_shared (.unlock_shared _) (.inr rfl) (by decide)
  have h₃ := scene_back h₂ front_at_unlock_shared (.shared_pass _ true rfl) (by decide) rfl
  have h₄ := scene_advance 10 at_unlock_shared.2 h₃
  have h₅ := scene_call h₄ front_at_lock (.lock _) (.inr rfl) (by decide)
  have h₆ := scene_call h₅ front_at_lock (.lock_add _) (.inl (by decide)) (by decide)
  have h₇ := scene_call h₆ front_at_lock (.lock_mtx _ rfl rfl) (.inl (by decide)) (by decide)
  have h₈ := scene_call h₇ front_at_lock (.lock_request _) (.inl (by decide)) (by decide)
  have h₉ := scene_call h₈ front_at_lock (.lock_load_arrived _) (.inl (by decide)) (by decide)
  have h₁₀ := scene_call h₉ front_at_lock (.lock_go _ _ (by decide)) (.inl (by decide)) (by decide)
  exact scene_back h₁₀ front_at_lock (.lock_sub _) (by decide) rfl

/-- A read beside an array that doubles. -/
theorem a_read_is_beside_a_writer : ∃ s : Workers (Fin 2) Unit,
    s.Reachable (fun _ => ()) id 0 (fun _ => 1) Anyhow ∧ s.stage 1 = .reading () ∧
      s.pc () 0 = .exclusive :=
  scene_reads (fun _ _ => trivial) (scene_exclusive fun _ _ => trivial)

/-- With a read that registers in time, the writer would wait. -/
theorem a_read_that_registers_in_time : ∃ s : Workers (Fin 2) Unit,
    s.Reachable (fun _ => ()) id 0 (fun _ => 1) (Timely (fun _ => ()) id fun _ => 1) ∧
      s.stage 1 = .reading () ∧ s.pc () 0 ≠ .exclusive := by
  have hbegin : ∃ s, Scene (Timely (fun _ => ()) id fun _ => 1) (.running () (behind at_lock_shared.1))
      .shared ⟨⟨none, ∅⟩, false, 1, 0⟩ s := by
    apply scene_shared
    rintro s hs ⟨u, -, hu⟩
    rw [hs u] at hu
    cases hu
  have hreads := scene_reads (by
    rintro s hs ⟨u, hne, hu⟩
    have h0 : u = 0 := by omega
    rw [h0, hs] at hu
    cases hu) hbegin
  obtain ⟨s, hs, hread, -⟩ := hreads
  exact ⟨s, hs, hread, a_read_is_beside_no_writer (fun _ => ()) id 0 (fun _ => 1) s hs 1 0 () hread
    (by decide)⟩

end packed_csr
