-- The global lock: readers hold nothing inside their sections, and a writer
-- counts the threads that are parked. The laws: a section under `lock` is
-- alone, and neither counter falls below zero.
import Mathlib

namespace fast_lock

/-! ## The lock -/

/-- `std::shared_timed_mutex`: a thread that owns it, or any number that share it. -/
structure Mutex (T : Type) where
  owner : Option T
  sharers : Finset T

/-- The counters are unbounded here, so that a value below zero can be stated. -/
structure FastLock (T : Type) where
  mtx : Mutex T
  lockRequested : Bool
  thread_counter : Int
  arrived_threads : Int

/-- What a thread does next. A call of `unlock_shared` is a call of `lock_shared` that ends
outside: `leaving` tells the two apart. -/
inductive Pc
  | unregistered
  | outside
  | lock_add
  | lock_mtx
  | lock_request
  | lock_load_arrived
  | lock_load_counter (arrived : Int)
  | lock_sub
  | exclusive
  | unlock_request
  | unlock_mtx
  | shared_load (leaving : Bool)
  | shared_add (leaving : Bool)
  | shared_mtx (leaving : Bool)
  | shared_sub (leaving : Bool)
  | shared_release (leaving : Bool)
  | shared
deriving DecidableEq

/-- Where `lock_shared` and `unlock_shared` return to. -/
def Pc.back (leaving : Bool) : Pc := if leaving then .outside else .shared

variable {T : Type}

section

variable [DecidableEq T]

/-- One step of thread `t`: an atomic operation, or a call. -/
inductive Atomic (t : T) : Pc → FastLock T → Pc → FastLock T → Prop
  | registerThread (m : FastLock T) :
      Atomic t .unregistered m .outside { m with thread_counter := m.thread_counter + 1 }
  | unregisterThread (m : FastLock T) :
      Atomic t .outside m .unregistered { m with thread_counter := m.thread_counter - 1 }
  | lock (m : FastLock T) : Atomic t .outside m .lock_add m
  | lock_add (m : FastLock T) :
      Atomic t .lock_add m .lock_mtx { m with arrived_threads := m.arrived_threads + 1 }
  | lock_mtx (m : FastLock T) (ho : m.mtx.owner = none) (hs : m.mtx.sharers = ∅) :
      Atomic t .lock_mtx m .lock_request { m with mtx := { m.mtx with owner := some t } }
  | lock_request (m : FastLock T) :
      Atomic t .lock_request m .lock_load_arrived { m with lockRequested := true }
  | lock_load_arrived (m : FastLock T) :
      Atomic t .lock_load_arrived m (.lock_load_counter m.arrived_threads) m
  | lock_wait (m : FastLock T) (a : Int) (h : a < m.thread_counter) :
      Atomic t (.lock_load_counter a) m .lock_load_arrived m
  | lock_go (m : FastLock T) (a : Int) (h : ¬ a < m.thread_counter) :
      Atomic t (.lock_load_counter a) m .lock_sub m
  | lock_sub (m : FastLock T) :
      Atomic t .lock_sub m .exclusive { m with arrived_threads := m.arrived_threads - 1 }
  | unlock (m : FastLock T) : Atomic t .exclusive m .unlock_request m
  | unlock_request (m : FastLock T) :
      Atomic t .unlock_request m .unlock_mtx { m with lockRequested := false }
  | unlock_mtx (m : FastLock T) :
      Atomic t .unlock_mtx m .outside { m with mtx := { m.mtx with owner := none } }
  | lock_shared (m : FastLock T) : Atomic t .outside m (.shared_load false) m
  | unlock_shared (m : FastLock T) : Atomic t .shared m (.shared_load true) m
  | shared_pass (m : FastLock T) (l : Bool) (h : m.lockRequested = false) :
      Atomic t (.shared_load l) m (.back l) m
  | shared_park (m : FastLock T) (l : Bool) (h : m.lockRequested = true) :
      Atomic t (.shared_load l) m (.shared_add l) m
  | shared_add (m : FastLock T) (l : Bool) :
      Atomic t (.shared_add l) m (.shared_mtx l) { m with arrived_threads := m.arrived_threads + 1 }
  | shared_mtx (m : FastLock T) (l : Bool) (ho : m.mtx.owner = none) :
      Atomic t (.shared_mtx l) m (.shared_sub l)
        { m with mtx := { m.mtx with sharers := insert t m.mtx.sharers } }
  | shared_sub (m : FastLock T) (l : Bool) :
      Atomic t (.shared_sub l) m (.shared_release l)
        { m with arrived_threads := m.arrived_threads - 1 }
  | shared_release (m : FastLock T) (l : Bool) :
      Atomic t (.shared_release l) m (.back l)
        { m with mtx := { m.mtx with sharers := m.mtx.sharers.erase t } }

/-- The lock and its threads. -/
structure System (T : Type) where
  lock : FastLock T
  pc : T → Pc

def start : System T := ⟨⟨⟨none, ∅⟩, false, 0, 0⟩, fun _ => .unregistered⟩

/-- One thread takes a step. -/
inductive Step : System T → System T → Prop
  | thread (s : System T) (t : T) {p q : Pc} {m : FastLock T} (hp : s.pc t = p)
      (h : Atomic t p s.lock q m) : Step s ⟨m, Function.update s.pc t q⟩

def Reachable (s : System T) : Prop := Relation.ReflTransGen Step start s

end

/-! ## What the lock knows about a thread -/

def Pc.registered : Pc → Bool
  | .unregistered => false
  | _ => true

/-- The thread is in `arrived_threads`. -/
def Pc.arrived : Pc → Bool
  | .lock_mtx | .lock_request | .lock_load_arrived | .lock_load_counter _ | .lock_sub => true
  | .shared_mtx _ | .shared_sub _ => true
  | _ => false

/-- The thread owns the mutex. -/
def Pc.owns : Pc → Bool
  | .lock_request | .lock_load_arrived | .lock_load_counter _ | .lock_sub | .exclusive => true
  | .unlock_request | .unlock_mtx => true
  | _ => false

/-- The thread shares the mutex. -/
def Pc.shares : Pc → Bool
  | .shared_sub _ | .shared_release _ => true
  | _ => false

/-- The thread keeps the flag up. -/
def Pc.requests : Pc → Bool
  | .lock_load_arrived | .lock_load_counter _ | .lock_sub | .exclusive | .unlock_request => true
  | _ => false

/-- The wait of the thread is over: it is the only one that goes on. -/
def Pc.alone : Pc → Bool
  | .lock_sub | .exclusive => true
  | _ => false

/-- The thread is in no section, and with the flag up it gets into none. -/
def Pc.quiet : Pc → Bool
  | .unregistered | .outside | .lock_add | .lock_mtx => true
  | .shared_load l => !l
  | .shared_add _ | .shared_mtx _ => true
  | _ => false

/-! ## The counters count -/

section

variable [Fintype T]

/-- The number of threads that stand where `f` says. -/
def threads (f : Pc → Bool) (pc : T → Pc) : Int := ∑ t, if f (pc t) then 1 else 0

theorem threads_nonneg (f : Pc → Bool) (pc : T → Pc) : 0 ≤ threads f pc :=
  Finset.sum_nonneg fun t _ => by split <;> decide

/-- Where the weaker count is no larger, the two agree on each thread. -/
theorem threads_eq {f g : Pc → Bool} (hfg : ∀ p, f p = true → g p = true) {pc : T → Pc}
    (h : threads g pc ≤ threads f pc) (t : T) (hg : g (pc t) = true) : f (pc t) = true := by
  by_contra hf
  have hlt : threads f pc < threads g pc := by
    refine Finset.sum_lt_sum (fun u _ => ?_) ⟨t, Finset.mem_univ t, ?_⟩
    · by_cases hu : f (pc u) = true
      · simp [hu, hfg _ hu]
      · rw [if_neg hu]
        split <;> decide
    · rw [if_neg hf, if_pos hg]
      decide
  omega

variable [DecidableEq T]

theorem threads_update (f : Pc → Bool) (pc : T → Pc) (t : T) (q : Pc) :
    threads f (Function.update pc t q) =
      threads f pc - (if f (pc t) then 1 else 0) + (if f q then 1 else 0) := by
  have hrest : ∀ g : T → Pc, threads f g =
      (if f (g t) then 1 else 0) + ∑ u ∈ Finset.univ.erase t, if f (g u) then 1 else 0 :=
    fun g => (Finset.add_sum_erase _ _ (Finset.mem_univ t)).symm
  have hsame : ∑ u ∈ Finset.univ.erase t, (if f (Function.update pc t q u) then (1 : Int) else 0) =
      ∑ u ∈ Finset.univ.erase t, if f (pc u) then 1 else 0 := by
    refine Finset.sum_congr rfl fun u hu => ?_
    rw [Function.update_of_ne (Finset.ne_of_mem_erase hu)]
  rw [hrest (Function.update pc t q), hrest pc, hsame, Function.update_self]
  omega

/-! ## The invariant -/

structure Safe (s : System T) : Prop where
  counter : s.lock.thread_counter = threads Pc.registered s.pc
  arrived : s.lock.arrived_threads = threads Pc.arrived s.pc
  owner : ∀ t, s.lock.mtx.owner = some t ↔ (s.pc t).owns = true
  sharers : ∀ t, t ∈ s.lock.mtx.sharers ↔ (s.pc t).shares = true
  apart : s.lock.mtx.owner ≠ none → s.lock.mtx.sharers = ∅
  flag : ∀ t, (s.pc t).requests = true → s.lock.lockRequested = true
  /-- The number that a writer has read is still there: no one that is parked gets away. -/
  seen : ∀ t a, s.pc t = .lock_load_counter a → a ≤ s.lock.arrived_threads
  quiet : ∀ t, (s.pc t).alone = true → ∀ u, u ≠ t → (s.pc u).quiet = true

omit [DecidableEq T] in
theorem start_safe : Safe (start : System T) where
  counter := by simp [start, threads, Pc.registered]
  arrived := by simp [start, threads, Pc.arrived]
  owner := by simp [start, Pc.owns]
  sharers := by simp [start, Pc.shares]
  apart := by simp [start]
  flag := by simp [start, Pc.requests]
  seen := by simp [start]
  quiet := by simp [start, Pc.alone]

variable {s : System T} {t : T} {p q : Pc} {m : FastLock T}

theorem atomic_counter (hs : Safe s) (hp : s.pc t = p) (h : Atomic t p s.lock q m) :
    m.thread_counter = threads Pc.registered (Function.update s.pc t q) := by
  rw [threads_update, hp, ← hs.counter]
  cases h with
  | shared_pass _ l | shared_release _ l => cases l <;> simp [Pc.registered, Pc.back]
  | _ => simp [Pc.registered]

theorem atomic_arrived (hs : Safe s) (hp : s.pc t = p) (h : Atomic t p s.lock q m) :
    m.arrived_threads = threads Pc.arrived (Function.update s.pc t q) := by
  rw [threads_update, hp, ← hs.arrived]
  cases h with
  | shared_pass _ l | shared_release _ l => cases l <;> simp [Pc.arrived, Pc.back]
  | _ => simp [Pc.arrived]

theorem atomic_owner (hs : Safe s) (hp : s.pc t = p) (h : Atomic t p s.lock q m) (u : T) :
    m.mtx.owner = some u ↔ (Function.update s.pc t q u).owns = true := by
  have hu := hs.owner u
  have ht := hs.owner t
  rw [hp] at ht
  by_cases hut : u = t
  · subst hut
    rw [Function.update_self]
    cases h with
    | shared_pass _ l | shared_release _ l => cases l <;> simp_all [Pc.owns, Pc.back]
    | _ => simp_all [Pc.owns]
  · rw [Function.update_of_ne hut]
    cases h <;> simp_all [Pc.owns, Ne.symm hut]

theorem atomic_sharers (hs : Safe s) (hp : s.pc t = p) (h : Atomic t p s.lock q m) (u : T) :
    u ∈ m.mtx.sharers ↔ (Function.update s.pc t q u).shares = true := by
  have hu := hs.sharers u
  by_cases hut : u = t
  · subst hut
    rw [hp] at hu
    rw [Function.update_self]
    cases h with
    | shared_pass _ l | shared_release _ l => cases l <;> simp_all [Pc.shares, Pc.back]
    | _ => simp_all [Pc.shares]
  · rw [Function.update_of_ne hut]
    cases h <;> simp_all

theorem atomic_apart (hs : Safe s) (h : Atomic t p s.lock q m) :
    m.mtx.owner ≠ none → m.mtx.sharers = ∅ := by
  have ha := hs.apart
  cases h <;> simp_all

omit [DecidableEq T] in
/-- A thread that owns the mutex is the only one. -/
theorem Safe.owner_unique (hs : Safe s) {u : T} (ht : (s.pc t).owns = true)
    (hu : (s.pc u).owns = true) : u = t := by
  have h := (hs.owner t).mpr ht
  rw [(hs.owner u).mpr hu] at h
  exact Option.some.inj h

theorem requests_owns {p : Pc} (h : p.requests = true) : p.owns = true := by
  cases p <;> simp_all [Pc.requests, Pc.owns]

theorem alone_requests {p : Pc} (h : p.alone = true) : p.requests = true := by
  cases p <;> simp_all [Pc.requests, Pc.alone]

theorem arrived_registered {p : Pc} (h : p.arrived = true) : p.registered = true := by
  cases p <;> simp_all [Pc.arrived, Pc.registered]

/-- Only the owner of the mutex takes the flag down. -/
theorem atomic_flag (hs : Safe s) (hp : s.pc t = p) (h : Atomic t p s.lock q m) (u : T)
    (hu : (Function.update s.pc t q u).requests = true) : m.lockRequested = true := by
  by_cases hut : u = t
  · subst hut
    rw [Function.update_self] at hu
    have hf := hs.flag u
    rw [hp] at hf
    cases h with
    | shared_pass _ l | shared_release _ l => cases l <;> simp_all [Pc.requests, Pc.back]
    | _ => simp_all [Pc.requests]
  · rw [Function.update_of_ne hut] at hu
    have hf := hs.flag u hu
    have hne : p.owns = false := by
      by_contra hp'
      rw [Bool.not_eq_false, ← hp] at hp'
      exact hut (hs.owner_unique hp' (requests_owns hu))
    cases h <;> simp_all [Pc.owns]

/-- While a writer holds the mutex, the other threads that have arrived stay. -/
theorem atomic_stays (hs : Safe s) (hp : s.pc t = p) (h : Atomic t p s.lock q m) {u : T}
    (hut : u ≠ t) (hu : (s.pc u).owns = true) : s.lock.arrived_threads ≤ m.arrived_threads := by
  have hne : p.owns = false := by
    by_contra hp'
    rw [Bool.not_eq_false, ← hp] at hp'
    exact hut (hs.owner_unique hp' hu)
  have hns : p.shares = false := by
    by_contra hp'
    rw [Bool.not_eq_false, ← hp] at hp'
    have hmem := (hs.sharers t).mpr hp'
    rw [hs.apart (by rw [(hs.owner u).mpr hu]; simp)] at hmem
    exact absurd hmem (Finset.notMem_empty t)
  cases h <;> simp_all [Pc.owns, Pc.shares]

theorem atomic_seen (hs : Safe s) (hp : s.pc t = p) (h : Atomic t p s.lock q m) (u : T) (a : Int)
    (hu : Function.update s.pc t q u = .lock_load_counter a) : a ≤ m.arrived_threads := by
  by_cases hut : u = t
  · subst hut
    rw [Function.update_self] at hu
    cases h with
    | lock_load_arrived => cases hu; rfl
    | shared_pass _ l | shared_release _ l => cases l <;> simp [Pc.back] at hu
    | _ => cases hu
  · rw [Function.update_of_ne hut] at hu
    exact (hs.seen u a hu).trans (atomic_stays hs hp h hut (by simp [hu, Pc.owns]))

omit [DecidableEq T] in
/-- A writer goes on when each registered thread has arrived. -/
theorem Safe.all_arrived (hs : Safe s) {a : Int} (ht : s.pc t = .lock_load_counter a)
    (ha : ¬ a < s.lock.thread_counter) (u : T) (hu : (s.pc u).registered = true) :
    (s.pc u).arrived = true := by
  have hseen := hs.seen t a ht
  have hcount : threads Pc.registered s.pc ≤ threads Pc.arrived s.pc := by
    rw [← hs.counter, ← hs.arrived]
    omega
  exact threads_eq (fun p => arrived_registered) hcount u hu

omit [DecidableEq T] in
/-- So the others are parked or wait for the mutex. -/
theorem Safe.all_parked (hs : Safe s) {a : Int} (ht : s.pc t = .lock_load_counter a)
    (ha : ¬ a < s.lock.thread_counter) {u : T} (hut : u ≠ t) : (s.pc u).quiet = true := by
  have htown : (s.pc t).owns = true := by simp [ht, Pc.owns]
  have hown : (s.pc u).owns = false := by
    by_contra h
    exact hut (hs.owner_unique htown (by simpa using h))
  have hshare : (s.pc u).shares = false := by
    by_contra h
    have hmem := (hs.sharers u).mpr (by simpa using h)
    rw [hs.apart (by rw [(hs.owner t).mpr htown]; simp)] at hmem
    exact absurd hmem (Finset.notMem_empty u)
  have harr := hs.all_arrived ht ha u
  cases hpc : s.pc u <;> simp_all [Pc.registered, Pc.arrived, Pc.owns, Pc.shares, Pc.quiet]

/-- With the flag up and the mutex owned by another, a quiet thread stays quiet. -/
theorem atomic_keeps_quiet (hs : Safe s) (hp : s.pc t = p) (h : Atomic t p s.lock q m) {u : T}
    (hu : (s.pc u).alone = true) (hq : p.quiet = true) : q.quiet = true := by
  have hflag := hs.flag u (alone_requests hu)
  have howner := (hs.owner u).mpr (requests_owns (alone_requests hu))
  cases h <;> simp_all [Pc.quiet]

theorem atomic_quiet (hs : Safe s) (hp : s.pc t = p) (h : Atomic t p s.lock q m) (w : T)
    (hw : (Function.update s.pc t q w).alone = true) (u : T) (huw : u ≠ w) :
    (Function.update s.pc t q u).quiet = true := by
  by_cases hwt : w = t
  · subst hwt
    rw [Function.update_self] at hw
    rw [Function.update_of_ne huw]
    have hq := fun h => hs.quiet w h u huw
    rw [hp] at hq
    cases h with
    | lock_go _ a ha => exact hs.all_parked hp ha huw
    | lock_sub => exact hq rfl
    | shared_pass _ l | shared_release _ l => cases l <;> simp [Pc.back, Pc.alone] at hw
    | _ => simp [Pc.alone] at hw
  · rw [Function.update_of_ne hwt] at hw
    by_cases hut : u = t
    · subst hut
      rw [Function.update_self]
      exact atomic_keeps_quiet hs hp h hw (hp ▸ hs.quiet w hw u huw)
    · rw [Function.update_of_ne hut]
      exact hs.quiet w hw u huw

theorem step_safe {s' : System T} (hs : Safe s) (h : Step s s') : Safe s' := by
  cases h with
  | thread t hp h => exact {
      counter := atomic_counter hs hp h
      arrived := atomic_arrived hs hp h
      owner := atomic_owner hs hp h
      sharers := atomic_sharers hs hp h
      apart := atomic_apart hs h
      flag := atomic_flag hs hp h
      seen := atomic_seen hs hp h
      quiet := atomic_quiet hs hp h }

theorem reachable_safe (h : Reachable s) : Safe s := by
  induction h with
  | refl => exact start_safe
  | tail _ h ih => exact step_safe ih h

/-! ## Exclusion -/

/-- A section between `lock` and `unlock` is alone, and the counters stay at zero or above. -/
theorem a_lock_section_is_alone (h : Reachable s) :
    (∀ t, s.pc t = .exclusive → ∀ u, u ≠ t → s.pc u ≠ .shared ∧ s.pc u ≠ .exclusive) ∧
      0 ≤ s.lock.thread_counter ∧ 0 ≤ s.lock.arrived_threads := by
  have hs := reachable_safe h
  refine ⟨fun t ht u hut => ?_, ?_, ?_⟩
  · have hq := hs.quiet t (by simp [ht, Pc.alone]) u hut
    constructor <;> intro hu <;> simp [hu, Pc.quiet] at hq
  · rw [hs.counter]
    exact threads_nonneg _ _
  · rw [hs.arrived]
    exact threads_nonneg _ _

end

/-- A run of two threads: 1 is in a shared section while 0 asks for the lock, and 0 waits
until 1 is parked in `unlock_shared`. -/
theorem a_writer_waits_for_a_reader :
    ∃ s : System (Fin 2), Reachable s ∧ s.pc 0 = .exclusive ∧ s.pc 1 = .shared_mtx true := by
  refine ⟨_, Relation.ReflTransGen.refl
    |>.tail (.thread _ 0 rfl (.registerThread _)) |>.tail (.thread _ 1 rfl (.registerThread _))
    |>.tail (.thread _ 1 rfl (.lock_shared _)) |>.tail (.thread _ 1 rfl (.shared_pass _ _ rfl))
    |>.tail (.thread _ 0 rfl (.lock _)) |>.tail (.thread _ 0 rfl (.lock_add _))
    |>.tail (.thread _ 0 rfl (.lock_mtx _ rfl rfl)) |>.tail (.thread _ 0 rfl (.lock_request _))
    |>.tail (.thread _ 0 rfl (.lock_load_arrived _))
    |>.tail (.thread _ 0 rfl (.lock_wait _ _ (by decide)))
    |>.tail (.thread _ 1 rfl (.unlock_shared _)) |>.tail (.thread _ 1 rfl (.shared_park _ _ rfl))
    |>.tail (.thread _ 1 rfl (.shared_add _ _)) |>.tail (.thread _ 0 rfl (.lock_load_arrived _))
    |>.tail (.thread _ 0 rfl (.lock_go _ _ (by decide))) |>.tail (.thread _ 0 rfl (.lock_sub _)),
    rfl, rfl⟩

/-- There 1 is in no section. -/
theorem a_lock_section_is_alone_for_two : ∃ s : System (Fin 2), s.pc 0 = .exclusive ∧
    s.pc 1 ≠ .shared ∧ s.pc 1 ≠ .exclusive := by
  obtain ⟨s, hs, h0, _⟩ := a_writer_waits_for_a_reader
  exact ⟨s, h0, (a_lock_section_is_alone hs).1 0 h0 1 (by decide)⟩

end fast_lock
