-- The global lock comes to rest: whatever its threads are in the middle of, they can all get
-- out again, and a lock that nobody uses is as it was made.
import PackedCsr.FastLock

namespace fast_lock

section

variable {T : Type} [DecidableEq T] {s s' : System T} {t : T} {p q : Pc} {m : FastLock T}

/-! ## The flag -/

/-- The flag is up for a thread only. -/
def Raised (s : System T) : Prop := s.lock.lockRequested = true → ∃ t, (s.pc t).requests = true

/-- A thread that takes the flag down or puts it up is the one that it stands for. -/
theorem atomic_raised (hp : s.pc t = p) (h : Atomic t p s.lock q m) (hr : Raised s) :
    Raised ⟨m, Function.update s.pc t q⟩ := by
  intro hm
  -- the flag was up before, and the thread is not the one that takes it down
  have hkeep : (p.requests = true → q.requests = true) → s.lock.lockRequested = true →
      ∃ u, (Function.update s.pc t q u).requests = true := by
    intro hpq hflag
    obtain ⟨u, hu⟩ := hr hflag
    by_cases hut : u = t
    · subst hut
      rw [hp] at hu
      exact ⟨u, by rw [Function.update_self]; exact hpq hu⟩
    · exact ⟨u, by rw [Function.update_of_ne hut]; exact hu⟩
  cases h with
  | lock_request =>
    refine ⟨t, ?_⟩
    show (Function.update s.pc t .lock_load_arrived t).requests = true
    rw [Function.update_self]
    rfl
  | unlock_request => cases hm
  | shared_pass _ l | shared_release _ l => exact hkeep (fun h => by cases h) hm
  | _ => exact hkeep (fun h => by simp_all [Pc.requests]) hm

theorem reachable_raised (h : Reachable s) : Raised s := by
  induction h with
  | refl =>
    intro hflag
    cases hflag
  | tail _ h ih =>
    cases h with
    | thread t hp h => exact atomic_raised hp h ih

/-! ## The way out -/

/-- How far a thread is from having left, when it asks for nothing more. -/
def Pc.rank : Pc → Nat
  | .unregistered => 0
  | .outside => 1
  | .unlock_mtx => 2
  | .unlock_request => 3
  | .exclusive => 4
  | .lock_sub => 5
  | .lock_load_counter _ | .lock_load_arrived => 6
  | .lock_request => 7
  | .lock_mtx => 8
  | .lock_add => 9
  | .shared_release l => if l then 2 else 8
  | .shared_sub l => if l then 3 else 9
  | .shared_mtx l => if l then 4 else 10
  | .shared_add l => if l then 5 else 11
  | .shared_load l => if l then 6 else 12
  | .shared => 7

/-- The thread waits: for the mutex, or for the others to arrive. -/
def Pc.waits : Pc → Bool
  | .lock_mtx | .lock_load_arrived | .lock_load_counter _ | .shared_mtx _ => true
  | _ => false

/-- A thread that does not wait can go on, on its way out. -/
theorem goes_on (t : T) (m : FastLock T) (hin : p.registered = true) (hgo : p.waits = false) :
    ∃ q m', Atomic t p m q m' ∧ q.rank < p.rank := by
  cases p with
  | unregistered => cases hin
  | outside => exact ⟨_, _, .unregisterThread m, by decide⟩
  | lock_add => exact ⟨_, _, .lock_add m, by decide⟩
  | lock_request => exact ⟨_, _, .lock_request m, by decide⟩
  | lock_sub => exact ⟨_, _, .lock_sub m, by decide⟩
  | exclusive => exact ⟨_, _, .unlock m, by decide⟩
  | unlock_request => exact ⟨_, _, .unlock_request m, by decide⟩
  | unlock_mtx => exact ⟨_, _, .unlock_mtx m, by decide⟩
  | shared => exact ⟨_, _, .unlock_shared m, by decide⟩
  | shared_load l =>
    cases hflag : m.lockRequested with
    | false => exact ⟨_, _, .shared_pass m l hflag, by cases l <;> decide⟩
    | true => exact ⟨_, _, .shared_park m l hflag, by cases l <;> decide⟩
  | shared_add l => exact ⟨_, _, .shared_add m l, by cases l <;> decide⟩
  | shared_sub l => exact ⟨_, _, .shared_sub m l, by cases l <;> decide⟩
  | shared_release l => exact ⟨_, _, .shared_release m l, by cases l <;> decide⟩
  | lock_mtx | lock_load_arrived | lock_load_counter _ | shared_mtx _ => cases hgo

variable [Fintype T]

def weight (pc : T → Pc) : Nat := ∑ t, (pc t).rank

theorem weight_update (pc : T → Pc) (t : T) (h : q.rank < (pc t).rank) :
    weight (Function.update pc t q) < weight pc := by
  refine Finset.sum_lt_sum (fun u _ => ?_) ⟨t, Finset.mem_univ t, ?_⟩
  · by_cases hut : u = t
    · subst hut
      rw [Function.update_self]
      exact h.le
    · rw [Function.update_of_ne hut]
  · rw [Function.update_self]
    exact h

/-- The wait of a writer ends where all the others wait too: each that is registered has arrived. -/
theorem writer_goes_on (hs : Safe s) (hwait : ∀ u, (s.pc u).registered = true → (s.pc u).waits = true)
    (ht : (s.pc t).owns = true) :
    ∃ s', Relation.ReflTransGen Step s s' ∧ weight s'.pc < weight s.pc := by
  have hcount : ¬ s.lock.arrived_threads < s.lock.thread_counter := by
    rw [hs.counter, hs.arrived, not_lt]
    refine Finset.sum_le_sum fun u _ => ?_
    have hu := hwait u
    cases hpc : s.pc u <;> simp_all [Pc.registered, Pc.arrived, Pc.waits]
  -- it reads both counters once more
  have hread : ∀ pc : T → Pc, pc t = .lock_load_arrived → weight pc = weight s.pc →
      ∃ s', Relation.ReflTransGen Step ⟨s.lock, pc⟩ s' ∧ weight s'.pc < weight s.pc := by
    intro pc hpc hw
    refine ⟨_, Relation.ReflTransGen.head (.thread ⟨s.lock, pc⟩ t hpc (.lock_load_arrived _))
      (.single (.thread _ t (Function.update_self t _ _) (.lock_go _ _ hcount))), ?_⟩
    dsimp only
    rw [Function.update_idem, ← hw]
    apply weight_update
    rw [hpc]
    decide
  have htw := hwait t (by cases hpc : s.pc t <;> simp_all [Pc.registered, Pc.owns])
  cases hpc : s.pc t with
  | lock_load_arrived => exact hread s.pc hpc rfl
  | lock_load_counter a =>
    by_cases ha : a < s.lock.thread_counter
    · obtain ⟨s', hrun, hlt⟩ := hread (Function.update s.pc t .lock_load_arrived)
        (Function.update_self t _ _) (by
          refine Finset.sum_congr rfl fun u _ => ?_
          by_cases hut : u = t
          · subst hut
            rw [Function.update_self, hpc]
            rfl
          · rw [Function.update_of_ne hut])
      exact ⟨s', Relation.ReflTransGen.head (.thread s t hpc (.lock_wait _ a ha)) hrun, hlt⟩
    · refine ⟨_, Relation.ReflTransGen.single (.thread s t hpc (.lock_go _ a ha)), ?_⟩
      apply weight_update
      rw [hpc]
      exact Nat.lt_succ_self 5
  | _ => simp_all [Pc.owns, Pc.waits]

/-- As long as a thread is registered, the threads can come closer to having left. -/
theorem moves_out (hs : Safe s) (hin : (s.pc t).registered = true) :
    ∃ s', Relation.ReflTransGen Step s s' ∧ weight s'.pc < weight s.pc := by
  by_cases hgo : ∃ u, (s.pc u).registered = true ∧ (s.pc u).waits = false
  · obtain ⟨u, hu, hgo⟩ := hgo
    obtain ⟨q, m, h, hlt⟩ := goes_on u s.lock hu hgo
    exact ⟨_, Relation.ReflTransGen.single (.thread s u rfl h), weight_update _ _ hlt⟩
  · have hwait : ∀ u, (s.pc u).registered = true → (s.pc u).waits = true := by
      intro u hu
      by_contra hno
      exact hgo ⟨u, hu, by simpa using hno⟩
    by_cases hown : ∃ u, (s.pc u).owns = true
    · obtain ⟨u, hu⟩ := hown
      exact writer_goes_on hs hwait hu
    · -- all wait for the mutex, and it is free
      have hfree : s.lock.mtx.owner = none := by
        rw [Option.eq_none_iff_forall_not_mem]
        intro u hu
        exact hown ⟨u, (hs.owner u).mp hu⟩
      have hshare : s.lock.mtx.sharers = ∅ := by
        rw [Finset.eq_empty_iff_forall_notMem]
        intro u hu
        have hsh := (hs.sharers u).mp hu
        have hw := hwait u
        cases hpc : s.pc u <;> simp_all [Pc.registered, Pc.waits, Pc.shares]
      have htw := hwait t hin
      cases hpc : s.pc t with
      | lock_mtx =>
        refine ⟨_, Relation.ReflTransGen.single (.thread s t hpc (.lock_mtx _ hfree hshare)), ?_⟩
        apply weight_update
        rw [hpc]
        decide
      | shared_mtx l =>
        refine ⟨_, Relation.ReflTransGen.single (.thread s t hpc (.shared_mtx _ l hfree)), ?_⟩
        apply weight_update
        rw [hpc]
        cases l <;> decide
      | lock_load_arrived => exact absurd ⟨t, by rw [hpc]; rfl⟩ hown
      | lock_load_counter a => exact absurd ⟨t, by rw [hpc]; rfl⟩ hown
      | _ => simp_all [Pc.waits]

omit [DecidableEq T] in
/-- Where no thread is registered, the lock is as it was made. -/
theorem left_alone (hs : Safe s) (hr : Raised s) (hout : ∀ t, s.pc t = .unregistered) : s = start := by
  obtain ⟨⟨⟨owner, sharers⟩, flag, counter, arrived⟩, pc⟩ := s
  obtain rfl : pc = fun _ => .unregistered := funext hout
  have howner : owner = none := by
    rw [Option.eq_none_iff_forall_not_mem]
    intro u hu
    cases (hs.owner u).mp hu
  have hshare : sharers = ∅ := by
    rw [Finset.eq_empty_iff_forall_notMem]
    intro u hu
    cases (hs.sharers u).mp hu
  have hflag : flag = false := by
    rw [Bool.eq_false_iff]
    intro hf
    obtain ⟨u, hu⟩ := hr hf
    cases hu
  have hcounter : counter = 0 := by
    have h := hs.counter
    simpa [threads, Pc.registered] using h
  have harrived : arrived = 0 := by
    have h := hs.arrived
    simpa [threads, Pc.arrived] using h
  rw [howner, hshare, hflag, hcounter, harrived]
  rfl

/-! ## The law -/

/-- From each state that a run reaches, the threads can all leave, and then the lock is as it was
made: no thread ever waits for good. A lock with no thread registered is in that state already. -/
theorem the_lock_can_come_to_rest (h : Reachable s) :
    Relation.ReflTransGen Step s start ∧ ((∀ t, s.pc t = .unregistered) → s = start) := by
  have hleft : ∀ {s : System T}, Reachable s → (∀ t, s.pc t = .unregistered) → s = start :=
    fun h => left_alone (reachable_safe h) (reachable_raised h)
  refine ⟨?_, hleft h⟩
  induction hw : weight s.pc using Nat.strong_induction_on generalizing s with
  | _ w ih =>
    subst hw
    by_cases hout : ∀ t, s.pc t = .unregistered
    · rw [hleft h hout]
    · obtain ⟨t, ht⟩ := not_forall.mp hout
      have hin : (s.pc t).registered = true := by
        cases hpc : s.pc t <;> simp_all [Pc.registered]
      obtain ⟨s', hrun, hlt⟩ := moves_out (reachable_safe h) hin
      exact hrun.trans (ih _ hlt (h.trans hrun) rfl)

end

/-- Two threads, one parked behind the section of the other, can both leave. -/
theorem the_lock_can_come_to_rest_after_a_wait : ∃ s : System (Fin 2),
    s.pc 0 = .exclusive ∧ s.pc 1 = .shared_mtx true ∧ Relation.ReflTransGen Step s start := by
  obtain ⟨s, hs, h0, h1⟩ := a_writer_waits_for_a_reader
  exact ⟨s, h0, h1, (the_lock_can_come_to_rest hs).1⟩

end fast_lock
