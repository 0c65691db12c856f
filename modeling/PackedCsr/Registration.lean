-- The workers of a pool and the locks that they register with. The law: in every run, what the
-- workers do at a lock is a run of that lock, each operation finds its calls where they may come,
-- and a pool that has stopped leaves its locks as they were made.
import PackedCsr.Quiescence
import PackedCsr.ReadTasks

namespace packed_csr

open effects fast_lock thread_pool

section

variable {T K : Type} [DecidableEq T] [DecidableEq K] {par : Nat → K} {vertex : Nat → Nat} {master : T}
  {n : K → Nat} {may : Workers T K → T → Task → Prop} {s s' : Workers T K} {t : T}

/-! ## The invariant -/

/-- The threads of lock `k`. -/
def Workers.at_ (s : Workers T K) (k : K) : System T := ⟨s.lock k, s.pc k⟩

/-- At each lock, a run of the lock. A worker is registered where its task is, and nowhere when it
has left. -/
structure Orderly (n : K → Nat) (s : Workers T K) : Prop where
  lock : ∀ k, fast_lock.Reachable (s.at_ k)
  fine : ∀ t, Fine n (fun k => s.pc k t) (s.stage t) (s.registered t)
  left : ∀ t, s.stage t = .left → s.registered t = none

omit [DecidableEq K] in
theorem fresh_orderly (tasks : T → List Task) : Orderly n (Workers.fresh (K := K) tasks) := by
  refine ⟨fun k => .refl, fun t => ⟨fun k => ?_, ?_, ?_, fun _ _ => .inl rfl⟩, fun _ _ => rfl⟩
  · simp [Workers.fresh]
  · intro k op h
    cases h
  · intro k h
    cases h

omit [DecidableEq K] in
/-- The worker moves on without its lock. -/
theorem turn_orderly (h : Orderly n s) {st : Stage K} (hf : Fine n (fun k => s.pc k t) st (s.registered t))
    (hl : st = .left → s.registered t = none) : Orderly n (s.turn t st) := by
  refine ⟨h.lock, fun u => ?_, fun u hu => ?_⟩
  · by_cases hut : u = t
    · subst hut
      simpa [Workers.turn] using hf
    · simpa [Workers.turn, hut] using h.fine u
  · by_cases hut : u = t
    · subst hut
      exact hl (by simpa [Workers.turn] using hu)
    · exact h.left u (by simpa [Workers.turn, hut] using hu)

/-- The worker takes a step at lock `k`: a step of that lock, and of no other. -/
theorem move_orderly (h : Orderly n s) {k : K} {q : Pc} {m : FastLock T} {st : Stage K} {reg : Option K}
    (ha : Atomic t (s.pc k t) (s.lock k) q m) (hf : Fine n (Function.update (fun j => s.pc j t) k q) st reg)
    (hl : st = .left → reg = none) : Orderly n (s.move t k q m st reg) := by
  refine ⟨fun j => ?_, fun u => ?_, fun u hu => ?_⟩
  · by_cases hj : j = k
    · subst hj
      have hstep : fast_lock.Reachable _ := (h.lock j).tail (.thread (s.at_ j) t rfl ha)
      simpa [Workers.at_, Workers.move] using hstep
    · simpa [Workers.at_, Workers.move, hj] using h.lock j
  · have hpc : (fun j => (s.move t k q m st reg).pc j u) =
        if u = t then Function.update (fun j => s.pc j t) k q else fun j => s.pc j u := by
      funext j
      by_cases hj : j = k <;> by_cases hut : u = t <;> simp [Workers.move, hj, hut]
    rw [hpc]
    by_cases hut : u = t
    · simpa [Workers.move, hut] using hf
    · simpa [Workers.move, hut] using h.fine u
  · by_cases hut : u = t
    · subst hut
      have hst : st = .left := by simpa [Workers.move] using hu
      simpa [Workers.move] using hl hst
    · have hold := h.left u (by simpa [Workers.move, hut] using hu)
      simpa [Workers.move, hut] using hold

/-! ## The steps -/

/-- A worker that registers for its task. -/
theorem Fine.register {pc : K → Pc} {x : Task} (k : K) (h : Fine n pc (.taken x) none) :
    Fine n (Function.update pc k .outside) (.taken x) (some k) := by
  have hpc : ∀ j, Function.update pc k Pc.outside j = if j = k then .outside else .unregistered := by
    intro j
    by_cases hj : j = k
    · rw [hj, Function.update_self, if_pos rfl]
    · rw [Function.update_of_ne hj, if_neg hj]
      exact h.free j
  refine ⟨fun j => ?_, by simp, by simp, fun _ j => ?_⟩
  · rw [hpc]
    by_cases hj : j = k
    · simp [hj]
    · simp [hj, Ne.symm hj]
  · rw [hpc]
    by_cases hj : j = k
    · exact .inr (if_pos hj)
    · exact .inl (if_neg hj)

omit [DecidableEq T] [DecidableEq K] in
/-- A worker whose operation is at a call. -/
theorem Fine.at_call {pc : K → Pc} {reg : Option K} {k : K} {c : GlobalCall} {f : Unit → Op Unit}
    (h : Fine n pc (.running k (.op (.global c) f)) reg) :
    reg = some k ∧ (call_of (pc k) = none ∨ call_of (pc k) = some c) ∧
      Prog.Meets (sections (n k)) (f ()) Outside c.next := by
  obtain ⟨hreg, hcarries⟩ := h.running k _ rfl
  exact ⟨hreg, hcarries.global⟩

theorem step_orderly (h : Orderly n s) (hs : WorkerStep par vertex master n may s s') : Orderly n s' := by
  cases hs with
  | @take t x rest hs hq =>
    have hf := h.fine t
    rw [hs] at hf
    have hturn : Orderly n (s.turn t (.taken x)) :=
      turn_orderly h (hf.at_rest (hf.resting (by simp)) (by simp) (by simp)) (by simp)
    exact ⟨hturn.lock, hturn.fine, hturn.left⟩
  | @unregister_other t x k m hs hr hk ha =>
    have hf := h.fine t
    rw [hr] at hf
    exact move_orderly h ha (hf.unregister (by simp) (by simp)) (by simp)
  | @register t x m hs hr hmay ha =>
    have hf := h.fine t
    rw [hr, hs] at hf
    exact move_orderly h ha (hf.register _) (by simp)
  | @update t x calls hs hr hx =>
    have hf := h.fine t
    rw [hs, hr] at hf
    have hout := hf.outside (by simp)
    refine turn_orderly h ?_ (by simp)
    rw [hr]
    refine ⟨hf.member, ?_, by simp, fun hrun => absurd rfl (hrun _ _)⟩
    rintro k op hk
    obtain ⟨rfl, rfl⟩ := Stage.running.inj hk
    refine ⟨rfl, ?_⟩
    rw [hout]
    exact op_of_carries _ calls x
  | @read_neighbourhood t x hs hr hadd hx =>
    have hf := h.fine t
    rw [hs] at hf
    refine turn_orderly h (hf.at_rest (hf.resting (by simp)) (by simp) fun k hk => ?_) (by simp)
    rw [hr, Stage.reading.inj hk]
  | @instr t k β i f b hs hi hb =>
    have hf := h.fine t
    obtain ⟨hreg, hcarries⟩ := hf.running k _ hs
    have hfree := hcarries.of_free (by
      intro c f' he
      cases he
      exact hi)
    rw [hreg] at hf
    refine turn_orderly h ?_ (by simp)
    rw [hreg]
    refine ⟨hf.member, ?_, by simp, fun hrun => absurd rfl (hrun _ _)⟩
    rintro j op hj
    obtain ⟨rfl, rfl⟩ := Stage.running.inj hj
    exact ⟨rfl, .free hfree.1 (hfree.2.2 b _ ⟨hb, (calm_next hi _).2.symm⟩)⟩
  | @call t k c f q m hs ha hc hq =>
    have hf := h.fine t
    rw [hs] at hf
    obtain ⟨hreg, hcall, hmeets⟩ := hf.at_call
    rw [hreg] at hf ⊢
    have hqc : call_of q = some c := by
      rcases hc with hc | rfl
      · exact (atomic_in_call ha (hcall.resolve_left hc)).resolve_right fun h => hq h.1
      · cases c <;> rfl
    refine move_orderly h ha (hf.inside ?_ (.in_call hqc hmeets)) (by simp)
    rintro rfl
    cases hqc
  | @back t k c f q m hs ha hc hq =>
    have hf := h.fine t
    rw [hs] at hf
    obtain ⟨hreg, hcall, hmeets⟩ := hf.at_call
    rw [hreg] at hf ⊢
    rcases atomic_in_call ha (hcall.resolve_left hc) with hin | ⟨-, hun, hsection⟩
    · rw [hq] at hin
      cases hin
    · refine move_orderly h ha (hf.inside hun (.free hq ?_)) (by simp)
      rw [hsection]
      exact hmeets
  | @ends t k hs =>
    have hf := h.fine t
    obtain ⟨hreg, hcarries⟩ := hf.running k _ hs
    rw [hreg] at hf
    obtain ⟨hfree, hmeets⟩ := hcarries.of_free (by simp)
    have hout : s.pc k t = .unregistered ∨ s.pc k t = .outside := by
      have hsection : section_of (s.pc k t) = .outside := hmeets
      generalize s.pc k t = p at hfree hsection
      cases p <;> simp_all [call_of, section_of]
    refine turn_orderly h ?_ (by simp)
    rw [hreg]
    refine hf.at_rest (fun j => ?_) (by simp) (by simp)
    by_cases hj : j = k
    · rw [hj]
      exact hout
    · exact .inl (hf.others hj)
  | @read_ends t k hs =>
    have hf := h.fine t
    rw [hs] at hf
    exact turn_orderly h (hf.at_rest (hf.resting (by simp)) (by simp) (by simp)) (by simp)
  | @idle t k m hs hq ht hfin hr ha =>
    have hf := h.fine t
    rw [hr] at hf
    exact move_orderly h ha (hf.unregister (by simp) (by simp)) (by simp)
  | @leave t hs hq hfin hr =>
    have hf := h.fine t
    rw [hs] at hf
    exact turn_orderly h (hf.at_rest (hf.resting (by simp)) (by simp) (by simp)) fun _ => hr
  | @leave_registered t k m hs hq hfin hr ha =>
    have hf := h.fine t
    rw [hr] at hf
    exact move_orderly h ha (hf.unregister (by simp) (by simp)) fun _ => rfl
  | stop hs => exact ⟨h.lock, h.fine, h.left⟩
  | start hs =>
    refine ⟨h.lock, fun t => ?_, fun t ht => by cases ht⟩
    have hf := h.fine t
    rw [hs t] at hf
    exact hf.at_rest (hf.resting (by simp)) (by simp) (by simp)
  | submit t x => exact ⟨h.lock, h.fine, h.left⟩

theorem reachable_orderly (h : s.Reachable par vertex master n may) : Orderly n s := by
  obtain ⟨tasks, hrun⟩ := h
  induction hrun with
  | refl => exact fresh_orderly tasks
  | tail _ hstep ih => exact step_orderly ih hstep

/-! ## The law -/

/-- The pool keeps to its locks. -/
structure Disciplined (s : Workers T K) : Prop where
  /-- What the workers do at a lock is a run of that lock. -/
  lock : ∀ k, fast_lock.Reachable (s.at_ k)
  /-- A worker counts at the lock that it is registered with, and at no other. -/
  member : ∀ t k, s.registered t = some k ↔ s.pc k t ≠ .unregistered
  /-- It is registered with the lock of the graph that it works on. -/
  update : ∀ t k op, s.stage t = .running k op → s.registered t = some k
  read : ∀ t k, s.stage t = .reading k → s.registered t = some k
  /-- An operation that comes to a call can begin it. -/
  call : ∀ t k c f, s.stage t = .running k (.op (.global c) f) → call_of (s.pc k t) = none →
    Atomic t (s.pc k t) (s.lock k) c.entry (s.lock k)
  /-- A section is open inside an operation only, and a section under `lock` is alone. -/
  within : ∀ t k, section_of (s.pc k t) ≠ .outside → ∃ op, s.stage t = .running k op
  alone : ∀ t u k, u ≠ t → s.pc k t = .exclusive → section_of (s.pc k u) = .outside
  /-- A pool that has stopped leaves its locks as they were made. -/
  stopped : (∀ t, s.stage t = .left) → ∀ k, s.at_ k = fast_lock.start

omit [DecidableEq K] in
/-- A call that may come can begin. -/
theorem atomic_entry {c : GlobalCall} {p : Pc} (hp : call_of p = none) (hin : p ≠ .unregistered)
    (hc : section_of p = c.from_) (l : FastLock T) : Atomic t p l c.entry l := by
  cases c with
  | lock =>
    obtain rfl : p = .outside := by cases p <;> simp_all [call_of, section_of, GlobalCall.from_]
    exact .lock l
  | unlock =>
    obtain rfl : p = .exclusive := by cases p <;> simp_all [call_of, section_of, GlobalCall.from_]
    exact .unlock l
  | lock_shared =>
    obtain rfl : p = .outside := by cases p <;> simp_all [call_of, section_of, GlobalCall.from_]
    exact .lock_shared l
  | unlock_shared =>
    obtain rfl : p = .shared := by cases p <;> simp_all [call_of, section_of, GlobalCall.from_]
    exact .unlock_shared l

end

/-- Whatever the tasks are, and whenever the workers register, in each state of a run the pool keeps
to its locks. -/
theorem workers_keep_to_their_locks {T K : Type} [DecidableEq T] [Fintype T] [DecidableEq K]
    (par : Nat → K) (vertex : Nat → Nat) (master : T) (n : K → Nat)
    (may : Workers T K → T → Task → Prop) (s : Workers T K)
    (h : s.Reachable par vertex master n may) : Disciplined s := by
  have horderly := reachable_orderly h
  refine ⟨horderly.lock, fun t => (horderly.fine t).member, fun t k op hs => ((horderly.fine t).running k op hs).1,
    fun t => (horderly.fine t).reading, ?_, ?_, ?_, ?_⟩
  · intro t k c f hs hcall
    obtain ⟨hreg, hcarries⟩ := (horderly.fine t).running k _ hs
    unfold Carries at hcarries
    rw [hcall] at hcarries
    exact atomic_entry hcall (((horderly.fine t).member k).mp hreg) hcarries.1 (s.lock k)
  · intro t k hsection
    by_cases hrun : ∃ j op, s.stage t = .running j op
    · obtain ⟨j, op, hj⟩ := hrun
      by_cases hjk : j = k
      · exact ⟨op, hjk ▸ hj⟩
      · have hf := horderly.fine t
        rw [(hf.running j op hj).1] at hf
        rw [hf.others (Ne.symm hjk)] at hsection
        exact absurd rfl hsection
    · rcases (horderly.fine t).resting (fun j op hj => hrun ⟨j, op, hj⟩) k with hpc | hpc
      · rw [hpc] at hsection
        exact absurd rfl hsection
      · rw [hpc] at hsection
        exact absurd rfl hsection
  · intro t u k hu ht
    have hquiet := (reachable_safe (horderly.lock k)).quiet t (show (s.pc k t).alone = true by rw [ht]; rfl) u hu
    change (s.pc k u).quiet = true at hquiet
    generalize s.pc k u = p at hquiet
    cases p <;> simp_all [Pc.quiet, section_of]
  · intro hleft k
    refine left_alone (reachable_safe (horderly.lock k)) (reachable_raised (horderly.lock k)) fun t => ?_
    have hf := horderly.fine t
    rw [horderly.left t (hleft t)] at hf
    exact hf.free k

/-- A worker inside a section under `lock`, and another that has not begun. -/
theorem workers_keep_to_their_locks_beside_a_writer : ∃ s : Workers (Fin 2) Unit,
    s.pc () 0 = .exclusive ∧ Disciplined s := by
  obtain ⟨s, hs⟩ : ∃ s, Scene Anyhow (.running () (behind at_lock.1)) .exclusive ⟨⟨some 0, ∅⟩, true, 1, 0⟩ s :=
    scene_exclusive fun _ _ => trivial
  exact ⟨s, hs.pc, workers_keep_to_their_locks _ _ _ _ _ s hs.reachable⟩

end packed_csr
