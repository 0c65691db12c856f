-- A batch on a pool: each worker empties its own queue, and each operation of the
-- graph is one step. The law: every operation is executed once, and the edges are
-- those of the batch in order exactly where the queues agree on what comes last.
import PackedCsr.Pools

namespace thread_pool

open pppcsr queues

/-! ## The workers -/

/-- What the workers share, which of them have left the loop, and the tasks that were executed. -/
structure Workers (τ : Type) where
  tasks : List (List Task)
  pcsr : τ
  finished : Bool
  left : Nat → Bool
  log : List Task

section

variable {τ : Type} (act : Task → τ → Option τ) (threads : Nat)

/-- A worker executes the front of its queue, or it finds the queue empty and leaves the loop:
worker 0 at once, another when `stop` has set `finished`. Worker 0 is the thread that calls
`start` and `stop`. -/
inductive Work : Workers τ → Workers τ → Prop
  | task (w : Workers τ) {i : Nat} {t : Task} {rest : List Task} {s : τ} (hi : i < threads)
      (hl : w.left i = false) (hq : w.tasks[i]? = some (t :: rest))
      (ht : act t w.pcsr = some s) :
      Work w { w with tasks := w.tasks.set i rest, pcsr := s, log := w.log ++ [t] }
  | leave (w : Workers τ) {i : Nat} (hi : i < threads) (hl : w.left i = false)
      (hq : w.tasks[i]? = some []) (hf : i = 0 ∨ w.finished = true) :
      Work w { w with left := Function.update w.left i true }
  | stop (w : Workers τ) (hl : w.left 0 = true) : Work w { w with finished := true }

/-- The workers after `start`. -/
def Workers.start (tasks : List (List Task)) (pcsr : τ) : Workers τ :=
  ⟨tasks, pcsr, false, fun _ => false, []⟩

/-- `stop` returns: each worker has been joined. -/
def Workers.Stopped (w : Workers τ) : Prop :=
  w.finished = true ∧ ∀ i < threads, w.left i = true

/-- A run of the workers from `start` to the end of `stop`. -/
def Stops (tasks : List (List Task)) (pcsr : τ) (w : Workers τ) : Prop :=
  Relation.ReflTransGen (Work act threads) (.start tasks pcsr) w ∧ w.Stopped threads

/-- The tasks one after the other. -/
def execute_all : List Task → τ → Option τ
  | [], s => some s
  | t :: ts, s => do execute_all ts (← act t s)

end

section

variable {τ : Type} {act : Task → τ → Option τ} {threads : Nat}

/-- A worker leaves an empty queue, and no queue grows. -/
theorem work_order {w w' : Workers τ} (h : Relation.ReflTransGen (Work act threads) w w')
    (hw' : w'.Stopped threads) (hlen : w.tasks.length = threads)
    (hleft : ∀ i, w.left i = true → ∀ q, w.tasks[i]? = some q → q = []) :
    (∃ order, Empties w.tasks order ∧ w'.log = w.log ++ order ∧
      execute_all act order w.pcsr = some w'.pcsr) ∧
    w'.tasks = List.replicate threads [] := by
  induction h using Relation.ReflTransGen.head_induction_on with
  | refl =>
    have hempty : ∀ q ∈ w'.tasks, q = [] := by
      intro q hq
      obtain ⟨i, hi⟩ := List.mem_iff_getElem?.mp hq
      have hlt := (List.getElem?_eq_some_iff.mp hi).1
      exact hleft i (hw'.2 i (by omega)) q hi
    exact ⟨⟨[], .done hempty, by simp, rfl⟩, List.eq_replicate_iff.mpr ⟨hlen, hempty⟩⟩
  | @head w w1 h1 h ih =>
    cases h1 with
    | @task i t rest s hi hl hq ht =>
      obtain ⟨⟨order, horder, hlog, hexec⟩, hend⟩ := ih (by simpa using hlen) (by
        intro j hj q hqj
        dsimp only at hj hqj
        have hne : i ≠ j := by
          rintro rfl
          rw [hl] at hj
          cases hj
        rw [List.getElem?_set_ne hne] at hqj
        exact hleft j hj q hqj)
      refine ⟨⟨t :: order, .take hq horder, by simp [hlog], ?_⟩, hend⟩
      simp only [execute_all, ht, bind, Option.bind]
      exact hexec
    | @leave i hi hl hq hf =>
      apply ih hlen
      intro j hj q hqj
      dsimp only at hj hqj
      by_cases hji : j = i
      · subst hji
        rw [hq] at hqj
        exact (Option.some.inj hqj).symm
      · rw [Function.update_of_ne hji] at hj
        exact hleft j hj q hqj
    | stop hl => exact ih hlen hleft

/-- Every run to the end of `stop` empties the queues in some order. -/
theorem Stops.order {tasks : List (List Task)} {s : τ} {w : Workers τ} (h : Stops act threads tasks s w)
    (hlen : tasks.length = threads) :
    (∃ order, Empties tasks order ∧ w.log = order ∧ execute_all act order s = some w.pcsr) ∧
      w.tasks = List.replicate threads [] := by
  obtain ⟨⟨order, horder, hlog, hexec⟩, hend⟩ := work_order h.1 h.2 hlen (by
    intro i hi
    cases hi)
  exact ⟨⟨order, horder, by simpa [Workers.start] using hlog, hexec⟩, hend⟩

theorem work_tasks {tasks : List (List Task)} {order : List Task} (h : Empties tasks order)
    {s s' : τ} (hlen : tasks.length = threads) (hexec : execute_all act order s = some s')
    (log : List Task) :
    ∃ w, Relation.ReflTransGen (Work act threads) ⟨tasks, s, false, fun _ => false, log⟩ w ∧
      w.tasks.length = threads ∧ (∀ q ∈ w.tasks, q = []) ∧ w.pcsr = s' ∧ w.left = fun _ => false := by
  induction h generalizing s log with
  | @done qs h =>
    cases hexec
    exact ⟨_, .refl, hlen, h, rfl, rfl⟩
  | @take qs i t rest order hi h ih =>
    obtain ⟨s1, ht, hrest⟩ := Option.bind_eq_some_iff.mp hexec
    obtain ⟨w, hrun, hw⟩ := ih (by simpa using hlen) hrest (log ++ [t])
    refine ⟨w, .head (.task _ ?_ rfl hi ht) hrun, hw⟩
    rw [← hlen]
    exact (List.getElem?_eq_some_iff.mp hi).1

/-- Every order of the queues is that of a run. -/
theorem stops_of_order {tasks : List (List Task)} {order : List Task} (h : Empties tasks order)
    {s s' : τ} (hlen : tasks.length = threads) (hT : 0 < threads)
    (hexec : execute_all act order s = some s') : ∃ w, Stops act threads tasks s w ∧ w.pcsr = s' := by
  obtain ⟨w, hrun, hwlen, hempty, hpcsr, hleft⟩ := work_tasks h hlen hexec []
  have hqueue : ∀ i < threads, w.tasks[i]? = some [] := by
    intro i hi
    have hlt : i < w.tasks.length := by omega
    rw [List.getElem?_eq_getElem hlt, hempty _ (List.getElem_mem hlt)]
  let out (k : Nat) : Workers τ :=
    { w with finished := true, left := fun i => decide (i < k) }
  have hfirst : Relation.ReflTransGen (Work act threads) w (out 1) := by
    have hleave : Work act threads w { w with left := Function.update w.left 0 true } :=
      .leave w hT (by rw [hleft]) (hqueue 0 hT) (.inl rfl)
    have hout : out 1 = { w with finished := true, left := Function.update w.left 0 true } := by
      simp only [out, Workers.mk.injEq, true_and, and_true]
      funext i
      rw [hleft]
      by_cases hi : i = 0
      · simp [hi]
      · simp [hi]
    rw [hout]
    exact .tail (.single hleave) (.stop _ (by simp))
  have hall : ∀ k, 1 ≤ k → k ≤ threads → Relation.ReflTransGen (Work act threads) w (out k) := by
    intro k hk
    induction k, hk using Nat.le_induction with
    | base => exact fun _ => hfirst
    | succ k hk ih =>
      intro hkt
      have hleave : Work act threads (out k)
          { out k with left := Function.update (out k).left k true } :=
        .leave (out k) (by omega) (by simp [out]) (hqueue k (by omega)) (.inr rfl)
      have hout : out (k + 1) = { out k with left := Function.update (out k).left k true } := by
        simp only [out, Workers.mk.injEq, true_and, and_true]
        funext i
        by_cases hi : i = k
        · simp [hi]
        · rw [Function.update_of_ne hi, decide_eq_decide]
          omega
      rw [hout]
      exact .tail (ih (by omega)) hleave
  refine ⟨out threads, ⟨hrun.trans (hall threads hT (le_refl _)), rfl, ?_⟩, hpcsr⟩
  intro i hi
  exact decide_eq_true hi

end

/-! ## What is stored -/

/-- What a task says of an edge. -/
def on (u v : Nat) (t : Task) : Option Bool := if t.src = u ∧ t.target = v then some t.add else none

/-- The batch deletes only from vertices of the graph. -/
def ValidBatch (n : Nat) (input : List (Operation × Nat × Nat)) : Prop :=
  ∀ o ∈ input, o.1 = .DELETE → o.2.1 < n

/-- A task that `update_existing_graph` may make. -/
def Task.Valid (n : Nat) (t : Task) : Prop := t.read = false ∧ (t.add = false → t.src < n)

theorem tasks_of_valid {n : Nat} {input : List (Operation × Nat × Nat)} (h : ValidBatch n input) :
    ∀ t ∈ tasks_of input, t.Valid n := by
  intro t ht
  obtain ⟨⟨op, src, target⟩, ho, htask⟩ := List.mem_filterMap.mp ht
  cases op with
  | READ => cases htask
  | ADD =>
    cases htask
    exact ⟨rfl, fun h => by cases h⟩
  | DELETE =>
    cases htask
    exact ⟨rfl, fun _ => h _ ho rfl⟩

/-- On the graphs `G` of `n` vertices a task decides about its edge and leaves the others. -/
def Stores {π τ : Type} (P : Pool π τ) (n : Nat) (G : τ → Prop) (edge : τ → Nat → Nat → Bool) :
    Prop :=
  ∀ s t, G s → t.Valid n → ∃ s', P.act t s = some s' ∧ G s' ∧
    ∀ u v, u < n → edge s' u v = (on u v t).getD (edge s u v)

section

variable {π τ : Type} {P : Pool π τ} {n threads : Nat} {G : τ → Prop}
  {edge : τ → Nat → Nat → Bool}

theorem execute_all_spec (hS : Stores P n G edge) (ts : List Task) {s : τ} (hs : G s)
    (hts : ∀ t ∈ ts, t.Valid n) :
    ∃ s', execute_all P.act ts s = some s' ∧ G s' ∧
      ∀ u v, u < n → edge s' u v = (last_answer (on u v) ts).getD (edge s u v) := by
  induction ts generalizing s with
  | nil => exact ⟨s, rfl, hs, fun _ _ _ => rfl⟩
  | cons t ts ih =>
    obtain ⟨s1, ht, hs1, hedge1⟩ := hS s t hs (hts t (List.mem_cons_self ..))
    obtain ⟨s', hrest, hs', hedge⟩ := ih hs1 fun t ht => hts t (List.mem_cons_of_mem _ ht)
    refine ⟨s', ?_, hs', ?_⟩
    · simp only [execute_all, ht, bind, Option.bind]
      exact hrest
    · intro u v hu
      rw [hedge u v hu, hedge1 u v hu, last_answer_cons]
      cases last_answer (on u v) ts <;> rfl

/-- In every worker's queue, what comes last on an edge is of the kind that comes last on it in
the whole batch. -/
def Agree (n : Nat) (queues : List (List Task)) (batch : List Task) : Prop :=
  ∀ u v, u < n → ∀ q ∈ queues,
    last_answer (on u v) q = none ∨ last_answer (on u v) q = last_answer (on u v) batch

/-- Whether every run stores what the batch in order stores. -/
theorem every_run_stores (hS : Stores P n G edge) (hT : 0 < threads) {queues : List (List Task)}
    {batch : List Task} (hlen : queues.length = threads) (hperm : batch.Perm queues.flatten)
    (hv : ∀ t ∈ batch, t.Valid n) {s s' : τ} (hs : G s)
    (hedge : ∀ u v, u < n → edge s' u v = (last_answer (on u v) batch).getD (edge s u v)) :
    (∀ w, Stops P.act threads queues s w → ∀ u v, u < n → edge w.pcsr u v = edge s' u v) ↔
      Agree n queues batch := by
  have hvalid : ∀ order, Empties queues order → ∀ t ∈ order, t.Valid n := by
    intro order h t ht
    exact hv t ((h.perm.trans hperm.symm).mem_iff.mp ht)
  constructor
  · intro h u v hu
    apply (every_order_answers hperm).mp
    intro order horder
    obtain ⟨s1, hexec, -, hedge1⟩ := execute_all_spec hS order hs (hvalid order horder)
    obtain ⟨w, hw, rfl⟩ := stops_of_order horder hlen hT hexec
    have hsame := h w hw u v hu
    rw [hedge1 u v hu, hedge u v hu] at hsame
    have hnone : last_answer (on u v) order = none ↔ last_answer (on u v) batch = none := by
      rw [last_answer_eq_none, last_answer_eq_none]
      exact forall_congr' fun t => imp_congr_left (horder.perm.trans hperm.symm).mem_iff
    rcases hb : last_answer (on u v) batch with _ | b
    · exact hnone.mpr hb
    · rcases ho : last_answer (on u v) order with _ | o
      · rw [hnone.mp ho] at hb
        cases hb
      · rw [ho, hb] at hsame
        exact congrArg some hsame
  · intro h w hw u v hu
    obtain ⟨⟨order, horder, -, hexec⟩, -⟩ := hw.order hlen
    obtain ⟨s1, hexec1, -, hedge1⟩ := execute_all_spec hS order hs (hvalid order horder)
    rw [hexec] at hexec1
    cases hexec1
    rw [hedge1 u v hu, hedge u v hu, (every_order_answers hperm).mpr (h u v hu) order horder]

end

/-! ## The graphs of the pools -/

section

variable {σ : Type} {g : Graph σ} {value : σ → Nat → Nat → Option Nat} {n : Nat}

/-- What a task of a batch calls. -/
def Task.call (t : Task) : Call :=
  if t.add then .add_edge t.src t.target 1 else .remove_edge t.src t.target

theorem Task.Valid.call {s : σ} {t : Task} (ht : t.Valid n) (hn : g.get_n s = n) :
    t.call.Valid g s := by
  unfold Task.call
  split
  · trivial
  · rename_i ha
    show t.src < g.get_n s
    rw [hn]
    exact ht.2 (by simpa using ha)

theorem call_stores (hg : IsMap g value) {s : σ} (hn : g.get_n s = n) {t : Task} (ht : t.Valid n) :
    g.get_n (t.call.on g s) = n ∧
      ∀ u v, u < n → g.edge_exists (t.call.on g s) u v = (on u v t).getD (g.edge_exists s u v) := by
  have hvalid := ht.call (g := g) hn
  have hsame : g.get_n (t.call.on g s) = n := by
    unfold Task.call at hvalid ⊢
    split
    · exact (hg.add_edge_n ..).trans hn
    · rename_i ha
      rw [if_neg ha] at hvalid
      exact (hg.remove_edge_n _ _ _ hvalid).trans hn
  refine ⟨hsame, ?_⟩
  intro u v hu
  rw [Bool.eq_iff_iff, hg.edge_exists _ _ _ (by rw [hsame]; exact hu)]
  have hold := hg.edge_exists s u v (by rw [hn]; exact hu)
  unfold Task.call on
  split
  · rename_i ha
    show value (g.add_edge s t.src t.target 1) u v ≠ none ↔ _
    rw [hg.add_edge_value]
    by_cases huv : t.src = u ∧ t.target = v
    · obtain ⟨rfl, rfl⟩ := huv
      simp [hn, hu, ha]
    · rw [if_neg, if_neg huv, Option.getD_none, hold]
      rintro ⟨-, -, rfl, rfl⟩
      exact huv ⟨rfl, rfl⟩
  · rename_i ha
    unfold Task.call at hvalid
    rw [if_neg ha] at hvalid
    show value (g.remove_edge s t.src t.target) u v ≠ none ↔ _
    rw [hg.remove_edge_value _ _ _ _ _ hvalid]
    by_cases huv : t.src = u ∧ t.target = v
    · obtain ⟨rfl, rfl⟩ := huv
      simp [ha]
    · rw [if_neg, if_neg huv, Option.getD_none, hold]
      rintro ⟨rfl, rfl⟩
      exact huv ⟨rfl, rfl⟩

theorem ThreadPool.stores (hg : IsMap g value) :
    Stores (ThreadPool.pool g) n (fun s => g.get_n s = n) g.edge_exists := by
  intro s t hs ht
  have hact : (ThreadPool.pool g).act t s = some (t.call.on g s) := by
    unfold ThreadPool.pool Task.call
    by_cases ha : t.add = true
    · simp [ha, Call.on]
    · simp [ha, ht.1, Call.on]
  exact ⟨_, hact, call_stores hg hs ht⟩

/-- The edge is stored in the partition of its source. -/
def ThreadPoolPPPCSR.edge (g : Graph σ) (p : PPPCSR σ) (u v : Nat) : Bool :=
  p.edge_exists g u v == some true

theorem ThreadPoolPPPCSR.stores (hg : IsMap g value) (m size : Nat) :
    Stores (ThreadPoolPPPCSR.pool g) n (Parts g value m size n)
      (ThreadPoolPPPCSR.edge g) := by
  rintro p t ⟨s, hsplit, hn⟩ ht
  have hact : (ThreadPoolPPPCSR.pool g).act t p = t.call.on_parts g p := by
    unfold ThreadPoolPPPCSR.pool Task.call
    by_cases ha : t.add = true
    · simp [ha, Call.on_parts]
    · simp [ha, ht.1, Call.on_parts]
  obtain ⟨p', hrun, hsplit'⟩ := call_spec hg t.call hsplit (ht.call hn)
  obtain ⟨hn', hedge⟩ := call_stores hg hn ht
  refine ⟨p', hact.trans hrun, ⟨_, hsplit', hn'⟩, ?_⟩
  intro u v hu
  unfold ThreadPoolPPPCSR.edge
  rw [edge_exists_spec hsplit' hg (by rw [hn']; exact hu) v,
    edge_exists_spec hsplit hg (by rw [hn]; exact hu) v, hedge u v hu]
  cases on u v t <;> cases g.edge_exists s u v <;> simp

end

/-! ## Batch after batch -/

section

variable {π τ : Type}

/-- The pools that come of `p0` by batches. -/
inductive Reached (P : Pool π τ) (threads n : Nat) (p0 : π) : π → Prop
  | new : Reached P threads n p0 p0
  | batch {p p' : π} {input : List (Operation × Nat × Nat)} {w : Workers τ}
      (hp : Reached P threads n p0 p) (hv : ValidBatch n input)
      (hsub : submit_loop P threads input 0 p = some p')
      (hrun : Stops P.act threads (P.tasks p') (P.pcsr p') w) :
      Reached P threads n p0 (P.put p' w.tasks w.pcsr)

/-- A batch on the pool `p` can be put on its queues, and each run executes every operation
once. In order the last operation on an edge decides about it, and every run ends with the same
edges exactly where the queues agree. -/
def TakesEffect (P : Pool π τ) (threads n : Nat) (edge : τ → Nat → Nat → Bool) (p : π)
    (input : List (Operation × Nat × Nat)) : Prop :=
  ∃ p' s', submit_loop P threads input 0 p = some p' ∧
    execute_all P.act (tasks_of input) (P.pcsr p) = some s' ∧
    (∀ u v, u < n →
      edge s' u v = (last_answer (on u v) (tasks_of input)).getD (edge (P.pcsr p) u v)) ∧
    (∀ w, Stops P.act threads (P.tasks p') (P.pcsr p') w → w.log.Perm (tasks_of input)) ∧
    ((∀ w, Stops P.act threads (P.tasks p') (P.pcsr p') w →
      ∀ u v, u < n → edge w.pcsr u v = edge s' u v) ↔ Agree n (P.tasks p') (tasks_of input))

variable {P : Pool π τ} {threads n : Nat} {R : π → Prop} {G : τ → Prop}
  {edge : τ → Nat → Nat → Bool}

/-- A pool between two batches. -/
structure Rests (P : Pool π τ) (threads : Nat) (R : π → Prop) (G : τ → Prop) : Prop where
  graph : ∀ p, R p → G (P.pcsr p)
  length : ∀ p, R p → (P.tasks p).length = threads
  put : ∀ p s, R p → G s → R (P.put p (List.replicate threads []) s)
  put_tasks : ∀ p tasks s, P.tasks (P.put p tasks s) = tasks

theorem batch_effect (hP : Takes P threads R) (hR : Rests P threads R G) (hS : Stores P n G edge)
    (hT : 0 < threads) {p : π} (hp : R p) (hempty : ∀ q ∈ P.tasks p, q = [])
    {input : List (Operation × Nat × Nat)} (hv : ValidBatch n input) :
    TakesEffect P threads n edge p input := by
  obtain ⟨p', hsub, hp', hpcsr, hperm⟩ := submit_loop_spec hP hT input 0 hp
  rw [flatten_eq_nil hempty, List.nil_append] at hperm
  have hlen := hR.length p' hp'
  obtain ⟨s', hexec, -, hedge⟩ :=
    execute_all_spec hS (tasks_of input) (hR.graph p hp) (tasks_of_valid hv)
  refine ⟨p', s', hsub, hexec, hedge, ?_, ?_⟩
  · intro w hw
    obtain ⟨⟨order, horder, rfl, -⟩, -⟩ := hw.order hlen
    exact horder.perm.trans hperm.symm
  · apply every_run_stores hS hT hlen hperm (tasks_of_valid hv) (hR.graph p' hp')
    rw [hpcsr]
    exact hedge

theorem reached_ready (hP : Takes P threads R) (hR : Rests P threads R G) (hS : Stores P n G edge)
    (hT : 0 < threads) {p0 p : π} (h0 : R p0) (hempty0 : ∀ q ∈ P.tasks p0, q = [])
    (h : Reached P threads n p0 p) : R p ∧ ∀ q ∈ P.tasks p, q = [] := by
  induction h with
  | new => exact ⟨h0, hempty0⟩
  | @batch p p' input w hp hv hsub hrun ih =>
    obtain ⟨p1, hsub1, hp1, -, hperm⟩ := submit_loop_spec hP hT input 0 ih.1
    rw [hsub] at hsub1
    cases hsub1
    rw [flatten_eq_nil ih.2, List.nil_append] at hperm
    obtain ⟨⟨order, horder, -, hexec⟩, hend⟩ := hrun.order (hR.length p' hp1)
    obtain ⟨s1, hexec1, hs1, -⟩ := execute_all_spec hS order (hR.graph p' hp1) (by
      intro t ht
      exact tasks_of_valid hv t ((horder.perm.trans hperm.symm).mem_iff.mp ht))
    rw [hexec] at hexec1
    cases hexec1
    rw [hR.put_tasks, hend]
    exact ⟨hR.put p' _ hp1 hs1, fun q hq => List.eq_of_mem_replicate hq⟩

end

section

variable {σ : Type} {g : Graph σ} {value : σ → Nat → Nat → Option Nat}

theorem ThreadPool.rests (threads n : Nat) :
    Rests (ThreadPool.pool g) threads (ThreadPool.Ready g threads n) (fun s => g.get_n s = n) where
  graph _ hp := hp.n
  length _ hp := hp.tasks
  put _ _ _ hs := ⟨List.length_replicate, hs⟩
  put_tasks _ _ _ := rfl

theorem ThreadPoolPPPCSR.rests (threads D P size n : Nat) :
    Rests (ThreadPoolPPPCSR.pool g) threads (ThreadPoolPPPCSR.Ready g value threads D P size n)
      (Parts g value (D * P) size n) where
  graph _ hp := hp.parts
  length _ hp := hp.tasks
  put _ _ hp hs := ⟨List.length_replicate, hp.indeces, hp.firsts, hp.nums, hp.per_domain, hs⟩
  put_tasks _ _ _ := rfl

theorem ThreadPoolPPPCSR.new_ready (hg : IsMap g value) {threads nodes partitions_per_domain : Nat}
    (hT : 1 ≤ threads) (hD : 1 ≤ nodes) (hP : 1 ≤ partitions_per_domain) (n : Nat) :
    (ThreadPoolPPPCSR.new g nodes threads n partitions_per_domain).Ready g value threads
      (min nodes threads) partitions_per_domain
      (n / (min nodes threads * partitions_per_domain)) n where
  tasks := List.length_replicate
  indeces := List.length_replicate
  firsts := rfl
  nums := rfl
  per_domain := rfl
  parts := ⟨g.new n, new_spec hg (by omega) hP n, hg.new_n n⟩

/-- After every batch on either pool each operation has been executed once. The edges are those
of the batch in order exactly where each queue that has an operation on an edge ends there with
the kind that comes last in the batch. -/
theorem a_batch_keeps_its_order_where_its_queues_agree (hg : IsMap g value)
    {threads nodes partitions_per_domain : Nat} (hT : 1 ≤ threads) (hD : 1 ≤ nodes)
    (hP : 1 ≤ partitions_per_domain) (n : Nat) (input : List (Operation × Nat × Nat))
    (hv : ValidBatch n input) :
    (∀ p, Reached (ThreadPool.pool g) threads n (.new g threads n) p →
      TakesEffect (ThreadPool.pool g) threads n g.edge_exists p input) ∧
    ∀ p, Reached (ThreadPoolPPPCSR.pool g) threads n
        (.new g nodes threads n partitions_per_domain) p →
      TakesEffect (ThreadPoolPPPCSR.pool g) threads n (ThreadPoolPPPCSR.edge g) p input := by
  have hpos : 0 < min nodes threads := by omega
  constructor
  · intro p hp
    have hready : (ThreadPool.new g threads n).Ready g threads n :=
      ⟨List.length_replicate, hg.new_n n⟩
    obtain ⟨hr, hempty⟩ := reached_ready (ThreadPool.takes threads n) (ThreadPool.rests threads n)
      (ThreadPool.stores hg) hT hready (fun q hq => List.eq_of_mem_replicate hq) hp
    exact batch_effect (ThreadPool.takes threads n) (ThreadPool.rests threads n)
      (ThreadPool.stores hg) hT hr hempty hv
  · intro p hp
    have hready := ThreadPoolPPPCSR.new_ready hg hT hD hP n
    generalize hm : min nodes threads = D at hpos hready
    generalize hsize : n / (D * partitions_per_domain) = size at hready
    have hDT : D ≤ threads := by omega
    have htakes : Takes (ThreadPoolPPPCSR.pool g) threads
        (ThreadPoolPPPCSR.Ready g value threads D partitions_per_domain size n) :=
      ThreadPoolPPPCSR.takes hpos hDT partitions_per_domain size n
    have hrests : Rests (ThreadPoolPPPCSR.pool g) threads
        (ThreadPoolPPPCSR.Ready g value threads D partitions_per_domain size n)
        (Parts g value (D * partitions_per_domain) size n) :=
      ThreadPoolPPPCSR.rests threads D partitions_per_domain size n
    have hstores := ThreadPoolPPPCSR.stores hg (n := n) (D * partitions_per_domain) size
    obtain ⟨hr, hempty⟩ := reached_ready htakes hrests hstores hT hready
      (fun q hq => List.eq_of_mem_replicate hq) hp
    exact batch_effect htakes hrests hstores hT hr hempty hv

end

/-! ## An add and a delete of one edge -/

/-- The batch. -/
def add_then_delete : List (Operation × Nat × Nat) := [(.ADD, 0, 1), (.DELETE, 0, 1)]

theorem a_batch_keeps_its_order_for_one_thread :
    ValidBatch 2 add_then_delete ∧
      TakesEffect (ThreadPool.pool Table.graph) 1 2 Table.graph.edge_exists
        (.new Table.graph 1 2) add_then_delete := by
  have hv : ValidBatch 2 add_then_delete := by
    intro o ho _
    simp only [add_then_delete, List.mem_cons, List.not_mem_nil, or_false] at ho
    rcases ho with rfl | rfl <;> decide
  exact ⟨hv, (a_batch_keeps_its_order_where_its_queues_agree Table.graph_isMap (le_refl 1)
    (le_refl 1) (le_refl 1) 2 add_then_delete hv).1 _ .new⟩

/-- With two threads the delete can come first, and the edge stays. -/
theorem a_batch_loses_its_order_for_two_threads :
    ∃ p w s, submit_loop (ThreadPool.pool Table.graph) 2 add_then_delete 0
        (.new Table.graph 2 2) = some p ∧
      Stops (ThreadPool.pool Table.graph).act 2 p.tasks p.pcsr w ∧
      execute_all (ThreadPool.pool Table.graph).act (tasks_of add_then_delete)
        (Table.graph.new 2) = some s ∧
      Table.graph.edge_exists w.pcsr 0 1 = true ∧ Table.graph.edge_exists s 0 1 = false := by
  have horder : Empties [[(⟨true, false, 0, 1⟩ : Task)], [⟨false, false, 0, 1⟩]]
      [⟨false, false, 0, 1⟩, ⟨true, false, 0, 1⟩] :=
    .take (i := 1) rfl (.take (i := 0) rfl (.done (by simp)))
  obtain ⟨w, hw, hpcsr⟩ : ∃ w, Stops (ThreadPool.pool Table.graph).act 2
      [[⟨true, false, 0, 1⟩], [⟨false, false, 0, 1⟩]] (Table.graph.new 2) w ∧
      w.pcsr = Table.put (Table.drop (Table.graph.new 2) 0 1) 0 1 1 (by decide) :=
    stops_of_order horder rfl (by decide) rfl
  refine ⟨⟨_, _⟩, w, _, rfl, hw, rfl, ?_, ?_⟩
  · rw [hpcsr]
    decide
  · decide

end thread_pool
