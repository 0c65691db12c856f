-- The two pools of worker threads: their task queues, the tables of the domains,
-- and the dispatch of a batch. The law: a batch is put on queues of the pool, each
-- operation on one.
import PackedCsr.Partitions
import PackedCsr.Queues

namespace thread_pool

open pppcsr queues

/-! ## Tasks -/

/-- A task that is neither an add nor a read is a delete. -/
structure Task where
  add : Bool
  read : Bool
  src : Nat
  target : Nat
deriving DecidableEq, Repr

/-- `tasks[i].push(t)`. -/
def push (tasks : List (List Task)) (i : Nat) (t : Task) : Option (List (List Task)) := do
  let queue ← tasks[i]?
  return tasks.set i (queue ++ [t])

theorem push_of_some {tasks : List (List Task)} {i : Nat} {queue : List Task} (t : Task)
    (h : tasks[i]? = some queue) : push tasks i t = some (tasks.set i (queue ++ [t])) := by
  unfold push
  rw [h]
  rfl

/-! ## The pool of one graph -/

structure ThreadPool (σ : Type) where
  tasks : List (List Task)
  pcsr : σ

namespace ThreadPool

variable {σ : Type}

def new (g : Graph σ) (NUM_OF_THREADS init_num_nodes : Nat) : ThreadPool σ :=
  ⟨List.replicate NUM_OF_THREADS [], g.new init_num_nodes⟩

def submit (p : ThreadPool σ) (thread_id : Nat) (t : Task) : Option (ThreadPool σ) := do
  return { p with tasks := ← push p.tasks thread_id t }

def submit_add (p : ThreadPool σ) (thread_id src target : Nat) : Option (ThreadPool σ) :=
  p.submit thread_id ⟨true, false, src, target⟩

def submit_delete (p : ThreadPool σ) (thread_id src target : Nat) : Option (ThreadPool σ) :=
  p.submit thread_id ⟨false, false, src, target⟩

def submit_read (p : ThreadPool σ) (thread_id src : Nat) : Option (ThreadPool σ) :=
  p.submit thread_id ⟨false, true, src, src⟩

end ThreadPool

/-! ## The pool of the partitioned graph -/

/-- What the loop of the constructor writes. -/
structure Tables where
  threadToDomain : List Nat
  firstThreadDomain : List Nat
  numThreadsDomain : List Nat
  counter : Nat
  currentDomain : Nat

/-- One round of the loop. -/
def table_step (minNumThreads threshold : Nat) (b : Tables) (i : Nat) : Tables :=
  let threadToDomain := b.threadToDomain.set i b.currentDomain
  let counter := b.counter + 1
  if counter = minNumThreads + (if b.currentDomain < threshold then 1 else 0) then
    { threadToDomain
      firstThreadDomain := b.firstThreadDomain.set b.currentDomain (i + 1 - counter)
      numThreadsDomain := b.numThreadsDomain.set b.currentDomain counter
      counter := 0
      currentDomain := b.currentDomain + 1 }
  else { b with threadToDomain, counter }

def tables (NUM_OF_THREADS available_nodes : Nat) : Tables :=
  let start : Tables :=
    { threadToDomain := List.replicate NUM_OF_THREADS 0
      firstThreadDomain := List.replicate available_nodes 0
      numThreadsDomain := List.replicate available_nodes 0
      counter := 0
      currentDomain := 0 }
  (List.range NUM_OF_THREADS).foldl
    (table_step (NUM_OF_THREADS / available_nodes) (NUM_OF_THREADS % available_nodes)) start

structure ThreadPoolPPPCSR (σ : Type) where
  tasks : List (List Task)
  indeces : List Nat
  partitions_per_domain : Nat
  threadToDomain : List Nat
  firstThreadDomain : List Nat
  numThreadsDomain : List Nat
  pcsr : PPPCSR σ

namespace ThreadPoolPPPCSR

variable {σ : Type}

/-- The constructor, on a machine with `nodes` memory nodes. -/
def new (g : Graph σ) (nodes NUM_OF_THREADS init_num_nodes partitions_per_domain : Nat) :
    ThreadPoolPPPCSR σ :=
  let available_nodes := min nodes NUM_OF_THREADS
  let b := tables NUM_OF_THREADS available_nodes
  { tasks := List.replicate NUM_OF_THREADS []
    indeces := List.replicate available_nodes 0
    partitions_per_domain
    threadToDomain := b.threadToDomain
    firstThreadDomain := b.firstThreadDomain
    numThreadsDomain := b.numThreadsDomain
    pcsr := PPPCSR.new g init_num_nodes available_nodes partitions_per_domain }

/-- The thread is not the one that was asked for: the domain of the source has its own turns,
counted in 32 bits. No turn is given where a table has no such entry, or the domain no thread. -/
def submit (p : ThreadPoolPPPCSR σ) (t : Task) : Option (ThreadPoolPPPCSR σ) := do
  let par := p.pcsr.get_partiton t.src / p.partitions_per_domain
  let turn ← p.indeces[par]?
  let threads ← p.numThreadsDomain[par]?
  let first ← p.firstThreadDomain[par]?
  if threads = 0 then none
  let tasks ← push p.tasks (first + turn % threads) t
  return { p with tasks, indeces := p.indeces.set par ((turn + 1) % 2 ^ 32) }

def submit_add (p : ThreadPoolPPPCSR σ) (_thread_id src target : Nat) :
    Option (ThreadPoolPPPCSR σ) :=
  p.submit ⟨true, false, src, target⟩

def submit_delete (p : ThreadPoolPPPCSR σ) (_thread_id src target : Nat) :
    Option (ThreadPoolPPPCSR σ) :=
  p.submit ⟨false, false, src, target⟩

def submit_read (p : ThreadPoolPPPCSR σ) (_thread_id src : Nat) : Option (ThreadPoolPPPCSR σ) :=
  p.submit ⟨false, true, src, src⟩

end ThreadPoolPPPCSR

/-! ## The dispatch of a batch -/

inductive Operation
  | READ
  | ADD
  | DELETE
deriving DecidableEq, Repr

/-- What `update_existing_graph` asks of its pool, and what `execute` does with a task. -/
structure Pool (π τ : Type) where
  submit_add : π → (thread_id src target : Nat) → Option π
  submit_delete : π → (thread_id src target : Nat) → Option π
  tasks : π → List (List Task)
  pcsr : π → τ
  /-- The pool with other queues and another graph. -/
  put : π → List (List Task) → τ → π
  act : Task → τ → Option τ

def ThreadPool.pool {σ : Type} (g : Graph σ) : Pool (ThreadPool σ) σ where
  submit_add := ThreadPool.submit_add
  submit_delete := ThreadPool.submit_delete
  tasks p := p.tasks
  pcsr p := p.pcsr
  put _ tasks pcsr := ⟨tasks, pcsr⟩
  act t s :=
    if t.add then some (g.add_edge s t.src t.target 1)
    else if !t.read then some (g.remove_edge s t.src t.target)
    else some s

def ThreadPoolPPPCSR.pool {σ : Type} (g : Graph σ) : Pool (ThreadPoolPPPCSR σ) (PPPCSR σ) where
  submit_add := ThreadPoolPPPCSR.submit_add
  submit_delete := ThreadPoolPPPCSR.submit_delete
  tasks p := p.tasks
  pcsr p := p.pcsr
  put p tasks pcsr := { p with tasks, pcsr }
  act t s :=
    if t.add then s.add_edge g t.src t.target 1
    else if !t.read then s.remove_edge g t.src t.target
    else some s

section

variable {π τ : Type} (P : Pool π τ) (threads : Nat)

/-- The loop of `update_existing_graph` from operation `i` on. A read is not implemented. -/
def submit_loop : (input : List (Operation × Nat × Nat)) → (i : Nat) → π → Option π
  | [], _, p => some p
  | (.ADD, src, target) :: input, i, p => do
    submit_loop input (i + 1) (← P.submit_add p (i % threads) src target)
  | (.DELETE, src, target) :: input, i, p => do
    submit_loop input (i + 1) (← P.submit_delete p (i % threads) src target)
  | (.READ, _, _) :: input, i, p => submit_loop input (i + 1) p

end

/-- The task of an operation. -/
def task_of : Operation × Nat × Nat → Option Task
  | (.ADD, src, target) => some ⟨true, false, src, target⟩
  | (.DELETE, src, target) => some ⟨false, false, src, target⟩
  | (.READ, _, _) => none

/-- The tasks of a batch in order. -/
def tasks_of (input : List (Operation × Nat × Nat)) : List Task := input.filterMap task_of

/-! ## The tables -/

/-- The threads of domain `d`. -/
def domain_size (m r d : Nat) : Nat := m + if d < r then 1 else 0

/-- The first thread of domain `d`. -/
def domain_start (m r d : Nat) : Nat := d * m + min d r

theorem domain_start_succ (m r d : Nat) :
    domain_start m r (d + 1) = domain_start m r d + domain_size m r d := by
  unfold domain_start domain_size
  rw [Nat.succ_mul]
  split <;> omega

theorem domain_start_mono (m r : Nat) {d d' : Nat} (h : d ≤ d') :
    domain_start m r d ≤ domain_start m r d' := by
  have := Nat.mul_le_mul_right m h
  unfold domain_start
  omega

/-- The tables after `i` rounds. -/
structure Tabled (T D m r i : Nat) (b : Tables) : Prop where
  at_ : i = domain_start m r b.currentDomain + b.counter
  counter : b.counter < domain_size m r b.currentDomain
  threads : b.threadToDomain.length = T
  firsts : b.firstThreadDomain.length = D
  nums : b.numThreadsDomain.length = D
  domain : ∀ d t, domain_start m r d ≤ t → t < domain_start m r (d + 1) → t < i →
    b.threadToDomain[t]? = some d
  first : ∀ d, d < b.currentDomain → b.firstThreadDomain[d]? = some (domain_start m r d)
  num : ∀ d, d < b.currentDomain → b.numThreadsDomain[d]? = some (domain_size m r d)

section

variable {T D m r i : Nat} {b : Tables}

theorem Tabled.domain_of (h : Tabled T D m r i b) {d : Nat} (hd : domain_start m r d ≤ i)
    (hd' : i < domain_start m r (d + 1)) : d = b.currentDomain := by
  have hat := h.at_
  have hcount := h.counter
  have hsucc := domain_start_succ m r b.currentDomain
  rcases Nat.lt_trichotomy d b.currentDomain with hlt | heq | hgt
  · have := domain_start_mono m r (show d + 1 ≤ b.currentDomain from hlt)
    omega
  · exact heq
  · have := domain_start_mono m r (show b.currentDomain + 1 ≤ d from hgt)
    omega

theorem table_step_spec (hm : 0 < m) (hT : domain_start m r D = T) (hi : i < T)
    (h : Tabled T D m r i b) : Tabled T D m r (i + 1) (table_step m r b i) := by
  have hat := h.at_
  have hcount := h.counter
  have hsucc := domain_start_succ m r b.currentDomain
  have hnext : b.currentDomain < D := by
    by_contra hc
    have := domain_start_mono m r (show D ≤ b.currentDomain by omega)
    omega
  have hdomain : ∀ d t, domain_start m r d ≤ t → t < domain_start m r (d + 1) → t < i + 1 →
      (b.threadToDomain.set i b.currentDomain)[t]? = some d := by
    intro d t h1 h2 ht
    by_cases hti : t = i
    · subst hti
      rw [List.getElem?_set_self (by rw [h.threads]; exact hi), h.domain_of h1 h2]
    · rw [List.getElem?_set_ne (Ne.symm hti)]
      exact h.domain d t h1 h2 (by omega)
  unfold table_step
  dsimp only
  rw [show m + (if b.currentDomain < r then 1 else 0) = domain_size m r b.currentDomain from rfl]
  split
  · rename_i hfull
    refine ⟨?_, ?_, by simpa using h.threads, by simpa using h.firsts, by simpa using h.nums,
      hdomain, ?_, ?_⟩
    · dsimp only
      omega
    · show 0 < domain_size m r (b.currentDomain + 1)
      unfold domain_size
      omega
    · intro d hd
      dsimp only at hd ⊢
      by_cases hdc : d = b.currentDomain
      · rw [hdc, List.getElem?_set_self (by rw [h.firsts]; exact hnext)]
        congr 1
        omega
      · rw [List.getElem?_set_ne (Ne.symm hdc)]
        exact h.first d (by omega)
    · intro d hd
      dsimp only at hd ⊢
      by_cases hdc : d = b.currentDomain
      · rw [hdc, List.getElem?_set_self (by rw [h.nums]; exact hnext), hfull]
      · rw [List.getElem?_set_ne (Ne.symm hdc)]
        exact h.num d (by omega)
  · refine ⟨?_, ?_, by simpa using h.threads, h.firsts, h.nums, hdomain, h.first, h.num⟩
    · dsimp only
      omega
    · dsimp only
      omega

/-- The blocks of the domains are as long as the threads are many. -/
theorem domain_start_all (hD : 0 < D) : domain_start (T / D) (T % D) D = T := by
  have hlt := Nat.mod_lt T hD
  unfold domain_start
  rw [Nat.min_eq_right (by omega)]
  exact Nat.div_add_mod T D

theorem tables_spec (hD : 0 < D) (hDT : D ≤ T) :
    (tables T D).currentDomain = D ∧ Tabled T D (T / D) (T % D) T (tables T D) := by
  have hm : 0 < T / D := Nat.div_pos hDT hD
  have hall := domain_start_all (T := T) hD
  have hrun : Tabled T D (T / D) (T % D) T (tables T D) := by
    unfold tables
    have hloop : ∀ i ≤ T, Tabled T D (T / D) (T % D) i
        ((List.range i).foldl (table_step (T / D) (T % D))
          ⟨List.replicate T 0, List.replicate D 0, List.replicate D 0, 0, 0⟩) := by
      intro i hi
      induction i with
      | zero =>
        refine ⟨?_, ?_, by simp, by simp, by simp, ?_, ?_, ?_⟩
        · simp [domain_start]
        · show 0 < domain_size (T / D) (T % D) 0
          unfold domain_size
          omega
        · intro d t _ _ ht
          omega
        · intro d hd
          cases hd
        · intro d hd
          cases hd
      | succ i ih =>
        rw [List.range_succ, List.foldl_append]
        exact table_step_spec hm hall (by omega) (ih (by omega))
    exact hloop T (le_refl T)
  refine ⟨?_, hrun⟩
  have hat := hrun.at_
  have hcount := hrun.counter
  have hsucc := domain_start_succ (T / D) (T % D) (tables T D).currentDomain
  rcases Nat.lt_trichotomy (tables T D).currentDomain D with hlt | heq | hgt
  · have := domain_start_mono (T / D) (T % D) (show (tables T D).currentDomain + 1 ≤ D from hlt)
    omega
  · exact heq
  · have := domain_start_mono (T / D) (T % D) (show D + 1 ≤ (tables T D).currentDomain from hgt)
    have := domain_start_succ (T / D) (T % D) D
    have : 0 < domain_size (T / D) (T % D) D := by
      unfold domain_size
      omega
    omega

end

/-! ## The dispatch -/

/-- A task goes on one queue, and nothing else is touched. -/
def Puts {π τ : Type} (P : Pool π τ) (t : Task) (p p' : π) : Prop :=
  P.pcsr p' = P.pcsr p ∧
    ∃ k q, (P.tasks p)[k]? = some q ∧ P.tasks p' = (P.tasks p).set k (q ++ [t])

/-- In the states `R` of the pool each operation of a batch goes on one queue. -/
structure Takes {π τ : Type} (P : Pool π τ) (threads : Nat) (R : π → Prop) : Prop where
  add : ∀ p i src target, R p → i < threads →
    ∃ p', P.submit_add p i src target = some p' ∧ R p' ∧ Puts P ⟨true, false, src, target⟩ p p'
  delete : ∀ p i src target, R p → i < threads →
    ∃ p', P.submit_delete p i src target = some p' ∧ R p' ∧
      Puts P ⟨false, false, src, target⟩ p p'

section

variable {π τ : Type} {P : Pool π τ} {threads : Nat} {R : π → Prop}

theorem submit_loop_spec (hP : Takes P threads R) (hT : 0 < threads)
    (input : List (Operation × Nat × Nat)) (i : Nat) {p : π} (hp : R p) :
    ∃ p', submit_loop P threads input i p = some p' ∧ R p' ∧ P.pcsr p' = P.pcsr p ∧
      ((P.tasks p).flatten ++ tasks_of input).Perm (P.tasks p').flatten := by
  induction input generalizing i p with
  | nil => exact ⟨p, rfl, hp, rfl, by simp [tasks_of]⟩
  | cons o input ih =>
    obtain ⟨op, src, target⟩ := o
    have hlt := Nat.mod_lt i hT
    have hgo : ∀ t p1, task_of (op, src, target) = some t → R p1 → Puts P t p p1 →
        submit_loop P threads ((op, src, target) :: input) i p =
          submit_loop P threads input (i + 1) p1 →
        ∃ p', submit_loop P threads ((op, src, target) :: input) i p = some p' ∧ R p' ∧
          P.pcsr p' = P.pcsr p ∧
          ((P.tasks p).flatten ++ tasks_of ((op, src, target) :: input)).Perm
            (P.tasks p').flatten := by
      rintro t p1 htask hp1 ⟨hpcsr, k, q, hq, hput⟩ hrun
      obtain ⟨p', hloop, hp', hsame, hperm⟩ := ih (i + 1) hp1
      refine ⟨p', hrun.trans hloop, hp', hsame.trans hpcsr, ?_⟩
      have hcons : tasks_of ((op, src, target) :: input) = t :: tasks_of input := by
        unfold tasks_of
        rw [List.filterMap_cons_some htask]
      rw [hcons]
      have hfront : (P.tasks p1).flatten.Perm (t :: (P.tasks p).flatten) := by
        rw [hput]
        exact set_flatten hq (List.perm_append_singleton t q)
      exact List.perm_middle.trans ((hfront.symm.append_right (tasks_of input)).trans hperm)
    cases op with
    | READ => exact ih (i + 1) hp
    | ADD =>
      obtain ⟨p1, hadd, hp1, hput⟩ := hP.add p (i % threads) src target hp hlt
      apply hgo _ p1 rfl hp1 hput
      simp only [submit_loop, hadd, bind, Option.bind]
    | DELETE =>
      obtain ⟨p1, hdel, hp1, hput⟩ := hP.delete p (i % threads) src target hp hlt
      apply hgo _ p1 rfl hp1 hput
      simp only [submit_loop, hdel, bind, Option.bind]

end

section

variable {σ : Type} {g : Graph σ}

/-- The pool has a queue for each thread, and `n` vertices. -/
structure ThreadPool.Ready (g : Graph σ) (threads n : Nat) (p : ThreadPool σ) : Prop where
  tasks : p.tasks.length = threads
  n : g.get_n p.pcsr = n

theorem ThreadPool.takes (threads n : Nat) :
    Takes (ThreadPool.pool g) threads (ThreadPool.Ready g threads n) := by
  have hsubmit : ∀ (p : ThreadPool σ) i t, p.Ready g threads n → i < threads →
      ∃ p', p.submit i t = some p' ∧ p'.Ready g threads n ∧ Puts (ThreadPool.pool g) t p p' := by
    intro p i t hp hi
    have hlt : i < p.tasks.length := by
      rw [hp.tasks]
      exact hi
    have hq : p.tasks[i]? = some p.tasks[i] := List.getElem?_eq_getElem hlt
    have hrun : p.submit i t = some { p with tasks := p.tasks.set i (p.tasks[i] ++ [t]) } := by
      unfold ThreadPool.submit
      rw [push_of_some t hq]
      rfl
    refine ⟨_, hrun, ⟨?_, hp.n⟩, rfl, i, _, hq, rfl⟩
    rw [List.length_set]
    exact hp.tasks
  exact ⟨fun p i src target hp hi => hsubmit p i _ hp hi,
    fun p i src target hp hi => hsubmit p i _ hp hi⟩

/-- The partitioned graph holds what one graph of `n` vertices would. -/
def Parts (g : Graph σ) (value : σ → Nat → Nat → Option Nat) (m size n : Nat) (p : PPPCSR σ) :
    Prop :=
  ∃ s, Split g value m size p s ∧ g.get_n s = n

/-- The pool has a queue for each thread, turns and threads for each domain, and as many
partitions in each. -/
structure ThreadPoolPPPCSR.Ready (g : Graph σ) (value : σ → Nat → Nat → Option Nat)
    (threads D P size n : Nat) (p : ThreadPoolPPPCSR σ) : Prop where
  tasks : p.tasks.length = threads
  indeces : p.indeces.length = D
  firsts : p.firstThreadDomain = (tables threads D).firstThreadDomain
  nums : p.numThreadsDomain = (tables threads D).numThreadsDomain
  per_domain : p.partitions_per_domain = P
  parts : Parts g value (D * P) size n p.pcsr

/-- The domain of a source is one of the pool. -/
theorem ThreadPoolPPPCSR.Ready.domain {value : σ → Nat → Nat → Option Nat}
    {threads D P size n : Nat} {p : ThreadPoolPPPCSR σ}
    (h : ThreadPoolPPPCSR.Ready g value threads D P size n p) (src : Nat) :
    p.pcsr.get_partiton src / p.partitions_per_domain < D := by
  obtain ⟨s, hsplit, -⟩ := h.parts
  rw [hsplit.get_partiton, h.per_domain]
  apply Nat.div_lt_of_lt_mul
  exact (Split.part_of_lt hsplit.pos size src).trans_eq (Nat.mul_comm D P)

/-- The thread of a turn is one of the domain. -/
theorem turn_lt {T D d : Nat} (hD : 0 < D) (hDT : D ≤ T) (hd : d < D) (turn : Nat) :
    0 < domain_size (T / D) (T % D) d ∧
      domain_start (T / D) (T % D) d + turn % domain_size (T / D) (T % D) d < T := by
  have hpos : 0 < domain_size (T / D) (T % D) d := by
    have hm : 0 < T / D := Nat.div_pos hDT hD
    unfold domain_size
    omega
  have hlt := Nat.mod_lt turn hpos
  have hsucc := domain_start_succ (T / D) (T % D) d
  have hmono := domain_start_mono (T / D) (T % D) (show d + 1 ≤ D from hd)
  have hall := domain_start_all (T := T) hD
  exact ⟨hpos, by omega⟩

theorem ThreadPoolPPPCSR.takes {value : σ → Nat → Nat → Option Nat} {threads D : Nat} (hD : 0 < D)
    (hDT : D ≤ threads) (P size n : Nat) :
    Takes (ThreadPoolPPPCSR.pool g) threads
      (ThreadPoolPPPCSR.Ready g value threads D P size n) := by
  have htab := tables_spec hD hDT
  have hsubmit : ∀ (p : ThreadPoolPPPCSR σ) t, p.Ready g value threads D P size n →
      ∃ p', p.submit t = some p' ∧ p'.Ready g value threads D P size n ∧
        Puts (ThreadPoolPPPCSR.pool g) t p p' := by
    intro p t hp
    have hd := hp.domain t.src
    obtain ⟨hpos, hlt⟩ := turn_lt hD hDT hd (p.indeces.getD
      (p.pcsr.get_partiton t.src / p.partitions_per_domain) 0)
    have hturn : p.indeces[p.pcsr.get_partiton t.src / p.partitions_per_domain]? =
        some (p.indeces.getD (p.pcsr.get_partiton t.src / p.partitions_per_domain) 0) := by
      rw [List.getD_eq_getElem?_getD, List.getElem?_eq_getElem (by rw [hp.indeces]; exact hd)]
      rfl
    have hfirst := htab.2.first _ (by rw [htab.1]; exact hd)
    have hnum := htab.2.num _ (by rw [htab.1]; exact hd)
    rw [← hp.firsts] at hfirst
    rw [← hp.nums] at hnum
    generalize p.indeces.getD (p.pcsr.get_partiton t.src / p.partitions_per_domain) 0 = turn at *
    generalize hk : domain_start (threads / D) (threads % D)
      (p.pcsr.get_partiton t.src / p.partitions_per_domain) + turn % domain_size (threads / D)
        (threads % D) (p.pcsr.get_partiton t.src / p.partitions_per_domain) = k at hlt
    obtain ⟨q, hq⟩ : ∃ q, p.tasks[k]? = some q :=
      ⟨_, List.getElem?_eq_getElem (by rw [hp.tasks]; exact hlt)⟩
    have hrun : p.submit t = some { p with
        tasks := p.tasks.set k (q ++ [t])
        indeces := p.indeces.set (p.pcsr.get_partiton t.src / p.partitions_per_domain)
          ((turn + 1) % 2 ^ 32) } := by
      unfold ThreadPoolPPPCSR.submit
      simp only [hturn, hfirst, hnum, bind, Option.bind, if_neg (Nat.pos_iff_ne_zero.mp hpos)]
      rw [hk, push_of_some t hq]
      rfl
    refine ⟨_, hrun, ?_, rfl, k, q, hq, rfl⟩
    refine ⟨?_, ?_, hp.firsts, hp.nums, hp.per_domain, hp.parts⟩
    · simpa using hp.tasks
    · simpa using hp.indeces
  exact ⟨fun p i src target hp _ => hsubmit p _ hp, fun p i src target hp _ => hsubmit p _ hp⟩

end

end thread_pool
