-- What the program does once it has read its files: it loads the core graph with all its threads, and
-- then does the updates. Where each list asks for one thing of each edge, the graph in the end is the one
-- that the lists describe, in whichever order the threads work.
import PackedCsr.Batches

namespace program

open pppcsr queues thread_pool

/-! ## The phases -/

section

variable {π τ : Type} (P : Pool π τ) (threads : Nat)

/-- A run of `update_existing_graph`: the first `size` operations are submitted, and the workers are
started and stopped. -/
def UpdateExistingGraph (input : List (Operation × Nat × Nat)) (size : Nat) (p p' : π) : Prop :=
  size ≤ input.length ∧ ∃ p1 w, submit_loop P threads (input.take size) 0 p = some p1 ∧
    Stops P.act threads (P.tasks p1) (P.pcsr p1) w ∧ p' = P.put p1 w.tasks w.pcsr

/-- A run of `execute`. -/
def Execute (size : Nat) (core_graph updates : List (Operation × Nat × Nat)) (p p' : π) : Prop :=
  ∃ p1, UpdateExistingGraph P threads core_graph core_graph.length p p1 ∧
    UpdateExistingGraph P threads updates size p1 p'

end

/-- What `main` knows when it has read its files. -/
structure Job where
  core_graph : List (Operation × Int × Int)
  updates : List (Operation × Int × Int)
  num_nodes : Int
  size : Nat
deriving DecidableEq, Repr

/-- The operations of a list whose vertices are not negative. -/
def operations (edges : List (Operation × Int × Int)) : List (Operation × Nat × Nat) :=
  edges.map fun o => (o.1, o.2.1.toNat, o.2.2.toNat)

/-- A list of operations that does not both add and delete one edge. -/
def OneKind (input : List (Operation × Nat × Nat)) : Prop :=
  ∀ u v, ¬ ((.ADD, u, v) ∈ input ∧ (.DELETE, u, v) ∈ input)

/-! ## The answers of a list of one kind -/

section

variable {input : List (Operation × Nat × Nat)} {u v : Nat}

theorem asked {t : Task} {b : Bool} (ht : t ∈ tasks_of input) (hb : on u v t = some b) :
    (if b then .ADD else .DELETE, u, v) ∈ input := by
  obtain ⟨⟨op, src, target⟩, ho, htask⟩ := List.mem_filterMap.mp ht
  unfold on at hb
  split at hb
  · rename_i huv
    cases op with
    | READ => cases htask
    | ADD =>
      cases htask
      cases hb
      obtain ⟨rfl, rfl⟩ := huv
      exact ho
    | DELETE =>
      cases htask
      cases hb
      obtain ⟨rfl, rfl⟩ := huv
      exact ho
  · cases hb

theorem answered {op : Operation} (hop : op ≠ .READ) (ho : (op, u, v) ∈ input) :
    ∃ t ∈ tasks_of input, on u v t = some (decide (op = .ADD)) := by
  cases op with
  | READ => exact absurd rfl hop
  | ADD => exact ⟨_, List.mem_filterMap.mpr ⟨_, ho, rfl⟩, if_pos ⟨rfl, rfl⟩⟩
  | DELETE => exact ⟨_, List.mem_filterMap.mpr ⟨_, ho, rfl⟩, if_pos ⟨rfl, rfl⟩⟩

/-- On an edge, a list of one kind answers what it asks for. -/
theorem OneKind.answer (h : OneKind input) :
    (last_answer (on u v) (tasks_of input) = some true ↔ (.ADD, u, v) ∈ input) ∧
      (last_answer (on u v) (tasks_of input) = some false ↔ (.DELETE, u, v) ∈ input) := by
  have hasks : ∀ b, last_answer (on u v) (tasks_of input) = some b →
      (if b then .ADD else .DELETE, u, v) ∈ input := by
    intro b hb
    obtain ⟨t, ht, hon⟩ := last_answer_mem hb
    exact asked ht hon
  have hanswers : ∀ op, op ≠ .READ → (op, u, v) ∈ input →
      last_answer (on u v) (tasks_of input) ≠ none := by
    intro op hop ho hnone
    obtain ⟨t, ht, hon⟩ := answered hop ho
    rw [last_answer_eq_none.mp hnone t ht] at hon
    cases hon
  refine ⟨⟨hasks true, fun ho => ?_⟩, ⟨hasks false, fun ho => ?_⟩⟩
  · obtain ⟨b, hb⟩ := Option.ne_none_iff_exists'.mp (hanswers .ADD (by decide) ho)
    cases b with
    | true => exact hb
    | false => exact absurd ⟨ho, hasks false hb⟩ (h u v)
  · obtain ⟨b, hb⟩ := Option.ne_none_iff_exists'.mp (hanswers .DELETE (by decide) ho)
    cases b with
    | true => exact absurd ⟨hasks true hb, ho⟩ (h u v)
    | false => exact hb

theorem OneKind.agree (h : OneKind input) {n : Nat} {tasks : List (List Task)}
    (hperm : (tasks_of input).Perm tasks.flatten) : Agree n tasks (tasks_of input) := by
  intro u v _ q hq
  cases hlast : last_answer (on u v) q with
  | none => exact .inl rfl
  | some b =>
    right
    obtain ⟨t, ht, hon⟩ := last_answer_mem hlast
    have hasked := asked (hperm.mem_iff.mpr (List.mem_flatten.mpr ⟨q, hq, ht⟩)) hon
    cases b with
    | true => exact (h.answer.1.mpr hasked).symm
    | false => exact (h.answer.2.mpr hasked).symm

end

/-! ## One phase -/

section

variable {π τ : Type} {P : Pool π τ} {threads n : Nat} {R : π → Prop} {G : τ → Prop}
  {edge : τ → Nat → Nat → Bool} {p p' : π} {input : List (Operation × Nat × Nat)}

/-- What a pool of `n` vertices is for the program. -/
structure Works (P : Pool π τ) (threads n : Nat) (R : π → Prop) (G : τ → Prop)
    (edge : τ → Nat → Nat → Bool) : Prop where
  takes : Takes P threads R
  rests : Rests P threads R G
  stores : Stores P n G edge
  put : ∀ p tasks s, P.pcsr (P.put p tasks s) = s

/-- A pool between two phases. -/
def Idle (P : Pool π τ) (R : π → Prop) (p : π) : Prop := R p ∧ ∀ q ∈ P.tasks p, q = []

/-- A phase can be run, and every run of it comes to the same edges. -/
theorem Works.phase (h : Works P threads n R G edge) (hT : 0 < threads) (hp : Idle P R p) {size : Nat}
    (hsize : size ≤ input.length) (hv : ValidBatch n (input.take size)) (hone : OneKind (input.take size)) :
    (∃ p', UpdateExistingGraph P threads input size p p') ∧
    ∀ p', UpdateExistingGraph P threads input size p p' → Idle P R p' ∧ ∀ u v, u < n →
      (edge (P.pcsr p') u v = true ↔ (.ADD, u, v) ∈ input.take size ∨
        edge (P.pcsr p) u v = true ∧ (.DELETE, u, v) ∉ input.take size) := by
  unfold UpdateExistingGraph
  generalize input.take size = b at hv hone ⊢
  obtain ⟨p1, s', hsub, -, hedge, -, hruns⟩ := batch_effect h.takes h.rests h.stores hT hp.1 hp.2 hv
  obtain ⟨p1', hsub', hp1, hpcsr, hperm⟩ := submit_loop_spec h.takes hT b 0 hp.1
  cases hsub.symm.trans hsub'
  rw [flatten_eq_nil hp.2, List.nil_append] at hperm
  have hsame := hruns.mpr (hone.agree hperm)
  have hlen := h.rests.length p1 hp1
  constructor
  · obtain ⟨order, horder⟩ := Empties.exists_order (P.tasks p1)
    have hvalid : ∀ t ∈ order, t.Valid n := fun t ht =>
      tasks_of_valid hv t ((horder.perm.trans hperm.symm).mem_iff.mp ht)
    obtain ⟨s1, hexec, -⟩ := execute_all_spec h.stores order (h.rests.graph p1 hp1) hvalid
    obtain ⟨w, hw, -⟩ := stops_of_order horder hlen hT hexec
    exact ⟨_, hsize, p1, w, hsub, hw, rfl⟩
  · rintro p' ⟨-, p2, w, hsub2, hw, rfl⟩
    cases hsub.symm.trans hsub2
    refine ⟨reached_ready h.takes h.rests h.stores hT hp.1 hp.2 (.batch .new hv hsub hw), fun u v hu => ?_⟩
    rw [h.put, hsame w hw u v hu, hedge u v hu]
    cases hlast : last_answer (on u v) (tasks_of b) with
    | none =>
      have hadd : (.ADD, u, v) ∉ b := fun ho => by
        rw [hone.answer.1.mpr ho] at hlast
        cases hlast
      have hdelete : (.DELETE, u, v) ∉ b := fun ho => by
        rw [hone.answer.2.mpr ho] at hlast
        cases hlast
      simp [hadd, hdelete]
    | some c =>
      cases c with
      | true => simp [hone.answer.1.mp hlast]
      | false =>
        have hdelete := hone.answer.2.mp hlast
        have hadd : (.ADD, u, v) ∉ b := fun ho => hone u v ⟨ho, hdelete⟩
        simp [hadd, hdelete]

/-- Both phases. -/
theorem Works.execute (h : Works P threads n R G edge) (hT : 0 < threads) (hp : Idle P R p) {size : Nat}
    {core_graph updates : List (Operation × Nat × Nat)} (hsize : size ≤ updates.length)
    (hnew : ∀ u v, u < n → edge (P.pcsr p) u v = false) (hvc : ValidBatch n core_graph)
    (hvu : ValidBatch n (updates.take size)) (hc : OneKind core_graph) (hu : OneKind (updates.take size)) :
    (∃ p', Execute P threads size core_graph updates p p') ∧
    ∀ p', Execute P threads size core_graph updates p p' → ∀ u v, u < n →
      (edge (P.pcsr p') u v = true ↔ (.ADD, u, v) ∈ updates.take size ∨
        (.ADD, u, v) ∈ core_graph ∧ (.DELETE, u, v) ∉ updates.take size) := by
  have hfull : core_graph.take core_graph.length = core_graph := List.take_length
  obtain ⟨⟨p1, hrun1⟩, hall1⟩ := h.phase hT hp (le_refl core_graph.length) (by rw [hfull]; exact hvc)
    (by rw [hfull]; exact hc)
  constructor
  · obtain ⟨⟨p2, hrun2⟩, -⟩ := h.phase hT (hall1 p1 hrun1).1 hsize hvu hu
    exact ⟨p2, p1, hrun1, hrun2⟩
  · rintro p2 ⟨p1, hrun1, hrun2⟩ u v huv
    obtain ⟨hidle, hedge1⟩ := hall1 p1 hrun1
    obtain ⟨-, hall2⟩ := h.phase hT hidle hsize hvu hu
    rw [(hall2 p2 hrun2).2 u v huv, hedge1 u v huv, hfull, hnew u v huv]
    simp

end

/-! ## The pools -/

section

variable {σ : Type} {g : Graph σ} {value : σ → Nat → Nat → Option Nat}

theorem thread_pool_works (hg : IsMap g value) (threads n : Nat) :
    Works (ThreadPool.pool g) threads n (ThreadPool.Ready g threads n) (fun s => g.get_n s = n) g.edge_exists :=
  ⟨ThreadPool.takes threads n, ThreadPool.rests threads n, ThreadPool.stores hg, fun _ _ _ => rfl⟩

theorem thread_pool_pppcsr_works (hg : IsMap g value) {threads D : Nat} (hD : 0 < D) (hDT : D ≤ threads)
    (partitions_per_domain size n : Nat) :
    Works (ThreadPoolPPPCSR.pool g) threads n
      (ThreadPoolPPPCSR.Ready g value threads D partitions_per_domain size n)
      (Parts g value (D * partitions_per_domain) size n) (ThreadPoolPPPCSR.edge g) :=
  ⟨ThreadPoolPPPCSR.takes hD hDT partitions_per_domain size n,
    ThreadPoolPPPCSR.rests threads D partitions_per_domain size n,
    ThreadPoolPPPCSR.stores hg _ size, fun _ _ _ => rfl⟩

theorem thread_pool_new (hg : IsMap g value) {u v n : Nat} (hu : u < n) : g.edge_exists (g.new n) u v = false := by
  rw [Bool.eq_false_iff, ne_eq, hg.edge_exists _ _ _ (by rw [hg.new_n]; exact hu), hg.new_value]
  simp

theorem thread_pool_pppcsr_new (hg : IsMap g value) {numDomain partitions_per_domain : Nat}
    (hd : 1 ≤ numDomain) (hp : 1 ≤ partitions_per_domain) {u v n : Nat} (hu : u < n) :
    ThreadPoolPPPCSR.edge g (PPPCSR.new g n numDomain partitions_per_domain) u v = false := by
  have hsplit := new_spec hg hd hp n
  unfold ThreadPoolPPPCSR.edge
  rw [edge_exists_spec hsplit hg (by rw [hg.new_n]; exact hu) v, thread_pool_new hg hu]
  rfl

end

/-! ## The job -/

/-- The number of vertices of the graph that `main` makes. -/
def Job.init_num_nodes (j : Job) : Nat := (j.num_nodes + 1).toNat

theorem operations_valid {edges : List (Operation × Int × Int)} {n : Int}
    (hle : ∀ o ∈ edges, 0 ≤ o.2.1 ∧ o.2.1 ≤ n) : ValidBatch (n + 1).toNat (operations edges) := by
  intro o ho _
  obtain ⟨x, hx, rfl⟩ := List.mem_map.mp ho
  have := hle x hx
  show x.2.1.toNat < (n + 1).toNat
  omega

/-- What the files ask for in the end. -/
def Job.Wants (j : Job) (u v : Nat) : Prop :=
  (.ADD, u, v) ∈ (operations j.updates).take j.size ∨
    (.ADD, u, v) ∈ operations j.core_graph ∧ (.DELETE, u, v) ∉ (operations j.updates).take j.size

/-- On the pool `p` the program can run to its end, and whenever it does, the graph has the edges that the
files ask for. -/
def Builds {π τ : Type} (P : Pool π τ) (threads : Nat) (edge : τ → Nat → Nat → Bool) (j : Job) (p : π) : Prop :=
  (∃ p', Execute P threads j.size (operations j.core_graph) (operations j.updates) p p') ∧
  ∀ p', Execute P threads j.size (operations j.core_graph) (operations j.updates) p p' →
    ∀ u v, u < j.init_num_nodes → (edge (P.pcsr p') u v = true ↔ j.Wants u v)

/-- A job whose vertices are not negative, and which does not both add and delete an edge within a phase:
whatever the threads, the memory nodes and the partitions are, and in whatever order the threads work,
either pool ends with the edges that the job asks for. -/
theorem job_builds {σ : Type} {g : Graph σ} {value : σ → Nat → Nat → Option Nat} (hg : IsMap g value)
    {threads nodes partitions_per_domain : Nat} (hT : 1 ≤ threads) (hD : 1 ≤ nodes)
    (hP : 1 ≤ partitions_per_domain) (j : Job) (hsize : j.size ≤ j.updates.length)
    (hle : ∀ o ∈ j.core_graph ++ j.updates, o.2.1 ≤ j.num_nodes)
    (hpos : ∀ o ∈ j.core_graph ++ j.updates, 0 ≤ o.2.1 ∧ 0 ≤ o.2.2) (hc : OneKind (operations j.core_graph))
    (hu : OneKind ((operations j.updates).take j.size)) :
    Builds (ThreadPool.pool g) threads g.edge_exists j (.new g threads j.init_num_nodes) ∧
      Builds (ThreadPoolPPPCSR.pool g) threads (ThreadPoolPPPCSR.edge g) j
        (.new g nodes threads j.init_num_nodes partitions_per_domain) := by
  have hsize' : j.size ≤ (operations j.updates).length := by
    unfold operations
    rw [List.length_map]
    exact hsize
  have hvc : ValidBatch j.init_num_nodes (operations j.core_graph) :=
    operations_valid fun o ho => ⟨(hpos o (List.mem_append_left _ ho)).1, hle o (List.mem_append_left _ ho)⟩
  have hvu : ValidBatch j.init_num_nodes ((operations j.updates).take j.size) := fun o ho =>
    operations_valid (fun o ho => ⟨(hpos o (List.mem_append_right _ ho)).1, hle o (List.mem_append_right _ ho)⟩) o
      (List.mem_of_mem_take ho)
  constructor
  · have hidle : Idle (ThreadPool.pool g) (ThreadPool.Ready g threads j.init_num_nodes)
        (.new g threads j.init_num_nodes) :=
      ⟨⟨List.length_replicate, hg.new_n _⟩, fun q hq => List.eq_of_mem_replicate hq⟩
    exact (thread_pool_works hg threads j.init_num_nodes).execute hT hidle hsize'
      (fun u v hlt => thread_pool_new hg hlt) hvc hvu hc hu
  · have hmin : 0 < min nodes threads := by omega
    have hidle : Idle (ThreadPoolPPPCSR.pool g) _ (.new g nodes threads j.init_num_nodes partitions_per_domain) :=
      ⟨ThreadPoolPPPCSR.new_ready hg hT hD hP j.init_num_nodes, fun q hq => List.eq_of_mem_replicate hq⟩
    exact (thread_pool_pppcsr_works hg hmin (by omega) partitions_per_domain _ j.init_num_nodes).execute hT hidle
      hsize' (fun u v hlt => thread_pool_pppcsr_new hg hmin hP hlt) hvc hvu hc hu

end program
