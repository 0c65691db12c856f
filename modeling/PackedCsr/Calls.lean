-- One call of `add_edge` or `remove_edge` with no other thread active: up to the counters of
-- neighbours and the versions, it is one insertion or removal at the slot that the search gives.
import PackedCsr.Alike
import PackedCsr.RemovalPlans

namespace packed_csr

open effects

section

variable {s s' s1 s2 : PCSR} {e : Edge} {p : Nat} {info : Option insertion_info}

/-! ## The plan of an insertion -/

/-- What the planner may hand to an insertion at slot `p`. -/
def PlanOf (s : PCSR) (p : Nat) (info : Option insertion_info) : Prop :=
  info = none ∨
    (info = some ⟨0, 0, true⟩ ∧ CrowdedToRoot s s.N (plan_start s s.N p)) ∨
    ∃ a b i, info = some i ∧ Covers s s.N p a b i

theorem PlanOf.ok (h : PlanOf s p info) : PlanOk s.N info := by
  intro i hi
  rcases h with hnone | ⟨hdouble, -⟩ | ⟨a, b, j, hj, hcovers⟩
  · rw [hnone] at hi
    cases hi
  · rw [hdouble] at hi
    cases hi
    exact .inl rfl
  · rw [hj] at hi
    cases hi
    exact .inr hcovers.window

theorem InsertPlan.plan_of {t u : Own} {acquired : Acquired}
    (h : InsertPlan .sound t.s.N t p (.inr (acquired, info)) u) :
    u.s = t.s ∧ PlanOf t.s p info ∧
      ∀ a b, acquired = .range a b → b < t.s.N / logN t.s.N := by
  rcases acquired with c | ⟨a, b⟩
  · obtain ⟨hk, -, hinfo⟩ := h
    refine ⟨hk.2 (by decide), ?_, fun a b hc => (by cases hc)⟩
    rcases hinfo with hnone | ⟨hdouble, hroot⟩
    · exact .inl hnone
    · exact .inr (.inl ⟨hdouble, hroot (by decide)⟩)
  · obtain ⟨hk, hheld, i, hi, hcovers⟩ := h
    refine ⟨hk.2 (by decide), .inr (.inr ⟨a, b, i, hi, hcovers (by decide)⟩), ?_⟩
    rintro a' b' hab
    cases hab
    exact hheld.in_table

/-! ## Insertions -/

theorem exec_release_loop (a n : Nat) (h : a + n ≤ s.versions.length) :
    ∃ versions, versions.length = s.versions.length ∧
      exec (release_loop a n) s = .ok ((), { s with versions }) ∧
      ∀ k, versions[k]? = if a ≤ k ∧ k < a + n then s.versions[k]?.map (· + 1) else s.versions[k]? := by
  induction n generalizing a s with
  | zero =>
    refine ⟨s.versions, rfl, rfl, fun k => ?_⟩
    rw [if_neg (by omega)]
  | succ n ih =>
    have hbump : s.bump a = .ok { s with versions := s.versions.modify a (· + 1) } :=
      if_pos (by omega)
    obtain ⟨versions, hlen, hrun, hat⟩ := ih (s := { s with versions := s.versions.modify a (· + 1) })
      (a + 1) (by simp only [List.length_modify]; omega)
    refine ⟨versions, by simpa using hlen, ?_, fun k => ?_⟩
    · unfold release_loop
      rw [exec_bind_ok (exec_change hbump), exec_bind_ok (exec_leaf .unlock _)]
      · exact hrun
      · simp only [List.length_modify]
        omega
    · rw [hat k]
      dsimp only
      by_cases hka : k = a
      · rw [if_neg (by omega), if_pos (by omega), hka]
        exact List.getElem?_modify_eq _ a s.versions
      · rw [List.getElem?_modify_ne _ s.versions (Ne.symm hka)]
        by_cases hk : a + 1 ≤ k ∧ k < a + 1 + n
        · rw [if_pos hk, if_pos (by omega)]
        · rw [if_neg hk, if_neg (by omega)]

/-- A release counts up the versions of the leaves from `a` to `b`. -/
theorem exec_release_locks {a b : Nat} (h : b < s.versions.length) :
    ∃ versions, versions.length = s.versions.length ∧
      exec (release_locks a b) s = .ok ((), { s with versions }) ∧
      ∀ k, versions[k]? = if a ≤ k ∧ k ≤ b then s.versions[k]?.map (· + 1) else s.versions[k]? := by
  have hloop : a + (b + 1 - a) ≤ s.versions.length ∨ b + 1 - a = 0 := by omega
  rcases hloop with hle | hzero
  · obtain ⟨versions, hlen, hrun, hat⟩ := exec_release_loop a (b + 1 - a) hle
    refine ⟨versions, hlen, hrun, fun k => ?_⟩
    rw [hat k]
    by_cases hk : a ≤ k ∧ k ≤ b
    · rw [if_pos hk, if_pos (by omega)]
    · rw [if_neg hk, if_neg (by omega)]
  · refine ⟨s.versions, rfl, ?_, fun k => ?_⟩
    · unfold release_locks
      rw [hzero]
      rfl
    · rw [if_neg (by omega)]

/-- From one array to the next, no version goes down, and the items of a leaf whose version is as it
was are as they were. -/
structure Guarded (s s' : PCSR) : Prop where
  N : s'.N = s.N
  table : s'.versions.length = s.versions.length
  leaf : ∀ (l v v' : Nat), s.versions[l]? = some v → s'.versions[l]? = some v' →
    v ≤ v' ∧ (v' = v → ∀ k, k / logN s.N = l → s'.items[k]? = s.items[k]?)

theorem Guarded.of_same (hN : s'.N = s.N) (hversions : s'.versions = s.versions)
    (hitems : s'.items = s.items) : Guarded s s' := by
  refine ⟨hN, congrArg List.length hversions, fun l v v' hv hv' => ?_⟩
  rw [hversions, hv] at hv'
  cases hv'
  refine ⟨le_refl v, fun _ k _ => ?_⟩
  rw [hitems]

theorem Guarded.trans (h : Guarded s s1) (h' : Guarded s1 s2) : Guarded s s2 := by
  refine ⟨h'.N.trans h.N, h'.table.trans h.table, fun l v v2 hv hv2 => ?_⟩
  obtain ⟨v1, hv1⟩ : ∃ v1, s1.versions[l]? = some v1 := by
    have hlt := (List.getElem?_eq_some_iff.mp hv).1
    exact ⟨_, List.getElem?_eq_getElem (by rw [h.table]; exact hlt)⟩
  obtain ⟨hle, hsame⟩ := h.leaf l v v1 hv hv1
  obtain ⟨hle', hsame'⟩ := h'.leaf l v1 v2 hv1 hv2
  refine ⟨hle.trans hle', fun heq k hk => ?_⟩
  rw [hsame' (by omega) k (by rw [h.N]; exact hk), hsame (by omega) k hk]

/-- Leaves outside of which nothing has changed, and their release. -/
theorem Guarded.of_release {a b : Nat} {versions : List Nat} (hN : s2.N = s.N)
    (hversions : s2.versions = s.versions) (hlen : versions.length = s2.versions.length)
    (hout : ∀ k, ¬ (a ≤ k / logN s.N ∧ k / logN s.N ≤ b) → s2.items[k]? = s.items[k]?)
    (hat : ∀ k, versions[k]? =
      if a ≤ k ∧ k ≤ b then s2.versions[k]?.map (· + 1) else s2.versions[k]?) :
    Guarded s { s2 with versions } := by
  refine ⟨hN, by rw [hlen, hversions], fun l v v' hv hv' => ?_⟩
  rw [hat l, hversions, hv] at hv'
  by_cases hl : a ≤ l ∧ l ≤ b
  · rw [if_pos hl] at hv'
    cases hv'
    exact ⟨Nat.le_succ v, fun heq => absurd heq (Nat.succ_ne_self v)⟩
  · rw [if_neg hl] at hv'
    cases hv'
    refine ⟨le_refl v, fun _ k hk => hout k ?_⟩
    rw [hk]
    exact hl

/-- The search finds slot `p`, and `v` is the version of its leaf. -/
structure Finds (s : PCSR) (e : Edge) (p v : Nat) : Prop where
  search : ∃ node, s.node e.src = .ok node ∧
    exec (binary_search s.N e (node.beginning + 1) node.end_ false) s = .ok ((p, v), s)
  version : s.load (p / logN s.N) = .ok v

theorem Finds.counts {v : Nat} (h : Finds s e p v) (c : Nat → Nat) : Finds (with_counts c s) e p v := by
  obtain ⟨node, hnode, hrun⟩ := h.search
  refine ⟨⟨_, node_counts.mpr ⟨node, hnode, rfl⟩, ?_⟩, h.version⟩
  rw [with_counts_N, exec_reads_counts (only_reads_binary_search _ _ _ _), hrun]
  rfl

theorem node_lt {node : Node} {v : Nat} (h : s.node v = .ok node) : v < s.get_n := by
  unfold PCSR.node at h
  split at h
  · exact (List.getElem?_eq_some_iff.mp ‹_›).1
  · cases h

theorem Finds.src_lt {v : Nat} (h : Finds s e p v) : e.src < s.get_n := by
  obtain ⟨node, hnode, -⟩ := h.search
  exact node_lt hnode

/-- The region in which the search looks. -/
theorem Finds.region {v : Nat} (h : Finds s e p v) (hw : WellFormed s) :
    ∃ node, s.node e.src = .ok node ∧ node.end_ < s.N ∧
      exec (binary_search s.N e (node.beginning + 1) node.end_ false) s = .ok ((p, v), s) := by
  obtain ⟨node, hnode, hrun⟩ := h.search
  obtain ⟨b, en, hb⟩ := hw.bounds (node_lt hnode)
  obtain ⟨node', hnode', -, rfl⟩ := hb.node
  rw [hnode] at hnode'
  cases hnode'
  exact ⟨node, hnode, hb.e_lt hw, hrun⟩

/-- An insertion at slot `p`, with each plan that the planner may hand to it, comes to an end. -/
def CanInsert (s : PCSR) (p : Nat) (e : Edge) : Prop :=
  ∀ info, PlanOf s p info → ∃ s2, insert s p e e.src info = .ok s2 ∧
    s.versions.length ≤ s2.versions.length

/-- The state behind an insertion at slot `p`. -/
def Inserts (s : PCSR) (p : Nat) (e : Edge) (s' : PCSR) : Prop :=
  ∃ info s2, PlanOf s p info ∧ insert s p e e.src info = .ok s2 ∧ Alike s2 s' ∧
    tallies s' = tallies s2

theorem exec_insert_global {v : Nat} (hf : Finds s e p v) (hplan : PlanOf s p info)
    (hins : CanInsert s p e) :
    ∃ s2, exec (insert_global e e.src info) s = .ok ((), s2) ∧ Inserts s p e s2 := by
  obtain ⟨node, hnode, hrun⟩ := hf.search
  obtain ⟨s2, hs2, -⟩ := hins info hplan
  refine ⟨s2, ?_, info, s2, hplan, hs2, Alike.refl s2, rfl⟩
  unfold insert_global
  rw [exec_look_bind (b := s.N) rfl, exec_look_bind hnode, exec_bind_ok hrun]
  exact exec_change hs2

/-- The commit: the edge is inserted, or another try comes with the counter put back. -/
theorem exec_add_commit {v : Nat} (h : WellFormed s) (hp : p < s.N) (hpos : 0 < p)
    (hf : Finds s e p v) (hins : CanInsert s p e) (lock_bsearch : Bool) :
    ∃ again s', exec (add_commit s.N lock_bsearch e e.src p v) s = .ok (again, s') ∧
      (again = true → s.count_neighbors e.src decr32 = .ok s') ∧
      (again = false → Inserts s p e s') := by
  obtain ⟨acquired, info, u, hrun, hplan⟩ :=
    exec_acquire_insert_locks (e := e) h hp hpos lock_bsearch e.src v 4
  obtain ⟨hu, hof, htable⟩ := InsertPlan.plan_of hplan
  rw [hu] at hrun
  unfold add_commit
  rw [exec_bind_ok hrun]
  have hglobal : ∃ again s', exec (do
        global .unlock_shared
        global .lock
        insert_global e e.src info
        global .unlock
        return false) s = .ok (again, s') ∧
      (again = true → s.count_neighbors e.src decr32 = .ok s') ∧
      (again = false → Inserts s p e s') := by
    obtain ⟨s2, hglobal, hres⟩ := exec_insert_global hf hof hins
    refine ⟨false, s2, ?_, fun hc => (by cases hc), fun _ => hres⟩
    rw [exec_bind_ok (exec_global _), exec_bind_ok (exec_global _), exec_bind_ok hglobal,
      exec_bind_ok (exec_global _)]
    rfl
  rcases acquired with c | ⟨a, b⟩
  · cases c with
    | NEED_GLOBAL_WRITE => exact hglobal
    | EDGE_NOT_FOUND => exact hglobal
    | NEED_RETRY =>
      obtain ⟨c, hcount, -⟩ := count_exists decr32 hf.src_lt
      refine ⟨true, with_counts c s, ?_, fun _ => hcount, fun hc => (by cases hc)⟩
      dsimp only
      rw [exec_bind_ok (exec_change hcount), exec_bind_ok (exec_global _)]
      rfl
  · obtain ⟨s2, hs2, hlen⟩ := hins info hof
    have hb := htable a b rfl
    dsimp only at hb
    rw [← h.sized.versions] at hb
    obtain ⟨versions, hvlen, hrelease, -⟩ := exec_release_locks (s := s2) (a := a) (b := b) (by omega)
    refine ⟨false, { s2 with versions }, ?_, fun hc => (by cases hc), fun _ => ?_⟩
    · dsimp only
      rw [exec_bind_ok (exec_change hs2), exec_bind_ok hrelease, exec_bind_ok (exec_global _)]
      rfl
    · exact ⟨info, s2, hof, hs2, alike_versions hvlen, rfl⟩

/-- The search phase under the locks of the region. -/
theorem exec_add_search_locked {v : Nat} {node : Node} (h : WellFormed s) (hnode : s.node e.src = .ok node)
    (hrun : exec (binary_search s.N e (node.beginning + 1) node.end_ false) s = .ok ((p, v), s))
    (hend : node.end_ < s.N) (c : Nat → Nat) :
    exec (add_search s.N true e e.src node) (with_counts c s) = .ok (some (p, v), with_counts c s) := by
  have hsearch : exec (binary_search s.N e (node.beginning + 1) node.end_ false) (with_counts c s) =
      .ok ((p, v), with_counts c s) := by
    rw [exec_reads_counts (only_reads_binary_search _ _ _ _), hrun]
    rfl
  have hleaf : node.end_ / logN s.N < (with_counts c s).versions.length := by
    rw [with_counts_versions, h.sized.versions]
    exact slot_in_table h.sized.pow hend
  have hnow : (with_counts c s).node e.src = .ok { node with num_neighbors := c e.src } :=
    node_counts.mpr ⟨node, hnode, rfl⟩
  unfold add_search
  dsimp only
  simp only [get_node_id_find_leaf, if_true]
  rw [exec_bind_ok (exec_leaf_range _ fun _ => hleaf), exec_look_bind hnow, exec_bind_ok (exec_test _ _)]
  simp only [bne_self_eq_false, Bool.or_self, Bool.false_eq_true, if_false]
  rw [exec_bind_ok ((exec_search_unlock _ _ fun _ => hleaf).trans hsearch)]
  rfl

/-- The search phase: the slot that the search gives, or another try comes with the counter put
back. -/
theorem exec_add_search {v : Nat} {node : Node} (h : WellFormed s) (hnode : s.node e.src = .ok node)
    (hrun : exec (binary_search s.N e (node.beginning + 1) node.end_ false) s = .ok ((p, v), s))
    (hend : node.end_ < s.N) (c : Nat → Nat) (lock_bsearch : Bool) :
    exec (add_search s.N lock_bsearch e e.src node) (with_counts c s) =
        .ok (some (p, v), with_counts c s) ∨
      ∃ s', (with_counts c s).count_neighbors e.src decr32 = .ok s' ∧
        exec (add_search s.N lock_bsearch e e.src node) (with_counts c s) = .ok (none, s') := by
  cases lock_bsearch with
  | true => exact .inl (exec_add_search_locked h hnode hrun hend c)
  | false =>
    have hsearch : exec (binary_search s.N e (node.beginning + 1) node.end_ false) (with_counts c s) =
        .ok ((p, v), with_counts c s) := by
      rw [exec_reads_counts (only_reads_binary_search _ _ _ _), hrun]
      rfl
    unfold add_search
    dsimp only
    rw [if_neg (by decide), exec_bind_ok hsearch]
    dsimp only
    split
    · right
      have hn : e.src < (with_counts c s).get_n := by
        rw [(alike_with_counts c s).get_n]
        exact node_lt hnode
      obtain ⟨c', hcount, -⟩ := count_exists decr32 hn
      refine ⟨_, hcount, ?_⟩
      rw [exec_bind_ok (exec_change hcount), exec_bind_ok (exec_global _)]
      rfl
    · exact .inl rfl

/-- A try with the edge: it goes in with the counter of its source one up, or nothing changes and
another try comes. -/
theorem exec_add_edge_try {v : Nat} (h : WellFormed s) (hc : Counted s) (hp : p < s.N)
    (hpos : 0 < p) (hf : Finds s e p v)
    (hins : ∀ c, CanInsert (with_counts c s) p e) :
    ∃ again s', exec (add_edge_try e e.src) s = .ok (again, s') ∧ (again = true → s' = s) ∧
      (again = false → ∃ c, tallies (with_counts c s) = (tallies s).modify e.src incr32 ∧
        Inserts (with_counts c s) p e s') := by
  obtain ⟨node, hnode, hend, hrun⟩ := hf.region h
  obtain ⟨c, hcount, htally, hback⟩ :=
    count_back (g := decr32) hf.src_lt hc fun x hx => decr32_incr32 hx
  have halike := alike_with_counts c s
  unfold add_edge_try
  rw [exec_bind_ok (exec_global _), exec_look_bind (b := s.N) rfl,
    exec_look_bind (b := s.lock_bsearch) rfl, exec_look_bind hnode, exec_bind_ok (exec_change hcount)]
  rcases exec_add_search h hnode hrun hend c s.lock_bsearch with hsome | ⟨s', hcount', hnone⟩
  · rw [exec_bind_ok hsome]
    obtain ⟨again, s', hcommit, hagain, hdone⟩ := exec_add_commit (halike.well_formed h) hp hpos
      (hf.counts c) (hins c) s.lock_bsearch
    refine ⟨again, s', hcommit, fun ha => ?_, fun ha => ⟨c, htally, hdone ha⟩⟩
    have hboth := hback.symm.trans (hagain ha)
    exact (Except.ok.inj hboth).symm
  · rw [exec_bind_ok hnone]
    refine ⟨true, s', rfl, fun _ => ?_, fun hc => (by cases hc)⟩
    have hboth := hback.symm.trans hcount'
    exact (Except.ok.inj hboth).symm

/-- What an added edge leaves behind. -/
def Adds (s : PCSR) (p : Nat) (e : Edge) (s' : PCSR) : Prop :=
  ∃ c, tallies (with_counts c s) = (tallies s).modify e.src incr32 ∧
    Inserts (with_counts c s) p e s'

theorem exec_add_edge_parallel {src dest value v : Nat} (h : WellFormed s) (hc : Counted s)
    (hp : p < s.N) (hpos : 0 < p) (hval : value ≠ 0) (hf : Finds s ⟨src, dest, value⟩ p v)
    (hins : ∀ c, CanInsert (with_counts c s) p ⟨src, dest, value⟩) (tries : Nat) :
    ∃ s', exec (add_edge_parallel src dest value tries) s = .ok ((), s') ∧
      Adds s p ⟨src, dest, value⟩ s' := by
  have hn : src < s.get_n := hf.src_lt
  induction tries with
  | zero =>
    obtain ⟨c, hcount, htally⟩ := count_exists incr32 hn
    obtain ⟨s2, hglobal, hres⟩ := exec_insert_global (hf.counts c) (.inl rfl) (hins c)
    refine ⟨s2, ?_, c, htally, hres⟩
    unfold add_edge_parallel
    rw [exec_look_bind (b := s.get_n) rfl, if_pos ⟨hval, hn⟩, exec_bind_ok (exec_global _),
      exec_bind_ok (exec_change hcount), exec_bind_ok hglobal]
    rfl
  | succ tries ih =>
    obtain ⟨again, s1, htry, hagain, hdone⟩ := exec_add_edge_try h hc hp hpos hf hins
    unfold add_edge_parallel
    rw [exec_look_bind (b := s.get_n) rfl, if_pos ⟨hval, hn⟩, exec_bind_ok htry]
    cases again with
    | true =>
      rw [hagain rfl, if_pos rfl]
      exact ih
    | false => exact ⟨s1, rfl, hdone rfl⟩

/-- A call of `add_edge`: one insertion at the slot that the search gives. -/
theorem exec_add_edge {src dest value v : Nat} (h : WellFormed s) (hc : Counted s)
    (hp : p < s.N) (hpos : 0 < p) (hval : value ≠ 0) (hf : Finds s ⟨src, dest, value⟩ p v)
    (hins : ∀ c, CanInsert (with_counts c s) p ⟨src, dest, value⟩) :
    ∃ s', exec (add_edge src dest value) s = .ok ((), s') ∧ Adds s p ⟨src, dest, value⟩ s' :=
  exec_add_edge_parallel h hc hp hpos hval hf hins 4

/-! ## Removals -/

theorem Alike.correct_position (h : Alike s s') (src index dest : Nat) :
    correct_position s' src index dest = packed_csr.correct_position s src index dest := by
  unfold packed_csr.correct_position next_item prev_item
  rw [h.items, h.get_n]

theorem Alike.stored_at (h : Alike s s') : StoredAt s' p e ↔ StoredAt s p e := by
  unfold StoredAt
  rw [h.items]

theorem exec_remove_search {v : Nat} {node : Node} (h : WellFormed s) (hf : Finds s e p v)
    (hnode : s.node e.src = .ok node) (hend : node.end_ < s.N)
    (hrun : exec (binary_search s.N e (node.beginning + 1) node.end_ false) s = .ok ((p, v), s))
    (lock_bsearch : Bool) :
    exec (remove_search s.N lock_bsearch e e.src node) s = .ok (some (p, v), s) := by
  have hleaf : node.end_ / logN s.N < s.versions.length := by
    rw [h.sized.versions]
    exact slot_in_table h.sized.pow hend
  unfold remove_search
  dsimp only
  simp only [get_node_id_find_leaf]
  split
  · rw [exec_bind_ok (exec_leaf_range _ fun _ => hleaf), exec_look_bind hnode,
      exec_bind_ok (exec_test _ _)]
    simp only [bne_self_eq_false, Bool.or_self, Bool.false_eq_true, if_false]
    rw [exec_bind_ok hrun]
    dsimp only
    rw [exec_look_bind hf.version, exec_bind_ok (exec_leaf_range _ fun _ => hleaf)]
    rfl
  · rw [exec_look_bind hnode, exec_bind_ok hrun]
    rfl

/-- The state behind a removal at slot `p`: without the edge there, nothing is removed. Under the
global lock, where the array may be halved, no version goes up. -/
def Removes (s : PCSR) (p : Nat) (e : Edge) (s' : PCSR) : Prop :=
  (¬ StoredAt s p e ∧ s' = s) ∨
    (StoredAt s p e ∧ ∃ s2, exec (remove p e) s = .ok ((), s2) ∧ Alike s2 s' ∧ tallies s' = tallies s2 ∧
      (s2.N ≠ s.N → s' = s2))

theorem exec_remove_global {v : Nat} {s2 : PCSR} (hf : Finds s e p v)
    (hrem : exec (remove p e) s = .ok ((), s2)) :
    exec (remove_global e e.src) s = .ok ((), s2) := by
  obtain ⟨node, hnode, hrun⟩ := hf.search
  unfold remove_global
  rw [exec_look_bind (b := s.N) rfl, exec_look_bind hnode, exec_bind_ok hrun]
  exact hrem

/-- What is stored at a slot under the destination of an edge is an edge. -/
theorem StoredAt.edge (h : WellFormed s) (hd : e.dest < UINT32_MAX) (hst : StoredAt s p e) :
    ∃ x, s.items[p]? = some x ∧ full x = true ∧ is_sentinel x = false ∧ x.dest = e.dest ∧
      is_sentinel e = false := by
  obtain ⟨x, hx, hnull, hes, hdest⟩ := hst
  have hfull : full x = true := by simp [full, hnull]
  refine ⟨x, hx, hfull, ?_, hdest, hes⟩
  rcases h.arranged.slot_item hx hfull with he | ⟨v, -, rfl⟩
  · exact he.not_sentinel
  · exact absurd hdest (Nat.ne_of_gt hd)

/-- How `acquire_remove_locks` ends in a commit. -/
def RemovalPlans (s : PCSR) (e : Edge) (p v : Nat) (acquired : Acquired) : Prop :=
  ∃ u, exec (acquire_remove_locks s.N p e e.src v (s.N + 2) none) s = .ok (acquired, u)

/-- The commit at any slot: the two tests decide whether another try comes. A removal under the global
lock searches again, and has to come to the same slot. -/
theorem exec_remove_commit_at {v : Nat} (h : WellFormed s) (hp : p < s.N) (hpos : 0 < p)
    (hd : e.dest < UINT32_MAX) (hsrc : e.src < s.get_n)
    (hglobal : Passes s s.N e.src p e v → StoredAt s p e → ∀ s2, exec (remove p e) s = .ok ((), s2) →
      exec (remove_global e e.src) s = .ok ((), s2)) :
    ∃ acquired again s', RemovalPlans s e p v acquired ∧
      exec (remove_commit s.N e e.src p v) s = .ok (again, s') ∧
      (again = true → acquired = .special .NEED_RETRY ∧ ¬ Passes s s.N e.src p e v ∧
        s.count_neighbors e.src incr32 = .ok s') ∧
      (again = false → Passes s s.N e.src p e v ∧ Removes s p e s' ∧
        (acquired = .special .NEED_GLOBAL_WRITE ∨ Guarded s s') ∧
        (¬ StoredAt s p e → acquired = .special .EDGE_NOT_FOUND)) := by
  have hlen : p ≤ s.items.length := by
    rw [h.sized.items]
    exact hp.le
  have hread : PositionRead s e.src p := .inr (prev_item_exists (j := 0) hlen hpos h.first (by simp))
  have hfree : Free .sound s.N ⟨s, no_locks⟩ := ⟨⟨rfl, h.sized.pow, fun _ => h.sized⟩, rfl⟩
  have hleaf : p / logN s.N < s.N + 2 := by
    have := Nat.div_le_self p (logN s.N)
    omega
  obtain ⟨a, u, hrun, hk, hend⟩ := meets_exec (meets_acquire_remove_locks p e e.src v (s.N + 2) none
    hfree (fun l hl => by cases hl) (fun _ => ⟨hp, hread⟩) fun _ => hleaf)
  rw [hk.2 (by decide)] at hrun
  refine ⟨a, ?_⟩
  have hplans : RemovalPlans s e p v a := ⟨s, hrun⟩
  unfold remove_commit
  rw [exec_bind_ok hrun]
  rcases a with (_ | _ | _) | ⟨a, b⟩
  · -- the removal halves the array
    obtain ⟨hheld, hst, hpass⟩ := hend
    have hpass := hpass rfl rfl
    have hstored := (hst (by decide)).1
    obtain ⟨x, hx, hfull, hs, hdest, hes⟩ := StoredAt.edge h hd hstored
    obtain ⟨s2, hs2, -⟩ := exec_remove_stored h hx hfull hes hs hdest
    have hlocks : 0 ≤ s.N / logN s.N - 1 → s.N / logN s.N - 1 < s.versions.length := by
      intro _
      rw [h.sized.versions]
      exact hheld.in_table
    refine ⟨false, s2, hplans, ?_, fun hc => (by cases hc), fun _ => ⟨hpass, ?_, .inl rfl,
      fun hno => absurd hstored hno⟩⟩
    · dsimp only
      unfold release_locks_no_inc
      rw [exec_bind_ok (exec_leaf_range _ hlocks), exec_bind_ok (exec_global _),
        exec_bind_ok (exec_global _), exec_bind_ok (hglobal hpass hstored s2 hs2),
        exec_bind_ok (exec_global _)]
      rfl
    · exact .inr ⟨hstored, s2, hs2, Alike.refl s2, rfl, fun _ => rfl⟩
  · -- another try
    obtain ⟨-, hno⟩ := hend
    obtain ⟨c, hcount, -⟩ := count_exists incr32 hsrc
    refine ⟨true, with_counts c s, hplans, ?_, fun _ => ⟨rfl, (hno rfl).2, hcount⟩, fun hc => (by cases hc)⟩
    dsimp only
    rw [exec_bind_ok (exec_change hcount), exec_bind_ok (exec_global _)]
    rfl
  · -- there is no such edge
    obtain ⟨-, hno, hpass⟩ := hend
    refine ⟨false, s, hplans, ?_, fun hc => (by cases hc), fun _ => ⟨hpass rfl rfl, ?_,
      .inr (.of_same rfl rfl rfl), fun _ => rfl⟩⟩
    · dsimp only
      rw [exec_bind_ok (exec_global _)]
      rfl
    · exact .inl ⟨hno (by decide), rfl⟩
  · -- the edge is removed under the locks of a range of leaves
    obtain ⟨hheld, hst, hpass⟩ := hend
    obtain ⟨hstored, j, hj, hleft, hright⟩ := hst (by decide)
    obtain ⟨x, hx, hfull, hs, hdest, hes⟩ := StoredAt.edge h hd hstored
    obtain ⟨halves, s2, hitems⟩ := remove_items_exists h hx hfull hes hs hdest
    have hfalse : halves = false := by
      cases halves with
      | false => rfl
      | true => exact absurd hitems (remove_items_stops h.sized ⟨j, hj⟩)
    rw [hfalse] at hitems
    have hs2 : exec (remove p e) s = .ok ((), s2) := by
      unfold remove
      rw [exec_bind_ok (exec_act hitems)]
      rfl
    have hframe := remove_items_frame hitems
    have hN := hframe.N
    have hb : b < s2.versions.length := by
      rw [hframe.versions, h.sized.versions]
      exact hheld.in_table
    obtain ⟨versions, hvlen, hrelease, hat⟩ := exec_release_locks (s := s2) (a := a) hb
    refine ⟨false, { s2 with versions }, hplans, ?_, fun hc => (by cases hc),
      fun _ => ⟨hpass rfl rfl, ?_, .inr ?_, fun hno => absurd hstored hno⟩⟩
    · dsimp only
      rw [exec_bind_ok hs2, exec_bind_ok hrelease, exec_bind_ok (exec_global _)]
      rfl
    · exact .inr ⟨hstored, s2, hs2, alike_versions hvlen, rfl, fun hne => absurd hN hne⟩
    · apply Guarded.of_release hN hframe.versions hvlen _ hat
      intro k hk
      apply remove_items_outside h.sized hstored hitems hj
      intro hin
      exact hk ⟨le_div_of_mul_le (hleft.trans hin.1), Nat.le_of_lt_succ
        ((Nat.div_lt_iff_lt_mul (logN_pos s.N)).mpr (hin.2.trans_le hright))⟩

/-- The commit: the validation decides whether another try comes. -/
theorem exec_remove_commit {v : Nat} (h : WellFormed s) (hp : p < s.N) (hpos : 0 < p)
    (hd : e.dest < UINT32_MAX) (hf : Finds s e p v) :
    ∃ again s', exec (remove_commit s.N e e.src p v) s = .ok (again, s') ∧
      (again = true → correct_position s e.src p e.dest = false ∧
        s.count_neighbors e.src incr32 = .ok s') ∧
      (again = false → correct_position s e.src p e.dest = true ∧ Removes s p e s') := by
  obtain ⟨acquired, again, s', -, hrun, hagain, hdone⟩ := exec_remove_commit_at h hp hpos hd hf.src_lt
    fun _ _ s2 hs2 => exec_remove_global hf hs2
  refine ⟨again, s', hrun, fun ha => ?_, fun ha => ?_⟩
  · obtain ⟨-, hno, hcount⟩ := hagain ha
    refine ⟨?_, hcount⟩
    rw [Bool.eq_false_iff]
    intro hcorrect
    exact hno ⟨hcorrect, hf.version⟩
  · obtain ⟨hpass, hrem, -⟩ := hdone ha
    exact ⟨hpass.1, hrem⟩

/-- What a removed edge leaves behind. -/
def Deletes (s : PCSR) (p : Nat) (e : Edge) (s' : PCSR) : Prop :=
  ∃ c, tallies (with_counts c s) = (tallies s).modify e.src decr32 ∧ Removes (with_counts c s) p e s'

/-- A try of `remove_edge`: where the validation rejects the slot that the search gives, nothing
changes and another try comes. -/
theorem exec_remove_edge_try {src dest v : Nat} (h : WellFormed s) (hc : Counted s) (hp : p < s.N)
    (hpos : 0 < p) (hd : dest < UINT32_MAX) (hf : Finds s ⟨src, dest, 1⟩ p v) :
    (correct_position s src p dest = false ∧ exec (remove_edge_try src dest) s = .ok (true, s)) ∨
      (correct_position s src p dest = true ∧
        ∃ s', exec (remove_edge_try src dest) s = .ok (false, s') ∧ Deletes s p ⟨src, dest, 1⟩ s') := by
  obtain ⟨node, hnode, hend, hrun⟩ := hf.region h
  obtain ⟨c, hcount, htally, hback⟩ :=
    count_back (g := incr32) hf.src_lt hc fun x hx => incr32_decr32 hx
  have halike := alike_with_counts c s
  obtain ⟨again, s', hcommit, hagain, hdone⟩ := exec_remove_commit (halike.well_formed h) hp hpos hd
    (hf.counts c)
  rw [halike.correct_position] at hagain hdone
  have htry : exec (remove_edge_try src dest) s = .ok (again, s') := by
    unfold remove_edge_try
    rw [exec_bind_ok (exec_global _), exec_look_bind (b := s.N) rfl,
      exec_look_bind (b := s.lock_bsearch) rfl, exec_look_bind hnode,
      exec_bind_ok (exec_remove_search h hf hnode hend hrun s.lock_bsearch)]
    dsimp only
    rw [exec_bind_ok (exec_change hcount)]
    exact hcommit
  cases again with
  | true =>
    obtain ⟨hwrong, hagain⟩ := hagain rfl
    have hsame : s' = s := (Except.ok.inj (hback.symm.trans hagain)).symm
    rw [hsame] at htry
    exact .inl ⟨hwrong, htry⟩
  | false =>
    obtain ⟨hright, hrem⟩ := hdone rfl
    exact .inr ⟨hright, s', htry, c, htally, hrem⟩

/-- A call of `remove_edge` whose slot passes the validation. -/
theorem exec_remove_edge {src dest v : Nat} (h : WellFormed s) (hc : Counted s) (hp : p < s.N)
    (hpos : 0 < p) (hd : dest < UINT32_MAX) (hf : Finds s ⟨src, dest, 1⟩ p v)
    (hcorrect : correct_position s src p dest = true) :
    ∃ s', (∀ calls, exec (remove_edge src dest (calls + 1)) s = .ok ((), s')) ∧
      Deletes s p ⟨src, dest, 1⟩ s' := by
  rcases exec_remove_edge_try h hc hp hpos hd hf with ⟨hwrong, -⟩ | ⟨-, s', htry, hres⟩
  · rw [hcorrect] at hwrong
    cases hwrong
  · refine ⟨s', fun calls => ?_, hres⟩
    unfold remove_edge
    rw [exec_bind_ok htry]
    rfl

/-- A call of `remove_edge` whose slot does not pass it calls itself for ever. -/
theorem exec_remove_edge_stuck {src dest v : Nat} (h : WellFormed s) (hc : Counted s) (hp : p < s.N)
    (hpos : 0 < p) (hd : dest < UINT32_MAX) (hf : Finds s ⟨src, dest, 1⟩ p v)
    (hwrong : correct_position s src p dest = false) (calls : Nat) :
    exec (remove_edge src dest calls) s = .error .fuel := by
  induction calls with
  | zero => rfl
  | succ calls ih =>
    rcases exec_remove_edge_try h hc hp hpos hd hf with ⟨-, htry⟩ | ⟨hcorrect, -⟩
    · unfold remove_edge
      rw [exec_bind_ok htry]
      exact ih
    · rw [hcorrect] at hwrong
      cases hwrong

end

end packed_csr
