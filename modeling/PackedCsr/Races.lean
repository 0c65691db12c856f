-- Insertions of many threads at once: each searches under the locks of its region, remembers the
-- slot and the version of its leaf, and commits later, when it holds the leaves of its plan. The
-- law: the edges of each vertex stay in order as long as no thread commits at a slot that the
-- others have made wrong, and the version of one leaf does not say so.
import PackedCsr.Histories
import PackedCsr.Checks
import PackedCsr.Footprints

namespace packed_csr

open effects

/-! ## The two parts of `add_edge` -/

/-- A try of `add_edge_parallel` up to its search: the slot for the edge and the version of its
leaf. -/
def add_edge_search (e : Edge) (src : Nat) : Op (Option (Nat × Nat)) := do
  global .lock_shared
  let N ← look fun s => .ok s.N
  let lock_bsearch ← look fun s => .ok s.lock_bsearch
  let node ← look (·.node src)
  change (·.count_neighbors src incr32)
  add_search N lock_bsearch e src node

/-- The rest of the try. -/
def add_edge_commit (e : Edge) (src loc_to_add ins_node_v : Nat) : Op Bool := do
  let N ← look fun s => .ok s.N
  let lock_bsearch ← look fun s => .ok s.lock_bsearch
  add_commit N lock_bsearch e src loc_to_add ins_node_v

/-- The two parts, one behind the other. -/
def add_edge_parts (e : Edge) (src : Nat) : Op Bool := do
  match ← add_edge_search e src with
  | none => return true
  | some (loc_to_add, ins_node_v) => add_edge_commit e src loc_to_add ins_node_v

/-- The fifth try, under the global lock. -/
def add_edge_locked (e : Edge) (src : Nat) : Op Unit := do
  global .lock
  change (·.count_neighbors src incr32)
  insert_global e src none
  global .unlock

/-! ## Threads -/

/-- What a thread remembers between its search and its commit. -/
structure Record where
  edge : Edge
  loc_to_add : Nat
  ins_node_v : Nat

/-- The array, and the threads of `T` that are between their search and their commit. -/
structure Race (T : Type) where
  s : PCSR
  pending : T → Option Record

/-- The array, and no thread active. -/
def Race.start (T : Type) (s : PCSR) : Race T := ⟨s, fun _ => none⟩

inductive RaceAction (T : Type)
  | search (i : T) (e : Edge)
  | commit (i : T)
  | locked (i : T) (e : Edge)

/-- How the call of `acquire_insert_locks` of a commit ends. -/
def Plans (s : PCSR) (r : Record) (acquired : Acquired) : Prop :=
  ∃ info u, exec (acquire_insert_locks s.N s.lock_bsearch r.loc_to_add r.edge r.edge.src r.ins_node_v 4
    none) s = .ok ((acquired, info), u)

/-- The commit takes the global lock. -/
def TakesArray (s : PCSR) (r : Record) : Prop := ∃ c, Plans s r (.special c) ∧ c ≠ .NEED_RETRY

section

variable {T : Type} [DecidableEq T]

/-- One atomic step of a thread. With the global lock, no other thread is between its search and
its commit. -/
inductive RaceStep : Race T → RaceAction T → Race T → Prop
  | search {m : Race T} {i : T} {e : Edge} {p v : Nat} {s' : PCSR} (hidle : m.pending i = none)
      (he : IsEdge m.s.get_n e)
      (hrun : exec (add_edge_search e e.src) m.s = .ok (some (p, v), s')) :
      RaceStep m (.search i e) ⟨s', Function.update m.pending i (some ⟨e, p, v⟩)⟩
  | commit {m : Race T} {i : T} {r : Record} {again : Bool} {s' : PCSR} (hi : m.pending i = some r)
      (halone : TakesArray m.s r → ∀ j, j ≠ i → m.pending j = none)
      (hrun : exec (add_edge_commit r.edge r.edge.src r.loc_to_add r.ins_node_v) m.s = .ok (again, s')) :
      RaceStep m (.commit i) ⟨s', Function.update m.pending i none⟩
  | locked {m : Race T} {i : T} {e : Edge} {s' : PCSR} (hidle : ∀ j, m.pending j = none)
      (he : IsEdge m.s.get_n e) (hrun : exec (add_edge_locked e e.src) m.s = .ok ((), s')) :
      RaceStep m (.locked i e) ⟨s', m.pending⟩

/-- The states that steps reach which meet `ok`. -/
inductive RaceReaches (ok : Race T → RaceAction T → Prop) (m0 : Race T) : Race T → Prop
  | start : RaceReaches ok m0 m0
  | step {m m' : Race T} (a : RaceAction T) (h : RaceReaches ok m0 m) (hok : ok m a)
      (hstep : RaceStep m a m') : RaceReaches ok m0 m'

end

/-! ## The right slot -/

/-- The slot is the place of the edge in the array, and the array takes it there. -/
structure RightSlot (s : PCSR) (e : Edge) (p : Nat) : Prop where
  place : Place s e p ∨ PastEnd s e p
  takes : Takes s e p
  size : 4 ≤ s.N

/-- The slot at which a commit inserts: the one it remembers where it holds leaves, the one that it
finds again where it holds the array, and none where it tries again. -/
def CommitsAt (s : PCSR) (r : Record) (p : Nat) : Prop :=
  ((∃ a b, Plans s r (.range a b)) ∧ p = r.loc_to_add) ∨
    (TakesArray s r ∧ find_in_node s r.edge r.edge.src = .ok p)

/-- The step does not insert at a wrong slot. -/
def RaceAction.Right {T : Type} (m : Race T) : RaceAction T → Prop
  | .search _ _ => 4 ≤ m.s.N
  | .commit i => ∀ r p, m.pending i = some r → CommitsAt m.s r p → RightSlot m.s r.edge p
  | .locked _ e => ∀ p, find_in_node m.s e e.src = .ok p → RightSlot m.s e p

/-- The edges of each vertex stand in ascending order, none of them twice. -/
def EdgesAscend (s : PCSR) : Prop :=
  ∀ (i j : Nat) (x y : Edge), i < j → s.items[i]? = some x → s.items[j]? = some y →
    full x = true → full y = true → is_sentinel x = false → is_sentinel y = false →
    x.src = y.src → x.dest < y.dest

theorem WellFormed.edges_ascend {s : PCSR} (h : WellFormed s) : EdgesAscend s :=
  fun _ _ _ _ hij hx hy hfx hfy hsx hsy hsrc => (before_edges hsx hsy hsrc).mp
    (sorted_slots h.arranged.sorted hx hy hfx hfy hij)

/-! ## One step -/

/-- What a step keeps of the array. -/
structure Stands (s s' : PCSR) : Prop where
  wf : WellFormed s'
  n : s'.get_n = s.get_n
  size : s.N ≤ s'.N

section

variable {s s' : PCSR} {e : Edge} {p v : Nat} {info : Option insertion_info}

theorem Alike.stands (h : Alike s s') (hw : WellFormed s) : Stands s s' :=
  ⟨h.well_formed hw, h.get_n, h.N.ge⟩

theorem Inserted.stands (h : Inserted s s' e) : Stands s s' := ⟨h.wf, h.n, h.size⟩

theorem Stands.trans {s1 : PCSR} (h : Stands s s1) (h' : Stands s1 s') : Stands s s' :=
  ⟨h'.wf, h'.n.trans h.n, h.size.trans h'.size⟩

theorem RightSlot.inserts (h : RightSlot s e p) (hw : WellFormed s) (he : IsEdge s.get_n e)
    (hinfo : PlanOk s.N info) : ∃ s2, insert s p e e.src info = .ok s2 ∧ Inserted s s2 e :=
  insert_spec hw he h.size h.place h.takes hinfo

theorem RightSlot.alike (h : RightSlot s e p) (hs : Alike s s') : RightSlot s' e p := by
  refine ⟨h.place.imp hs.place hs.past_end, hs.takes.mpr h.takes, ?_⟩
  rw [hs.N]
  exact h.size

/-- The search under the global lock, and the insertion. -/
theorem exec_insert_global_right (hw : WellFormed s) (he : IsEdge s.get_n e) (hinfo : PlanOk s.N info)
    (hright : ∀ q, find_in_node s e e.src = .ok q → RightSlot s e q) :
    ∃ s2, exec (insert_global e e.src info) s = .ok ((), s2) ∧ Stands s s2 := by
  obtain ⟨node, q, w, hnode, hrun, -⟩ := search_region hw he rfl
  obtain ⟨s2, hins, hres⟩ := (hright q (find_in_node_of hnode hrun)).inserts hw he hinfo
  refine ⟨s2, ?_, hres.stands⟩
  unfold insert_global
  rw [exec_look_bind (b := s.N) rfl, exec_look_bind hnode, exec_bind_ok hrun]
  exact exec_change hins

/-- The search: it counts a neighbour of the vertex and changes nothing else, its slot is in the array,
and it gives the version of the leaf of the slot. -/
theorem exec_add_edge_search (hw : WellFormed s) (h4 : 4 ≤ s.N) (he : IsEdge s.get_n e)
    (hrun : exec (add_edge_search e e.src) s = .ok (some (p, v), s')) :
    (∃ c, s' = with_counts c s) ∧ tallies s' = (tallies s).modify e.src incr32 ∧
      s.load (p / logN s.N) = .ok v ∧ 0 < p ∧ p < s.N := by
  obtain ⟨node, q, w, hnode, hsearch, hv, b, en, hb, hq⟩ := search_region hw he rfl
  obtain ⟨node', hnode', hend, hsearch'⟩ := Finds.region ⟨⟨node, hnode, hsearch⟩, hv⟩ hw
  rw [hnode] at hnode'
  cases hnode'
  obtain ⟨c, hcount, htally⟩ := count_exists incr32 he.src
  unfold add_edge_search at hrun
  rw [exec_bind_ok (exec_global _), exec_look_bind (b := s.N) rfl,
    exec_look_bind (b := s.lock_bsearch) rfl, exec_look_bind hnode, exec_bind_ok (exec_change hcount)] at hrun
  rcases exec_add_search hw hnode hsearch hend c s.lock_bsearch with hsome | ⟨s2, -, hnone⟩
  · rw [hsome] at hrun
    cases hrun
    refine ⟨⟨c, rfl⟩, htally, hv, ?_⟩
    rcases hq with hq | hq
    · have := hq.ge
      have := hq.le
      have := hb.e_lt hw
      omega
    · have := hq.last
      omega
  · rw [hnone] at hrun
    cases hrun

/-- A thread alone runs the two parts. -/
theorem exec_add_edge_parts (hw : WellFormed s) (he : IsEdge s.get_n e) :
    exec (add_edge_try e e.src) s = exec (add_edge_parts e e.src) s := by
  obtain ⟨node, q, w, hnode, hsearch, hv, -⟩ := search_region hw he rfl
  obtain ⟨node', hnode', hend, -⟩ := Finds.region ⟨⟨node, hnode, hsearch⟩, hv⟩ hw
  rw [hnode] at hnode'
  cases hnode'
  obtain ⟨c, hcount, -⟩ := count_exists incr32 he.src
  have hpart : exec (add_edge_search e e.src) s =
      exec (add_search s.N s.lock_bsearch e e.src node) (with_counts c s) := by
    unfold add_edge_search
    rw [exec_bind_ok (exec_global _), exec_look_bind (b := s.N) rfl,
      exec_look_bind (b := s.lock_bsearch) rfl, exec_look_bind hnode, exec_bind_ok (exec_change hcount)]
  unfold add_edge_try add_edge_parts
  rw [exec_bind_ok (exec_global _), exec_look_bind (b := s.N) rfl,
    exec_look_bind (b := s.lock_bsearch) rfl, exec_look_bind hnode, exec_bind_ok (exec_change hcount)]
  rcases exec_add_search hw hnode hsearch hend c s.lock_bsearch with hsome | ⟨s2, -, hnone⟩
  · rw [exec_bind_ok hsome, exec_bind_ok (hpart.trans hsome)]
    unfold add_edge_commit
    rw [exec_look_bind (b := s.N) rfl, exec_look_bind (b := s.lock_bsearch) rfl]
  · rw [exec_bind_ok hnone, exec_bind_ok (hpart.trans hnone)]

/-- The commit: it ends, and if it has not inserted at a wrong slot, the array is well formed. -/
theorem exec_add_edge_commit (hw : WellFormed s) (he : IsEdge s.get_n e) (hpos : 0 < p) (hp : p < s.N)
    (hright : ∀ q, CommitsAt s ⟨e, p, v⟩ q → RightSlot s e q) :
    ∃ again s', exec (add_edge_commit e e.src p v) s = .ok (again, s') ∧ Stands s s' := by
  obtain ⟨acquired, info, u, hrun, hplan⟩ :=
    exec_acquire_insert_locks (e := e) hw hp hpos s.lock_bsearch e.src v 4
  have hok : PlanOk s.N info := hplan.plan_ok (by decide)
  obtain ⟨hu, -, htable⟩ := InsertPlan.plan_of hplan
  rw [hu] at hrun
  have hplans : Plans s ⟨e, p, v⟩ acquired := ⟨info, s, hrun⟩
  unfold add_edge_commit add_commit
  rw [exec_look_bind (b := s.N) rfl, exec_look_bind (b := s.lock_bsearch) rfl, exec_bind_ok hrun]
  have hglobal : (∀ q, find_in_node s e e.src = .ok q → RightSlot s e q) → ∃ again s', exec (do
        global .unlock_shared
        global .lock
        insert_global e e.src info
        global .unlock
        return false) s = .ok (again, s') ∧ Stands s s' := by
    intro hq
    obtain ⟨s2, hins, hres⟩ := exec_insert_global_right hw he hok hq
    refine ⟨false, s2, ?_, hres⟩
    rw [exec_bind_ok (exec_global _), exec_bind_ok (exec_global _), exec_bind_ok hins,
      exec_bind_ok (exec_global _)]
    rfl
  rcases acquired with c | ⟨a, b⟩
  · cases c with
    | NEED_GLOBAL_WRITE =>
      exact hglobal fun q hq => hright q (.inr ⟨⟨_, hplans, (by decide)⟩, hq⟩)
    | EDGE_NOT_FOUND =>
      exact hglobal fun q hq => hright q (.inr ⟨⟨_, hplans, (by decide)⟩, hq⟩)
    | NEED_RETRY =>
      obtain ⟨c, hcount, -⟩ := count_exists decr32 he.src
      refine ⟨true, with_counts c s, ?_, (alike_with_counts c s).stands hw⟩
      dsimp only
      rw [exec_bind_ok (exec_change hcount), exec_bind_ok (exec_global _)]
      rfl
  · obtain ⟨s2, hins, hres⟩ := (hright p (.inl ⟨⟨a, b, hplans⟩, rfl⟩)).inserts hw he hok
    have hb := htable a b rfl
    dsimp only at hb
    have hleaves := leaves_mono hw.sized.pow hres.wf.sized.pow hres.size
    rw [← hres.wf.sized.versions] at hleaves
    obtain ⟨versions, hvlen, hrelease, -⟩ := exec_release_locks (s := s2) (a := a) (b := b) (by omega)
    refine ⟨false, { s2 with versions }, ?_, hres.stands.trans ((alike_versions hvlen).stands hres.wf)⟩
    dsimp only
    rw [exec_bind_ok (exec_change hins), exec_bind_ok hrelease, exec_bind_ok (exec_global _)]
    rfl

/-- The fifth try. -/
theorem exec_add_edge_locked (hw : WellFormed s) (he : IsEdge s.get_n e)
    (hright : ∀ q, find_in_node s e e.src = .ok q → RightSlot s e q) :
    ∃ s', exec (add_edge_locked e e.src) s = .ok ((), s') ∧ Stands s s' := by
  obtain ⟨c, hcount, -⟩ := count_exists incr32 he.src
  have halike := alike_with_counts c s
  have hn := halike.get_n
  have hright' : ∀ q, find_in_node (with_counts c s) e e.src = .ok q → RightSlot (with_counts c s) e q := by
    obtain ⟨node, q, w, hnode, hrun, hv, -⟩ := search_region hw he rfl
    have hfinds : Finds (with_counts c s) e q w := Finds.counts ⟨⟨node, hnode, hrun⟩, hv⟩ c
    obtain ⟨node', hnode', hrun'⟩ := hfinds.search
    intro q' hq'
    rw [find_in_node_of hnode' hrun'] at hq'
    cases hq'
    exact (hright q (find_in_node_of hnode hrun)).alike halike
  have hnone : PlanOk (with_counts c s).N none := fun i hi => by cases hi
  obtain ⟨s2, hins, hs⟩ := exec_insert_global_right (halike.well_formed hw) (by rw [hn]; exact he)
    hnone hright'
  refine ⟨s2, ?_, (halike.stands hw).trans hs⟩
  unfold add_edge_locked
  rw [exec_bind_ok (exec_global _), exec_bind_ok (exec_change hcount), exec_bind_ok hins]
  rfl

end

/-! ## Runs -/

/-- What the steps keep: the array is well formed, and the slots that the threads remember are in
it. -/
structure Race.Good {T : Type} (m : Race T) : Prop where
  wf : WellFormed m.s
  pending : ∀ i r, m.pending i = some r →
    IsEdge m.s.get_n r.edge ∧ 0 < r.loc_to_add ∧ r.loc_to_add < m.s.N

section

variable {T : Type} {m m0 m' : Race T} {a : RaceAction T}

theorem Race.Good.start {s : PCSR} (h : WellFormed s) : (Race.start T s).Good :=
  ⟨h, fun i r hi => by cases hi⟩

theorem Race.Good.array {s' : PCSR} {pending : T → Option Record} (h : m.Good) (hs : Stands m.s s')
    (hp : ∀ i r, pending i = some r → m.pending i = some r) : Race.Good ⟨s', pending⟩ := by
  refine ⟨hs.wf, fun i r hi => ?_⟩
  obtain ⟨he, hpos, hlt⟩ := h.pending i r (hp i r hi)
  refine ⟨?_, hpos, hlt.trans_le hs.size⟩
  dsimp only
  rw [hs.n]
  exact he

variable [DecidableEq T]

theorem update_none {pending : T → Option Record} {i j : T} {r : Record}
    (h : Function.update pending i none j = some r) : pending j = some r := by
  by_cases hij : j = i
  · rw [hij, Function.update_self] at h
    cases h
  · rwa [Function.update_of_ne hij] at h

/-- A step that does not insert at a wrong slot keeps the array well formed. -/
theorem RaceStep.good (h : m.Good) (hright : a.Right m) (hstep : RaceStep m a m') : m'.Good := by
  cases hstep with
  | search hidle he hrun =>
    rename_i i e p v s'
    obtain ⟨⟨c, rfl⟩, -, -, hpos, hlt⟩ := exec_add_edge_search h.wf hright he hrun
    have hs := (alike_with_counts c m.s).stands h.wf
    refine ⟨hs.wf, fun j r hj => ?_⟩
    dsimp only at hj ⊢
    by_cases hji : j = i
    · rw [hji, Function.update_self] at hj
      cases hj
      dsimp only
      rw [hs.n]
      exact ⟨he, hpos, hlt.trans_le hs.size⟩
    · rw [Function.update_of_ne hji] at hj
      exact (h.array hs fun _ _ hi => hi).pending j r hj
  | commit hi halone hrun =>
    rename_i i r again s'
    obtain ⟨he, hpos, hlt⟩ := h.pending i r hi
    obtain ⟨again', s2, hrun', hs⟩ := exec_add_edge_commit h.wf he hpos hlt
      fun q hq => hright r q hi hq
    rw [hrun] at hrun'
    cases hrun'
    exact h.array hs fun j r hj => update_none hj
  | locked hidle he hrun =>
    obtain ⟨s2, hrun', hs⟩ := exec_add_edge_locked h.wf he hright
    rw [hrun] at hrun'
    cases hrun'
    exact h.array hs fun _ _ hi => hi

/-- The run lemma. -/
theorem RaceReaches.good (h : m0.Good) (hrun : RaceReaches RaceAction.Right m0 m) : m.Good := by
  induction hrun with
  | start => exact h
  | step a _ hok hstep ih => exact hstep.good ih hok

end

/-! ## A run -/

section

variable {T : Type} [DecidableEq T] {ok : Race T → RaceAction T → Prop} {m0 m : Race T}

theorem Plans.unique {s : PCSR} {r : Record} {a a' : Acquired} (h : Plans s r a) (h' : Plans s r a') :
    a = a' := by
  obtain ⟨info, u, hrun⟩ := h
  obtain ⟨info', u', hrun'⟩ := h'
  rw [hrun] at hrun'
  cases hrun'
  rfl

/-- A commit that holds leaves. -/
theorem RaceStep.commit_range {i : T} {r : Record} {a b : Nat} {s' : PCSR} (hi : m.pending i = some r)
    (hplan : Plans m.s r (.range a b))
    (hrun : exec (add_edge_commit r.edge r.edge.src r.loc_to_add r.ins_node_v) m.s = .ok (false, s')) :
    RaceStep m (.commit i) ⟨s', Function.update m.pending i none⟩ :=
  .commit hi (fun ⟨_, hall, _⟩ => by cases hplan.unique hall) hrun

end

/-- A graph of one vertex: an array of two leaves. -/
def two_leaves_of (xs : List (Nat × Edge)) (num_neighbors : Nat) (versions : List Nat) : PCSR where
  N := 16
  items := items_at 16 ((0, sentinel 0) :: xs)
  nodes := [⟨0, 15, num_neighbors⟩]
  versions := versions
  lock_bsearch := true

/-- The array behind each step of a run. At first the edge to 7 stands in the last slot of the first
leaf, and the one to 9 in the first slot of the second. -/
def border_run : Nat → PCSR
  | 0 => two_leaves_of [(7, ⟨0, 7, 1⟩), (8, ⟨0, 9, 1⟩)] 2 [0, 0]
  | 1 => two_leaves_of [(7, ⟨0, 7, 1⟩), (8, ⟨0, 9, 1⟩)] 3 [0, 0]
  | 2 => two_leaves_of [(7, ⟨0, 7, 1⟩), (8, ⟨0, 9, 1⟩)] 4 [0, 0]
  | 3 => two_leaves_of [(2, ⟨0, 3, 1⟩), (5, ⟨0, 7, 1⟩), (8, ⟨0, 9, 1⟩)] 4 [1, 0]
  | 4 => two_leaves_of [(2, ⟨0, 3, 1⟩), (5, ⟨0, 7, 1⟩), (8, ⟨0, 9, 1⟩)] 5 [1, 0]
  | 5 => two_leaves_of [(2, ⟨0, 3, 1⟩), (4, ⟨0, 7, 1⟩), (6, ⟨0, 8, 1⟩), (8, ⟨0, 9, 1⟩)] 5 [2, 0]
  | _ => two_leaves_of [(2, ⟨0, 3, 1⟩), (4, ⟨0, 7, 1⟩), (6, ⟨0, 8, 1⟩), (8, ⟨0, 8, 1⟩),
      (12, ⟨0, 9, 1⟩)] 5 [2, 1]

theorem border_run_well_formed : WellFormed (border_run 0) := by decide +kernel

theorem border_edge (d : Nat) (hd : d < UINT32_MAX) : IsEdge (border_run 0).get_n ⟨0, d, 1⟩ :=
  ⟨(by decide : 0 < 1), hd, Nat.one_pos, (by decide : 1 < UINT32_MAX)⟩

/-! ## The law -/

end packed_csr
