-- The breadth-first search over a graph. The law: it ends, with the length of a shortest
-- path for each vertex that the start reaches, and the mark for each other.
import PackedCsr.Types
import PackedCsr.Hops
import Mathlib

namespace packed_csr

open hops

/-! ## The search -/

/-- `out[v]`. -/
def out_at (out : List Nat) (v : Nat) : Res Nat :=
  match out[v]? with
  | some x => .ok x
  | none => .error (.node v)

/-- The loop over the neighbours of `active`. -/
def visit_loop (active : Nat) : (neighbours out next : List Nat) → Res (List Nat × List Nat)
  | [], out, next => .ok (out, next)
  | neighbour :: neighbours, out, next => do
    let x ← out_at out neighbour
    if x = UINT32_MAX then
      let a ← out_at out active
      visit_loop active neighbours (out.set neighbour (incr32 a)) (next ++ [neighbour])
    else visit_loop active neighbours out next

/-- The loop over the queue, with at most `rest` rounds. -/
def bfs_loop (get_neighbourhood : Nat → Res (List Nat)) : (rest : Nat) → (out next : List Nat) →
    Res (List Nat)
  | 0, _, _ => .error .fuel
  | _ + 1, out, [] => .ok out
  | rest + 1, out, active :: next => do
    let neighbours ← get_neighbourhood active
    let (out, next) ← visit_loop active neighbours out next
    bfs_loop get_neighbourhood rest out next

/-- `bfs` on a graph that is known by its two functions. -/
def bfs (get_n : Nat) (get_neighbourhood : Nat → Res (List Nat)) (start_node : Nat) : Res (List Nat) :=
  let out := List.replicate get_n UINT32_MAX
  if start_node < get_n then
    bfs_loop get_neighbourhood (get_n + 1) (out.set start_node 0) [start_node]
  else .error (.node start_node)

/-- There is an edge from `u` to `v`. -/
def Adjacent (get_neighbourhood : Nat → Res (List Nat)) (u v : Nat) : Prop :=
  ∃ l, get_neighbourhood u = .ok l ∧ v ∈ l

/-! ## The entries of `out` as labels -/

/-- The label of a vertex: its entry, if that is not the mark. -/
def label (out : List Nat) (v : Nat) : Option Nat := out[v]?.bind fun x => if x = UINT32_MAX then none else some x

/-- The number of labelled vertices. -/
def labelled (out : List Nat) : Nat := out.countP fun x => x != UINT32_MAX

section

variable {out : List Nat} {v x n : Nat}

theorem label_mark (h : out[v]? = some UINT32_MAX) : label out v = none := by
  simp [label, h]

theorem label_some (h : out[v]? = some x) (hx : x ≠ UINT32_MAX) : label out v = some x := by
  simp [label, h, hx]

theorem entry_of_label (h : label out v = some x) : out[v]? = some x ∧ x ≠ UINT32_MAX := by
  unfold label at h
  rcases hv : out[v]? with _ | y
  · rw [hv] at h
    cases h
  · rw [hv, Option.bind_some] at h
    split at h
    · cases h
    · cases h
      exact ⟨rfl, ‹_›⟩

theorem label_set (hv : v < out.length) (hx : x ≠ UINT32_MAX) :
    label (out.set v x) = Function.update (label out) v (some x) := by
  funext w
  by_cases hw : w = v
  · rw [hw, Function.update_self]
    exact label_some (List.getElem?_set_self hv) hx
  · rw [Function.update_of_ne hw]
    unfold label
    rw [List.getElem?_set_ne (Ne.symm hw)]

theorem labelled_set (h : out[v]? = some UINT32_MAX) (hx : x ≠ UINT32_MAX) :
    labelled (out.set v x) = labelled out + 1 := by
  obtain ⟨hv, hget⟩ := List.getElem?_eq_some_iff.mp h
  unfold labelled
  rw [List.countP_set hv, hget]
  simp [hx]

/-- A vertex that has no label is not counted. -/
theorem labelled_lt (h : out[v]? = some UINT32_MAX) : labelled out < out.length := by
  unfold labelled
  rw [List.countP_lt_length_iff]
  exact ⟨UINT32_MAX, List.mem_of_getElem? h, by simp⟩

/-! ## The loops -/

/-- Between two rounds: `out` and the queue are a search, and no label reaches the number of labelled
vertices. -/
structure Searching (n : Nat) (adj : Nat → Nat → Prop) (start : Nat) (out next : List Nat) : Prop where
  search : Search adj start (label out) next
  length : out.length = n
  small : ∀ v k, label out v = some k → k < labelled out

theorem small_set (hsmall : ∀ w k, label out w = some k → k < labelled out)
    (h : out[v]? = some UINT32_MAX) (hx : x ≠ UINT32_MAX) (hlt : x < labelled out + 1) :
    ∀ w k, label (out.set v x) w = some k → k < labelled (out.set v x) := by
  intro w k hk
  rw [labelled_set h hx]
  rw [label_set (List.getElem?_eq_some_iff.mp h).1 hx] at hk
  by_cases hw : w = v
  · rw [hw, Function.update_self] at hk
    cases hk
    exact hlt
  · rw [Function.update_of_ne hw] at hk
    have := hsmall w k hk
    omega

/-- The round of `active`. -/
theorem visit_loop_spec {adj : Nat → Nat → Prop} {start active a : Nat} {neighbours next seen : List Nat}
    (hn : n < UINT32_MAX) (hadj : ∀ v ∈ neighbours, adj active v ∧ v < n) (hlen : out.length = n)
    (hsmall : ∀ w k, label out w = some k → k < labelled out)
    (h : Round adj start (label out) next active a seen) :
    ∃ out' next', visit_loop active neighbours out next = .ok (out', next') ∧ out'.length = n ∧
      (∀ w k, label out' w = some k → k < labelled out') ∧
      labelled out' + next.length = labelled out + next'.length ∧
      Round adj start (label out') next' active a (neighbours.reverse ++ seen) := by
  induction neighbours generalizing out next seen with
  | nil => exact ⟨out, next, rfl, hlen, hsmall, rfl, h⟩
  | cons v neighbours ih =>
    obtain ⟨hav, hvn⟩ := hadj v (List.mem_cons_self ..)
    have hrest : ∀ w ∈ neighbours, adj active w ∧ w < n := fun w hw => hadj w (List.mem_cons_of_mem _ hw)
    have hget : out[v]? = some out[v] := List.getElem?_eq_getElem (by omega)
    have hread : out_at out v = .ok out[v] := by
      unfold out_at
      rw [hget]
    obtain ⟨hactive, -⟩ := entry_of_label h.active
    have hreada : out_at out active = .ok a := by
      unfold out_at
      rw [hactive]
    by_cases hmark : out[v] = UINT32_MAX
    · rw [hmark] at hget
      have hcount := labelled_lt hget
      have halt := hsmall active a h.active
      have hincr : incr32 a = a + 1 := by
        unfold incr32
        apply Nat.mod_eq_of_lt
        have : UINT32_MAX = 4294967295 := rfl
        omega
      have hne : a + 1 ≠ UINT32_MAX := by omega
      have hnew := h.visit_new hav (label_mark hget)
      rw [← label_set (by omega) hne] at hnew
      obtain ⟨out', next', hrun, hlen', hsmall', hcount', h'⟩ :=
        ih hrest (by rw [List.length_set]; exact hlen) (small_set hsmall hget hne (by omega)) hnew
      refine ⟨out', next', ?_, hlen', hsmall', ?_, by simpa using h'⟩
      · unfold visit_loop
        simp only [hread, hreada, hmark, hincr, bind, Except.bind, if_true]
        exact hrun
      · rw [labelled_set hget hne] at hcount'
        rw [List.length_append, List.length_singleton] at hcount'
        omega
    · obtain ⟨out', next', hrun, hlen', hsmall', hcount', h'⟩ :=
        ih hrest hlen hsmall (h.visit_old (label_some hget hmark))
      refine ⟨out', next', ?_, hlen', hsmall', hcount', by simpa using h'⟩
      unfold visit_loop
      simp only [hread, bind, Except.bind, if_neg hmark]
      exact hrun

/-- The loop over the queue ends, with an empty queue. -/
theorem bfs_loop_spec {get_neighbourhood : Nat → Res (List Nat)} {start : Nat} {next : List Nat} (rest : Nat)
    (hn : n < UINT32_MAX) (hg : ∀ u < n, ∃ l, get_neighbourhood u = .ok l ∧ ∀ v ∈ l, v < n)
    (h : Searching n (Adjacent get_neighbourhood) start out next)
    (hrest : n + next.length < labelled out + rest) :
    ∃ out', bfs_loop get_neighbourhood rest out next = .ok out' ∧
      Searching n (Adjacent get_neighbourhood) start out' [] := by
  induction rest generalizing out next with
  | zero =>
    have hle := List.countP_le_length (p := fun x => x != UINT32_MAX) (l := out)
    have hlen := h.length
    unfold labelled at hrest
    omega
  | succ rest ih =>
    cases next with
    | nil => exact ⟨out, rfl, h⟩
    | cons active next =>
      obtain ⟨a, ha, hround⟩ := h.search.pop
      have hlt : active < n := by
        rw [← h.length]
        exact (List.getElem?_eq_some_iff.mp (entry_of_label ha).1).1
      obtain ⟨l, hl, hbound⟩ := hg active hlt
      obtain ⟨out', next', hrun, hlen', hsmall', hcount, hround'⟩ :=
        visit_loop_spec hn (fun v hv => ⟨⟨l, hl, hv⟩, hbound v hv⟩) h.length h.small hround
      have hsearch := hround'.close (by
        rintro v ⟨l', hl', hv⟩
        rw [hl] at hl'
        cases hl'
        simpa using hv)
      simp only [List.length_cons] at hrest
      obtain ⟨out2, hloop, h2⟩ := ih ⟨hsearch, hlen', hsmall'⟩ (by omega)
      refine ⟨out2, ?_, h2⟩
      unfold bfs_loop
      simp only [hl, hrun, bind, Except.bind]
      exact hloop

end

/-! ## The law -/

/-- On a graph whose neighbours are vertices the search ends. It gives one entry for each vertex: the
length of a shortest path from the start, or the mark where there is no path. -/
theorem bfs_computes_shortest_hops (n : Nat) (get_neighbourhood : Nat → Res (List Nat))
    (hn : n < UINT32_MAX) (hg : ∀ u < n, ∃ l, get_neighbourhood u = .ok l ∧ ∀ v ∈ l, v < n)
    (start_node : Nat) (hstart : start_node < n) :
    ∃ out, bfs n get_neighbourhood start_node = .ok out ∧ out.length = n ∧
      ∀ v < n, ∃ d, out[v]? = some d ∧
        ((d ≠ UINT32_MAX ∧ IsDist (Adjacent get_neighbourhood) start_node v d) ∨
          (d = UINT32_MAX ∧ ∀ k, ¬ Path (Adjacent get_neighbourhood) k start_node v)) := by
  have hlen : ((List.replicate n UINT32_MAX).set start_node 0).length = n := by simp
  have hmark : (List.replicate n UINT32_MAX)[start_node]? = some UINT32_MAX := by simp [hstart]
  have hne : (0 : Nat) ≠ UINT32_MAX := by decide
  have hnone : label (List.replicate n UINT32_MAX) = fun _ => none := by
    funext v
    unfold label
    rw [List.getElem?_replicate]
    split <;> rfl
  have hzero : labelled (List.replicate n UINT32_MAX) = 0 := by
    unfold labelled
    rw [List.countP_replicate]
    rfl
  have hsearch : Searching n (Adjacent get_neighbourhood) start_node
      ((List.replicate n UINT32_MAX).set start_node 0) [start_node] := by
    refine ⟨?_, hlen, small_set ?_ hmark hne (by omega)⟩
    · rw [label_set (by simpa using hstart) hne, hnone]
      exact search_start _ _
    · intro w k hk
      rw [hnone] at hk
      cases hk
  obtain ⟨out, hrun, h⟩ := bfs_loop_spec (n + 1) hn hg hsearch (by
    rw [labelled_set hmark hne, List.length_singleton]
    omega)
  refine ⟨out, ?_, h.length, ?_⟩
  · unfold bfs
    rw [if_pos hstart]
    exact hrun
  · intro v hv
    have hlt : v < out.length := by
      rw [h.length]
      exact hv
    have hget : out[v]? = some out[v] := List.getElem?_eq_getElem hlt
    refine ⟨_, hget, ?_⟩
    by_cases hm : out[v] = UINT32_MAX
    · right
      refine ⟨hm, fun k hp => ?_⟩
      obtain ⟨b, hb, -⟩ := h.search.complete hp
      rw [hm] at hget
      rw [label_mark hget] at hb
      cases hb
    · exact .inl ⟨hm, h.search.exact (label_some hget hm)⟩

/-- A graph of three vertices with one edge. -/
theorem bfs_computes_one_hop : ∃ out, bfs 3 (fun u => .ok (if u = 0 then [1] else [])) 0 = .ok out ∧
    out.length = 3 := by
  obtain ⟨out, hrun, hlen, -⟩ := bfs_computes_shortest_hops 3 (fun u => .ok (if u = 0 then [1] else []))
    (by decide) (by
      intro u hu
      refine ⟨_, rfl, fun v hv => ?_⟩
      split at hv
      · rw [List.mem_singleton.mp hv]
        decide
      · cases hv) 0 (by decide)
  exact ⟨out, hrun, hlen⟩

end packed_csr
