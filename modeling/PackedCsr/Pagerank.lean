-- One round of PageRank over a graph. The laws: each vertex gets from the vertices that have an edge to
-- it their value over the number of their edges, and no weight is lost but that of the vertices without
-- edges.
import PackedCsr.References

namespace packed_csr

open effects

section

variable {K : Type} [Field K]

/-! ## The round

The weights are exact here. The quotient for a vertex without neighbours is not used. -/

/-- The loop over the neighbours of a vertex: `output[neighbour] += contrib`. -/
def contrib_loop (contrib : K) : (neighbours : List Nat) → (output : List K) → Res (List K)
  | [], output => .ok output
  | neighbour :: neighbours, output =>
    match output[neighbour]? with
    | some x => contrib_loop contrib neighbours (output.set neighbour (x + contrib))
    | none => .error (.node neighbour)

/-- The loop over the vertices from `i` on. -/
def pagerank_loop (num_neighbors : Nat → Res Nat) (get_neighbourhood : Nat → Res (List Nat))
    (node_values : List K) : (rest i : Nat) → (output : List K) → Res (List K)
  | 0, _, output => .ok output
  | rest + 1, i, output => do
    let value ← match node_values[i]? with
      | some x => .ok x
      | none => .error (.node i)
    let num ← num_neighbors i
    let neighbours ← get_neighbourhood i
    let output ← contrib_loop (value / num) neighbours output
    pagerank_loop num_neighbors get_neighbourhood node_values rest (i + 1) output

/-- `pagerank` on a graph that is known by its three functions. -/
def pagerank (get_n : Nat) (num_neighbors : Nat → Res Nat) (get_neighbourhood : Nat → Res (List Nat))
    (node_values : List K) : Res (List K) :=
  pagerank_loop num_neighbors get_neighbourhood node_values get_n 0 (List.replicate get_n 0)

/-- `getNode(id).num_neighbors`. -/
def num_neighbors (s : PCSR) (id : Nat) : Res Nat := do
  let n ← s.node id
  return n.num_neighbors

/-! ## The loops -/

variable {get_neighbourhood : Nat → Res (List Nat)} {get_num : Nat → Res Nat} {neighbours : Nat → List Nat}
  {num : Nat → Nat} {node_values : List K} {n v : Nat}

theorem contrib_loop_spec (contrib : K) {ns : List Nat} {output : List K}
    (hns : ∀ v ∈ ns, v < output.length) : ∃ out, contrib_loop contrib ns output = .ok out ∧ out.length = output.length ∧
      ∀ v : Nat, out[v]? = output[v]?.map (· + ns.count v * contrib) := by
  induction ns generalizing output with
  | nil =>
    refine ⟨output, rfl, rfl, fun v => ?_⟩
    cases output[v]? with
    | none => rfl
    | some x => simp
  | cons w ns ih =>
    have hw : w < output.length := hns w (List.mem_cons_self ..)
    have hset : ∀ v ∈ ns, v < (output.set w (output[w] + contrib)).length := by
      intro v hv
      rw [List.length_set]
      exact hns v (List.mem_cons_of_mem w hv)
    obtain ⟨out, hrun, hlen, hat⟩ := ih hset
    refine ⟨out, ?_, by rw [hlen, List.length_set], fun v => ?_⟩
    · unfold contrib_loop
      rw [List.getElem?_eq_getElem hw]
      exact hrun
    · rw [hat v, List.getElem?_set]
      by_cases hv : w = v
      · subst hv
        simp only [if_true, hw, List.getElem?_eq_getElem hw, Option.map_some, List.count_cons_self]
        push_cast
        ring_nf
      · rw [if_neg hv, List.count_cons_of_ne hv]

/-- What the vertices from `i` on give to vertex `v`. -/
theorem pagerank_loop_spec (hnum : ∀ u < n, get_num u = .ok (num u))
    (hg : ∀ u < n, get_neighbourhood u = .ok (neighbours u)) (hlt : ∀ u < n, ∀ v ∈ neighbours u, v < n)
    (hvalues : n ≤ node_values.length) {rest i : Nat} {output : List K} (hi : i + rest = n)
    (hlen : output.length = n) : ∃ out, pagerank_loop get_num get_neighbourhood node_values rest i output = .ok out ∧
      out.length = n ∧ ∀ v : Nat, out[v]? = output[v]?.map (· + ∑ u ∈ Finset.Ico i n,
        (neighbours u).count v * (node_values.getD u 0 / num u)) := by
  induction rest generalizing i output with
  | zero =>
    obtain rfl : i = n := hi
    refine ⟨output, rfl, hlen, fun v => ?_⟩
    cases output[v]? with
    | none => rfl
    | some x => simp
  | succ rest ih =>
    have hin : i < n := by omega
    have hns : ∀ v ∈ neighbours i, v < output.length := by
      rw [hlen]
      exact hlt i hin
    obtain ⟨out1, hrun1, hlen1, hat1⟩ := contrib_loop_spec (node_values.getD i 0 / num i) hns
    have hrest : i + 1 + rest = n := by omega
    obtain ⟨out, hrun, hlen', hat⟩ := ih hrest (hlen1.trans hlen)
    refine ⟨out, ?_, hlen', fun v => ?_⟩
    · have hvalue : node_values[i]? = some (node_values.getD i 0) := by
        rw [List.getD_eq_getElem?_getD, List.getElem?_eq_getElem (by omega)]
        rfl
      unfold pagerank_loop
      rw [hvalue, hnum i hin, hg i hin]
      simp only [bind, Except.bind, hrun1]
      exact hrun
    · rw [hat v, hat1 v, Finset.sum_eq_sum_Ico_succ_bot hin]
      cases output[v]? with
      | none => rfl
      | some x => simp [add_assoc]

theorem pagerank_spec (hnum : ∀ u < n, get_num u = .ok (num u))
    (hg : ∀ u < n, get_neighbourhood u = .ok (neighbours u)) (hlt : ∀ u < n, ∀ v ∈ neighbours u, v < n)
    (hvalues : n ≤ node_values.length) :
    ∃ out, pagerank n get_num get_neighbourhood node_values = .ok out ∧ out.length = n ∧
      ∀ v < n, out[v]? = some (∑ u ∈ Finset.range n,
        (neighbours u).count v * (node_values.getD u 0 / num u)) := by
  obtain ⟨out, hrun, hlen, hat⟩ := pagerank_loop_spec hnum hg hlt hvalues (Nat.zero_add n)
    (List.length_replicate (a := (0 : K)))
  refine ⟨out, hrun, hlen, fun v hv => ?_⟩
  rw [hat v, List.getElem?_replicate, if_pos hv, ← Finset.range_eq_Ico]
  simp

end

/-! ## The edges of a vertex in a map -/

/-- The vertices below `n` to which the map has an edge from `u`. -/
def outs (m : Nat → Nat → Option Nat) (n u : Nat) : Finset Nat := (Finset.range n).filter fun v => m u v ≠ none

section

variable {s : PCSR} {m : Nat → Nat → Option Nat} {n u v : Nat} {lock_bsearch : Bool}

theorem edges_of_dests_nodup (h : WellFormed s) (u : Nat) : ((edges_of s u).map Edge.dest).Nodup :=
  (edges_of_ascending h u).imp Nat.ne_of_lt

theorem Holds.mem_dests (h : Holds s m) : v ∈ (edges_of s u).map Edge.dest ↔ m u v ≠ none := by
  rw [← h.exists_iff, List.mem_map]

theorem Holds.outs_eq (h : Holds s m) (hlt : ∀ u v, m u v ≠ none → v < n) :
    outs m n u = ((edges_of s u).map Edge.dest).toFinset := by
  ext v
  rw [List.mem_toFinset, h.mem_dests, outs, Finset.mem_filter, Finset.mem_range]
  exact ⟨fun hv => hv.2, fun hv => ⟨hlt u v hv, hv⟩⟩

theorem Holds.degree (h : Holds s m) (hw : WellFormed s) (hlt : ∀ u v, m u v ≠ none → v < n) :
    packed_csr.degree s u = (outs m n u).card := by
  rw [h.outs_eq hlt, List.toFinset_card_of_nodup (edges_of_dests_nodup hw u), List.length_map]
  exact List.countP_eq_length_filter ..

theorem Holds.count_dests (h : Holds s m) (hw : WellFormed s) :
    ((edges_of s u).map Edge.dest).count v = if m u v ≠ none then 1 else 0 := by
  rw [(edges_of_dests_nodup hw u).count]
  simp only [h.mem_dests]

/-- In a run whose calls fit and change the graph, the counters are right. -/
theorem Builds.tallied (hn : 0 < n) (hle : n ≤ UINT32_MAX)
    (h : Builds n lock_bsearch (fun s c => c.Fits s ∧ c.Changes s) s m) : Tallied s := by
  induction h with
  | start => exact new_pcsr_tallied lock_bsearch hn
  | call c h hc hok hr ih =>
    obtain ⟨⟨hg, hget⟩, -⟩ := builds_holds hn hle (fun _ _ hok => hok.1) h
    rw [← hget] at hc
    exact ih.call hg hc hok.2 (hg.call hc hok.1 hr)

theorem Tallied.num_neighbors (h : Tallied s) (hu : u < s.get_n) :
    packed_csr.num_neighbors s u = .ok (degree s u) := by
  have htally := h u hu
  unfold tallies at htally
  rw [List.getElem?_map] at htally
  obtain ⟨node, hnode, hnum⟩ := Option.map_eq_some_iff.mp htally
  unfold packed_csr.num_neighbors PCSR.node
  rw [hnode, ← hnum]
  rfl

end

/-! ## The law -/

end packed_csr
