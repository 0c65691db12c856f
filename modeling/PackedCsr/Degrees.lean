-- The runs of one thread: each call that fits keeps the array good. The counters of
-- neighbours count the edges as long as no call finds the graph as it would leave it.
import PackedCsr.Histories

namespace packed_csr

open effects

/-! ## Runs of calls that fit -/

theorem new_pcsr_tallies (n : Nat) (lock_search : Bool) :
    ∀ x ∈ tallies (new_pcsr n n lock_search), x = 0 := by
  intro x hx
  obtain ⟨node, hnode, rfl⟩ := List.mem_map.mp hx
  obtain ⟨v, hv⟩ := List.mem_iff_getElem?.mp hnode
  rw [new_pcsr_nodes] at hv
  split at hv
  · cases hv
    rfl
  · cases hv

theorem new_pcsr_good {n : Nat} (lock_search : Bool) (hn : 0 < n) (hle : n ≤ UINT32_MAX) :
    Good (new_pcsr n n lock_search) := by
  refine ⟨new_pcsr_well_formed lock_search hn hle, ?_, ?_, ?_⟩
  · intro hgap
    exact new_pcsr_last lock_search hn
  · intro x hx
    rw [new_pcsr_tallies n lock_search x hx]
    decide
  · have hlt := lt_init_size n
    have hN : (new_pcsr n n lock_search).N = init_size n := rfl
    omega

/-- What a call that fits does. -/
def Call.Does (s s' : PCSR) : Call → Prop
  | .add_edge src dest value => Grows s s' ⟨src, dest, value⟩
  | .remove_edge src dest => Shrinks s s' ⟨src, dest, 1⟩

section

variable {s s' : PCSR} {c : Call} {n : Nat} {lock_search : Bool} {ok : PCSR → Call → Prop}

theorem Call.Does.kept (h : c.Does s s') :
    Good s' ∧ s'.get_n = s.get_n ∧ s'.lock_bsearch = s.lock_bsearch := by
  cases c with
  | add_edge src dest value => exact ⟨Grows.good h, Grows.n h, Grows.lock_bsearch h⟩
  | remove_edge src dest => exact ⟨Shrinks.good h, Shrinks.n h, Shrinks.lock_bsearch h⟩

/-- A call of a run that fits: where it returns, it does its part. -/
theorem Good.call (hg : Good s) (hc : c.Valid s.get_n) (hfit : c.Fits s) (hr : Returns s c s') :
    c.Does s s' := by
  obtain ⟨calls, hr⟩ := hr
  have he := hc.is_edge
  cases c with
  | add_edge src dest value =>
    obtain ⟨s1, hrun, hgrows⟩ := add_edge_grows hg he hfit
    have hsame : s1 = s' := congrArg Prod.snd (Except.ok.inj (hrun.symm.trans hr))
    rw [← hsame]
    exact hgrows
  | remove_edge src dest =>
    obtain ⟨s1, hrun, hshrinks⟩ := remove_edge_shrinks hg he (remove_edge_returned hg he hr)
    cases calls with
    | zero => cases hr
    | succ calls =>
      have hsame : s1 = s' := congrArg Prod.snd (Except.ok.inj ((hrun calls).symm.trans hr))
      rw [← hsame]
      exact hshrinks

/-- The states of a run whose calls fit. -/
theorem reaches_good (hn : 0 < n) (hle : n ≤ UINT32_MAX) (hok : ∀ s c, ok s c → c.Fits s)
    (h : Reaches n lock_search ok s) :
    Good s ∧ s.get_n = n ∧ s.lock_bsearch = lock_search := by
  apply reaches_invariant (P := fun s => Good s ∧ s.get_n = n ∧ s.lock_bsearch = lock_search) _ _ h
  · exact ⟨new_pcsr_good lock_search hn hle, new_pcsr_get_n n lock_search, rfl⟩
  · rintro s c s' ⟨hg, hget, hlock⟩ hc hfit hr
    rw [← hget] at hc
    obtain ⟨hg', hget', hlock'⟩ := (hg.call hc (hok s c hfit) hr).kept
    exact ⟨hg', hget'.trans hget, hlock'.trans hlock⟩

end

/-! ## Degrees -/

/-- The item is an edge of the vertex. -/
def edge_of (u : Nat) (e : Edge) : Bool := !is_sentinel e && e.src == u

/-- The number of edges that the array stores for a vertex. -/
def degree (s : PCSR) (u : Nat) : Nat := (s.items.filter full).countP (edge_of u)

section

variable {s s' : PCSR} {e x : Edge} {u : Nat}

theorem edge_of_iff : edge_of u e = true ↔ is_sentinel e = false ∧ e.src = u := by
  simp [edge_of]

/-- The destinations of the edges of a vertex are different, so that a counter can count them. -/
theorem degree_le (hw : WellFormed s) (u : Nat) : degree s u ≤ UINT32_MAX := by
  have hsorted := (hw.arranged.sorted.filter (edge_of u))
  generalize hes : (s.items.filter full).filter (edge_of u) = es at hsorted
  have hes' : ∀ e ∈ es, is_sentinel e = false ∧ e.src = u ∧ e.dest < UINT32_MAX := by
    intro e he
    rw [← hes] at he
    obtain ⟨hmem, hof⟩ := List.mem_filter.mp he
    obtain ⟨hs, hsrc⟩ := edge_of_iff.mp hof
    exact ⟨hs, hsrc, ((hw.arranged.items e hmem).edge hs).dest⟩
  have hnodup : (es.map Edge.dest).Nodup := by
    rw [List.Nodup, List.pairwise_map]
    apply hsorted.imp_of_mem
    intro a b ha hb hab
    obtain ⟨has, hasrc, -⟩ := hes' a ha
    obtain ⟨hbs, hbsrc, -⟩ := hes' b hb
    exact Nat.ne_of_lt ((before_edges has hbs (hasrc.trans hbsrc.symm)).mp hab)
  have hsub : es.map Edge.dest ⊆ List.range UINT32_MAX := by
    intro d hd
    obtain ⟨e, he, rfl⟩ := List.mem_map.mp hd
    exact List.mem_range.mpr (hes' e he).2.2
  have hlen := (List.subperm_of_subset hnodup hsub).length_le
  rw [List.length_map, List.length_range] at hlen
  unfold degree
  rw [List.countP_eq_length_filter, hes]
  exact hlen

/-- A call that changes the graph: the edge that it adds is new, or the one that it removes is there. -/
def Call.Changes (s : PCSR) (c : Call) : Prop :=
  match c with
  | .add_edge src dest value => ∀ p, ¬ Stores s ⟨src, dest, value⟩ p
  | .remove_edge src dest => ∃ p, Stores s ⟨src, dest, 1⟩ p

/-- Each counter counts the edges of its vertex. -/
def Tallied (s : PCSR) : Prop := ∀ u < s.get_n, (tallies s)[u]? = some (degree s u)

theorem Grows.degree (h : Grows s s' e) (he : is_sentinel e = false) (hno : ∀ p, ¬ Stores s e p) (u : Nat) :
    degree s' u = packed_csr.degree s u + if e.src = u then 1 else 0 := by
  obtain ⟨X, Y, hc', -, -, hc | ⟨x, hs, hsrc, hdest, hc⟩⟩ := h.contents
  · unfold packed_csr.degree
    rw [hc', hc]
    simp only [List.countP_append, List.countP_cons, edge_of_iff, he, true_and]
    omega
  · have hx : x ∈ s.items.filter full := by
      rw [hc]
      simp
    obtain ⟨p, -, hst⟩ := stores_of_mem hx hs hsrc hdest
    exact absurd hst (hno p)

theorem Shrinks.degree {p : Nat} (h : Shrinks s s' e) (hst : Stores s e p) (u : Nat) :
    packed_csr.degree s u = degree s' u + if e.src = u then 1 else 0 := by
  have hst' := hst
  obtain ⟨x, hx, hf, hs, hsrc, -⟩ := hst'
  have hmem := mem_filter_of_slot hx hf
  have hcontents := h.contents p x hst hx
  unfold packed_csr.degree
  rw [hcontents, List.countP_erase]
  simp only [edge_of_iff, hs, hsrc, hmem, true_and]
  have hpos : e.src = u → 0 < (s.items.filter full).countP (edge_of u) := by
    intro hu
    rw [List.countP_pos_iff]
    exact ⟨x, hmem, edge_of_iff.mpr ⟨hs, hsrc.trans hu⟩⟩
  split
  · have := hpos ‹_›
    omega
  · rfl

/-- The counter of one vertex moves with its edges. -/
theorem Tallied.step {f : Nat → Nat} {v : Nat} (h : Tallied s) (hn : s'.get_n = s.get_n)
    (ht : tallies s' = (tallies s).modify v f)
    (hd : ∀ u < s.get_n, degree s' u = if v = u then f (degree s u) else degree s u) : Tallied s' := by
  intro u hu
  rw [hn] at hu
  rw [ht, List.getElem?_modify, h u hu, hd u hu]
  split <;> rfl

theorem Tallied.call {c : Call} (h : Tallied s) (hg : Good s) (hc : c.Valid s.get_n) (hchange : c.Changes s)
    (hdoes : c.Does s s') : Tallied s' := by
  cases c with
  | add_edge src dest value =>
    have hdegree := Grows.degree hdoes hc.is_edge.not_sentinel hchange
    apply h.step (Grows.n hdoes) (Grows.tallies hdoes)
    intro u _
    have hbound := degree_le (Grows.good hdoes).wf u
    rw [hdegree u] at hbound ⊢
    dsimp only at hbound ⊢
    split at hbound
    · rw [if_pos ‹_›, if_pos ‹_›]
      unfold incr32
      rw [Nat.mod_eq_of_lt (by unfold UINT32_MAX at hbound; omega)]
    · rw [if_neg ‹_›, if_neg ‹_›]
      rfl
  | remove_edge src dest =>
    obtain ⟨p, hst⟩ := hchange
    have hdegree := Shrinks.degree hdoes hst
    apply h.step (Shrinks.n hdoes) (Shrinks.tallies hdoes)
    intro u _
    have hbound := degree_le hg.wf u
    rw [hdegree u] at hbound ⊢
    dsimp only at hbound ⊢
    split at hbound
    · rw [if_pos ‹_›, if_pos ‹_›]
      unfold decr32
      unfold UINT32_MAX at hbound
      omega
    · rw [if_neg ‹_›, if_neg ‹_›]
      rfl

theorem new_pcsr_tallied {n : Nat} (lock_search : Bool) (hn : 0 < n) : Tallied (new_pcsr n n lock_search) := by
  intro u hu
  have hdegree : degree (new_pcsr n n lock_search) u = 0 := by
    unfold degree
    rw [new_pcsr_contents lock_search hn, List.countP_eq_zero]
    intro e he
    obtain ⟨k, -, rfl⟩ := List.mem_map.mp he
    simp [edge_of]
  have hlt : u < (tallies (new_pcsr n n lock_search)).length := by
    rw [tallies_length]
    exact hu
  rw [hdegree, List.getElem?_eq_getElem hlt]
  exact congrArg some (new_pcsr_tallies n lock_search _ (List.getElem_mem hlt))

end

/-- A removal of an edge that is not there counts it all the same. -/
theorem remove_edge_absent {s : PCSR} {src dest : Nat} (hg : Good s) (he : IsEdge s.get_n ⟨src, dest, 1⟩)
    (hlast : IsGap s (s.N - 1)) (hno : ∀ p, ¬ Stores s ⟨src, dest, 1⟩ p) :
    ∃ s', Returns s (.remove_edge src dest) s' ∧ tallies s' = (tallies s).modify src decr32 ∧
      s'.items = s.items := by
  obtain ⟨s', hrun, hshrinks⟩ := remove_edge_shrinks hg he (by
    intro p _ hpast
    apply hpast.not_gap
    rw [hpast.last]
    exact hlast)
  exact ⟨s', ⟨1, hrun 0⟩, hshrinks.tallies, (hshrinks.absent hno).1⟩

/-! ## The law -/

end packed_csr
