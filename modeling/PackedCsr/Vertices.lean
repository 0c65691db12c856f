-- `add_node`: a vertex behind the last one. Its sentinel comes into the last slot, by the insertion
-- that edges use.
import PackedCsr.Readers

namespace packed_csr

open effects

/-- The source pushes the node before the insertion. Its end is not yet the end of the array. -/
def add_node (s : PCSR) : Res PCSR := do
  let len := s.get_n
  let (beginning, value) ←
    if 0 < len then do
      let last ← s.node (len - 1)
      pure (last.end_, len)
    else pure (0, UINT32_MAX)
  let s := { s with nodes := s.nodes ++ [⟨beginning, beginning + 1, 0⟩] }
  insert s beginning ⟨len, UINT32_MAX, value⟩ (s.get_n - 1) none

section

variable {s s1 s' : PCSR} {n p v : Nat}

/-! ## The insertion of a sentinel -/

theorem IsItem.mono {m : Nat} {e : Edge} (h : IsItem n e) (hle : n ≤ m) : IsItem m e := by
  rcases h with h | ⟨v, hv, rfl⟩
  · exact .inl ⟨h.src.trans_le hle, h.dest, h.value_pos, h.value_lt⟩
  · exact .inr ⟨v, hv.trans_le hle, rfl⟩

theorem arranged_append {c : List Edge} (h : Arranged n c) : Arranged (n + 1) (c ++ [sentinel n]) := by
  refine ⟨?_, ?_, ?_⟩
  · rw [List.pairwise_append]
    refine ⟨h.sorted, List.pairwise_singleton _ _, fun x hx y hy => ?_⟩
    rw [List.mem_singleton.mp hy]
    exact before_of_src (h.items x hx).src_lt
  · intro x hx
    rcases List.mem_append.mp hx with hx | hx
    · exact (h.items x hx).mono (Nat.le_succ n)
    · exact .inr ⟨n, Nat.lt_succ_self n, List.mem_singleton.mp hx⟩
  · intro v hv
    rcases Nat.eq_or_lt_of_le (Nat.le_of_lt_succ hv) with rfl | hlt
    · exact List.mem_append_right _ (List.mem_singleton.mpr rfl)
    · exact List.mem_append_left _ (h.sentinels v hlt)

/-- An array that waits for the sentinel of its last vertex `n` at slot `p`: the node is there, but for
its end, and the slots from `p` on are free. -/
structure Awaits (s : PCSR) (n p : Nat) : Prop where
  sized : Sized s
  vertices : s.get_n = n + 1
  n_le : n + 1 ≤ UINT32_MAX
  lt : p < s.N
  arranged : Arranged n (s.items.filter full)
  free : ∀ k, p ≤ k → k < s.N → IsGap s k
  first : (sentinel n = sentinel 0 ∧ p = 0) ∨ (0 < p ∧ s.items[0]? = some (sentinel 0))
  linked : ∀ i, LinkedAt s i
  node : PointsTo s.nodes n p

theorem filter_gaps {xs : List Edge} (h : ∀ x ∈ xs, full x = false) : xs.filter full = [] :=
  List.filter_eq_nil_iff.mpr fun x hx => by rw [h x hx]; simp

/-- With the sentinel in its slot, only the end of the last node is not known. -/
theorem Awaits.put (h : Awaits s n p) (hput : s.put p (sentinel n) = .ok s1) :
    s1.items.filter full = s.items.filter full ++ [sentinel n] ∧
      ∀ a b, a ≤ p → p < b → Loose s1 a b := by
  obtain ⟨hlt, rfl⟩ := put_ok hput
  have hlen := h.sized.items
  have hbehind : ∀ x ∈ s.items.drop p, full x = false := by
    intro x hx
    obtain ⟨k, hk⟩ := List.mem_iff_getElem?.mp hx
    rw [List.getElem?_drop] at hk
    have hklt := (List.getElem?_eq_some_iff.mp hk).1
    obtain ⟨y, hy, hnull⟩ := h.free (p + k) (by omega) (by omega)
    cases hk.symm.trans hy
    unfold full
    rw [hnull]
    rfl
  have hsplit : s.items = s.items.take p ++ s.items.drop p := (List.take_append_drop p s.items).symm
  have hcut : s.items.filter full = (s.items.take p).filter full := by
    conv_lhs => rw [hsplit]
    rw [List.filter_append, filter_gaps hbehind, List.append_nil]
  have hafter : (s.items.drop (p + 1)).filter full = [] := by
    apply filter_gaps
    intro x hx
    rw [← List.drop_drop] at hx
    exact hbehind x (List.mem_of_mem_drop hx)
  have hcontents : (s.items.set p (sentinel n)).filter full = s.items.filter full ++ [sentinel n] := by
    rw [hcut, List.set_eq_take_append_cons_drop, if_pos hlt, List.filter_append, List.filter_cons,
      if_pos (full_sentinel n), hafter]
  refine ⟨hcontents, fun a b hap hpb => ⟨⟨h.sized.pow, ?_, h.sized.versions⟩, ?_, ?_, ?_, ?_, ?_, ?_⟩⟩
  · rw [List.length_set]
    exact hlen
  · show 0 < s.get_n
    rw [h.vertices]
    exact Nat.succ_pos n
  · show s.get_n ≤ UINT32_MAX
    rw [h.vertices]
    exact h.n_le
  · show Arranged s.get_n _
    rw [hcontents, h.vertices]
    exact arranged_append h.arranged
  · dsimp only
    rw [List.getElem?_set]
    rcases h.first with ⟨heq, rfl⟩ | ⟨hpos, hfirst⟩
    · rw [if_pos rfl, if_pos hlt, heq]
    · rw [if_neg (by omega)]
      exact hfirst
  · intro i _ v hv
    dsimp only at hv ⊢
    rw [List.getElem?_set] at hv
    split at hv
    · rename_i hpi
      obtain rfl : n = v := congrArg Edge.src (Option.some.inj hv)
      rw [← hpi]
      exact h.node
    · exact h.linked i v hv
  · right
    refine ⟨p, hap, hpb, ?_⟩
    show (s.items.set p (sentinel n))[p]? = some (sentinel (s.get_n - 1))
    rw [List.getElem?_set, if_pos rfl, if_pos hlt, h.vertices, Nat.add_sub_cancel]

/-- The insertion of the sentinel. -/
theorem Awaits.insert (h : Awaits s n p) (hroom : Room s p) :
    ∃ s', insert s p (sentinel n) n none = .ok s' ∧ WellFormed s' ∧ EndFull s' ∧ s'.get_n = s.get_n ∧
      s'.lock_bsearch = s.lock_bsearch ∧ s.N ≤ s'.N ∧
      s'.items.filter full = s.items.filter full ++ [sentinel n] := by
  have hlt : p < s.items.length := by
    rw [h.sized.items]
    exact h.lt
  have hput := put_of_lt (sentinel n) hlt
  generalize hs1 : ({ s with items := s.items.set p (sentinel n) } : PCSR) = s1 at hput
  obtain ⟨hcontents, hloose⟩ := h.put hput
  have hframe := put_frame hput
  have hN := hframe.N
  have hp1 : p < s1.N := by
    rw [hN]
    exact h.lt
  have hcover : ∀ len ni, Window s1.N p len ni → ni ≤ p ∧ p < ni + len := by
    intro len ni hwin
    rw [hwin.at_]
    exact ⟨find_node_le p len, lt_find_node_add p hwin.len_pow.pos⟩
  have hsized : Sized s1 := (hloose p (p + 1) (le_refl _) (Nat.lt_succ_self p)).sized
  obtain ⟨x, hx, hnull⟩ := h.free p (le_refl p) h.lt
  have hcount : filled s1.items (find_leaf s.N p) (logN s.N) = filled s.items (find_leaf s.N p) (logN s.N) + 1 := by
    have hset := gapped.count_set full (sentinel n) hx (find_node_le p (logN s.N))
      (lt_find_node_add p (logN_pos s.N))
    rw [show full x = false by simp [full, hnull], full_sentinel] at hset
    rw [← hs1]
    exact hset
  have hplan : PlanOk s1.N none := fun i hi => by cases hi
  obtain ⟨len, ni, s2, s', hitem, hwin, -, hk, hred, hset, -⟩ := insert_item_spec hput hsized hp1
    (fun len ni hwin => redistribute_loose_window (hloose _ _ (hcover len ni hwin).1 (hcover len ni hwin).2) hp1
      hwin) (by
      intro hfull
      rw [hN, hcount] at hfull
      rw [hN]
      exact hroom (by omega)) hplan
  have hread : s.item p = .ok x := by
    unfold PCSR.item
    rw [hx]
  have hrun : packed_csr.insert s p (sentinel n) n none = .ok s' := by
    unfold packed_csr.insert insert_calls
    simp only [hread, bind, Except.bind, hnull, if_true]
    rw [hN] at hitem
    exact hitem
  refine ⟨s', hrun, hset.wf, ?_, ?_, ?_, ?_, ?_⟩
  · apply hset.end_full
    apply hred.end_full hsized hp1 hwin
    intro hout _
    have hcov := (hcover len ni hwin).2
    obtain ⟨y, hy, hynull⟩ := h.free (s.N - 1) (by have := h.lt; omega) (by have := h.lt; omega)
    refine ⟨y, ?_, hynull⟩
    rw [hN, ← hs1]
    dsimp only
    rw [List.getElem?_set, if_neg (by omega)]
    exact hy
  · rw [hset.n, hk.n, hframe.get_n]
  · rw [hset.lock_bsearch, hk.lock_bsearch, hframe.lock_bsearch]
  · rw [← hN, ← hred.frame.N]
    exact hset.size_le
  · rw [hset.contents, hred.contents, hcontents]

/-! ## One call -/

/-- The node of a new vertex that is to begin at slot `b`. -/
def pushed (s : PCSR) (b : Nat) : PCSR := { s with nodes := s.nodes ++ [⟨b, b + 1, 0⟩] }

theorem PointsTo.append {nodes : List Node} {i : Nat} (h : PointsTo nodes v i) (m : Node) :
    PointsTo (nodes ++ [m]) v i := by
  have hkeep : ∀ (w x : Nat) (f : Node → Nat), nodes[w]?.map f = some x → (nodes ++ [m])[w]?.map f = some x := by
    intro w x f hw
    obtain ⟨y, hy, -⟩ := Option.map_eq_some_iff.mp hw
    rw [List.getElem?_append_left (List.getElem?_eq_some_iff.mp hy).1]
    exact hw
  exact ⟨hkeep _ _ _ h.1, fun hpos => hkeep _ _ _ (h.2 hpos)⟩

/-- The array has room for one more vertex: its number is no mark of a sentinel, and the last slot is free,
in a leaf that may spill over. -/
def TakesVertex (s : PCSR) : Prop :=
  s.get_n < UINT32_MAX ∧ (0 < s.get_n → IsGap s (s.N - 1) ∧ Room s (s.N - 1))

theorem Good.awaits (hg : Good s) (hlt : s.get_n < UINT32_MAX) (hgap : IsGap s (s.N - 1)) :
    Awaits (pushed s (s.N - 1)) s.get_n (s.N - 1) := by
  have hpos := hg.wf.sized.pow.pos
  have h4 := hg.size
  refine ⟨⟨hg.wf.sized.pow, hg.wf.sized.items, hg.wf.sized.versions⟩, ?_, hlt, ?_, hg.wf.arranged, ?_, ?_, ?_, ?_, ?_⟩
  · exact List.length_append
  · show s.N - 1 < s.N
    omega
  · intro k hk hk'
    have hkN : k < s.N := hk'
    obtain rfl : k = s.N - 1 := by omega
    exact hgap
  · exact .inr ⟨by omega, hg.wf.first⟩
  · intro i v hv
    exact (hg.wf.linked i v hv).append _
  · show ((s.nodes ++ [_])[s.get_n]?).map _ = _
    rw [show s.get_n = s.nodes.length from rfl, List.getElem?_append_right (le_refl _), Nat.sub_self]
    rfl
  · intro hn
    show ((s.nodes ++ [_])[s.get_n - 1]?).map _ = _
    have hlt' : s.get_n - 1 < s.nodes.length := Nat.sub_lt hn Nat.one_pos
    rw [List.getElem?_append_left hlt']
    exact hg.wf.ends

/-- What `add_node` does. -/
structure Appends (s s' : PCSR) : Prop where
  good : Good s'
  n : s'.get_n = s.get_n + 1
  contents : s'.items.filter full = s.items.filter full ++ [sentinel s.get_n]

theorem Awaits.appends {b : Nat} (h : Awaits (pushed s b) s.get_n b) (hroom : Room s b) (hcounted : Counted s)
    (h4 : 4 ≤ s.N) :
    ∃ s', packed_csr.insert (pushed s b) b (sentinel s.get_n) s.get_n none = .ok s' ∧ Appends s s' := by
  obtain ⟨s', hrun, hwf, hend, hn, -, hN, hcontents⟩ := h.insert hroom
  refine ⟨s', hrun, ⟨hwf, hend, ?_, h4.trans hN⟩, ?_, hcontents⟩
  · unfold Counted
    rw [insert_tallies hrun]
    intro x hx
    have htallies : tallies (pushed s b) = tallies s ++ [0] := by
      unfold tallies pushed
      simp
    rw [htallies, List.mem_append, List.mem_singleton] at hx
    rcases hx with hx | rfl
    · exact hcounted x hx
    · decide
  · rw [hn]
    exact List.length_append

/-- Behind other vertices it is an insertion in the last slot. -/
theorem add_node_eq (h : WellFormed s) :
    add_node s = packed_csr.insert (pushed s (s.N - 1)) (s.N - 1) (sentinel s.get_n) s.get_n none := by
  have hn := h.n_pos
  obtain ⟨m, hm, hend⟩ := Option.map_eq_some_iff.mp h.ends
  have hnode : s.node (s.get_n - 1) = .ok m := by
    unfold PCSR.node PCSR.get_n
    rw [hm]
  have hsentinel : (⟨s.get_n, UINT32_MAX, s.get_n⟩ : Edge) = sentinel s.get_n := by
    unfold sentinel
    rw [if_neg hn.ne']
  have hlast : (pushed s (s.N - 1)).get_n - 1 = s.get_n := by
    show (s.nodes ++ [_]).length - 1 = s.nodes.length
    rw [List.length_append]
    exact Nat.add_sub_cancel s.nodes.length 1
  unfold add_node
  simp only [hn, if_true, hnode, bind, Except.bind, pure, Except.pure, hend, hsentinel]
  rw [show ({ s with nodes := s.nodes ++ [⟨s.N - 1, s.N - 1 + 1, 0⟩] } : PCSR) = pushed s (s.N - 1) from rfl,
    hlast]

theorem add_node_appends (hg : Good s) (h : TakesVertex s) : ∃ s', add_node s = .ok s' ∧ Appends s s' := by
  obtain ⟨hgap, hroom⟩ := h.2 hg.wf.n_pos
  rw [add_node_eq hg.wf]
  exact (hg.awaits h.1 hgap).appends hroom hg.counted hg.size

/-- An array without vertices. -/
structure Blank (s : PCSR) : Prop where
  sized : Sized s
  nodes : s.nodes = []
  gaps : ∀ x ∈ s.items, full x = false

theorem Blank.get_n (h : Blank s) : s.get_n = 0 := by
  unfold PCSR.get_n
  rw [h.nodes]
  rfl

theorem Blank.awaits (h : Blank s) : Awaits (pushed s 0) 0 0 := by
  have hs := h.sized
  refine ⟨⟨hs.pow, hs.items, hs.versions⟩, ?_, by decide, hs.pow.pos, ?_, ?_, .inl ⟨rfl, rfl⟩, ?_, ?_, ?_⟩
  · show (s.nodes ++ [_]).length = 1
    rw [h.nodes]
    rfl
  · show Arranged 0 (s.items.filter full)
    rw [filter_gaps h.gaps]
    exact ⟨.nil, fun e he => absurd he List.not_mem_nil, fun v hv => absurd hv (Nat.not_lt_zero v)⟩
  · intro k _ hk
    have hlen : k < s.items.length := by
      rw [hs.items]
      exact hk
    have hget := List.getElem?_eq_getElem hlen
    exact gap_of_null hget (h.gaps _ (List.mem_of_getElem? hget))
  · intro i v hv
    have hf := h.gaps _ (List.mem_of_getElem? hv)
    rw [full_sentinel] at hf
    cases hf
  · show ((s.nodes ++ [_])[0]?).map _ = _
    rw [h.nodes]
    rfl
  · intro hpos
    exact absurd hpos (lt_irrefl 0)

theorem Blank.add_node_eq (h : Blank s) :
    add_node s = packed_csr.insert (pushed s 0) 0 (sentinel 0) 0 none := by
  have hlast : (pushed s 0).get_n - 1 = 0 := by
    show (s.nodes ++ [_]).length - 1 = 0
    rw [h.nodes]
    rfl
  unfold add_node
  simp only [h.get_n, lt_irrefl, if_false, bind, Except.bind, pure, Except.pure]
  rw [show ({ s with nodes := s.nodes ++ [⟨0, 0 + 1, 0⟩] } : PCSR) = pushed s 0 from rfl, hlast]
  rfl

/-- The first vertex of an empty graph. -/
theorem add_node_first (h : Blank s) (h8 : 8 ≤ s.N) : ∃ s', add_node s = .ok s' ∧ Appends s s' := by
  have hcounted : Counted s := by
    unfold Counted tallies
    rw [h.nodes]
    intro x hx
    cases hx
  have hawaits : Awaits (pushed s 0) s.get_n 0 := by
    rw [h.get_n]
    exact h.awaits
  have happends := hawaits.appends (fun _ => two_leaves h.sized.pow h8) hcounted (by omega)
  rw [h.get_n] at happends
  rw [h.add_node_eq]
  exact happends

/-! ## What is seen of it -/

/-- A vertex has come in behind the others: it has no edges, its sentinel is the last item, the nodes
know its slot, and the vertices before it have kept their pairs. -/
structure Joined (s s' : PCSR) : Prop where
  n : s'.get_n = s.get_n + 1
  empty : get_neighbourhood s' s.get_n = .ok []
  slot : ∃ i, s'.items[i]? = some (sentinel s.get_n) ∧
    (∀ (j : Nat) (x : Edge), i < j → s'.items[j]? = some x → full x = false) ∧
    s'.nodes[s.get_n - 1]?.map Node.end_ = some i ∧ s'.nodes[s.get_n]?.map Node.beginning = some i
  last : s'.nodes[s.get_n]?.map Node.end_ = some (s'.N - 1)
  pairs : ∀ v < s.get_n,
    (seen s' v).map (fun e => (e.dest, e.value)) = (seen s v).map fun e => (e.dest, e.value)

theorem Appends.edges_of (h : Appends s s') (v : Nat) : edges_of s' v = edges_of s v := by
  unfold packed_csr.edges_of
  rw [h.contents, List.filter_append]
  simp [edge_of]

theorem Appends.joined (h : Appends s s') (hg : Good s) (hfree : EndFree s) : Joined s s' := by
  have hn := hg.wf.n_pos
  have hold : ∀ x ∈ s.items.filter full, x.src < s.get_n := fun x hx => (hg.wf.arranged.items x hx).src_lt
  have hlt : s.get_n < s'.get_n := by
    rw [h.n]
    exact Nat.lt_succ_self _
  have hlast : s'.get_n - 1 = s.get_n := by
    rw [h.n]
    rfl
  obtain ⟨i, hi⟩ := h.good.wf.arranged.sentinel_slot hlt
  obtain ⟨hbeg, hend⟩ := h.good.wf.linked i _ hi
  refine ⟨h.n, ?_, ⟨i, hi, ?_, hend hn, hbeg⟩, ?_, ?_⟩
  · have hnil : seen s' s.get_n = [] := by
      apply List.eq_nil_iff_forall_not_mem.mpr
      intro x hx
      have hx' := ((mem_seen h.good.wf hlt).mp hx).1
      rw [h.edges_of] at hx'
      obtain ⟨hmem, -, hsrc⟩ := mem_edges_of.mp hx'
      have := hold x hmem
      omega
    rw [get_neighbourhood_eq h.good.wf hlt, hnil]
    rfl
  · intro j x hij hx
    by_contra hf
    simp only [Bool.not_eq_false] at hf
    have hbefore := sorted_slots h.good.wf.arranged.sorted hi hx (by simp) hf hij
    have hmem := mem_filter_of_slot hx hf
    rw [h.contents, List.mem_append, List.mem_singleton] at hmem
    rcases hmem with hmem | rfl
    · have hle : s.get_n ≤ x.src := before_src hbefore
      have := hold x hmem
      omega
    · exact before_irrefl _ hbefore
  · have hends := h.good.wf.ends
    unfold EndsAt at hends
    rw [show s'.nodes.length - 1 = s.get_n from hlast] at hends
    exact hends
  · intro v hv
    rw [seen_eq_edges_of h.good.wf (hv.trans hlt) (by intro; omega), h.edges_of,
      seen_eq_edges_of hg.wf hv fun _ => hfree]

/-! ## Runs -/

/-- The states that one thread reaches by calls and by new vertices, where each step meets its condition
in the state that it starts in. -/
inductive Develops (n : Nat) (lock_bsearch : Bool) (ok : PCSR → Call → Prop) (ok_node : PCSR → Prop) :
    PCSR → Prop
  | start : Develops n lock_bsearch ok ok_node (new_pcsr n n lock_bsearch)
  | call {s s' : PCSR} (c : Call) (h : Develops n lock_bsearch ok ok_node s) (hc : c.Valid s.get_n)
      (hok : ok s c) (hr : Returns s c s') : Develops n lock_bsearch ok ok_node s'
  | add_node {s s' : PCSR} (h : Develops n lock_bsearch ok ok_node s) (hok : ok_node s)
      (hr : add_node s = .ok s') : Develops n lock_bsearch ok ok_node s'

theorem Reaches.develops {n : Nat} {lock_bsearch : Bool} (h : Reaches n lock_bsearch (fun s _ => s.get_n = n) s) :
    Develops n lock_bsearch (fun _ _ => True) (fun _ => True) s := by
  induction h with
  | start => exact .start
  | call c _ hc hn hr ih =>
    rw [← hn] at hc
    exact ih.call c hc trivial hr

theorem new_pcsr_blank (lock_bsearch : Bool) : Blank (new_pcsr 0 0 lock_bsearch) := by
  refine ⟨new_pcsr_sized 0 lock_bsearch, rfl, fun x hx => ?_⟩
  obtain ⟨i, hi⟩ := List.mem_iff_getElem?.mp hx
  cases hf : full x with
  | false => rfl
  | true =>
    obtain ⟨k, hk, -, -⟩ := new_pcsr_slot lock_bsearch hi hf
    exact absurd hk (Nat.not_lt_zero k)

theorem new_pcsr_add_node (lock_bsearch : Bool) :
    ∃ s', add_node (new_pcsr 0 0 lock_bsearch) = .ok s' ∧ Appends (new_pcsr 0 0 lock_bsearch) s' := by
  have hlt := lt_init_size 0
  apply add_node_first (new_pcsr_blank lock_bsearch)
  show 8 ≤ init_size 0
  omega

/-- Each state of a run that takes its calls and vertices: the first one without vertices, or a good one. -/
theorem develops_good {n : Nat} {lock_bsearch : Bool} (hle : n ≤ UINT32_MAX)
    (h : Develops n lock_bsearch (fun s c => c.Fits s) TakesVertex s) :
    s = new_pcsr 0 0 lock_bsearch ∨ Good s := by
  induction h with
  | start =>
    rcases Nat.eq_zero_or_pos n with rfl | hn
    · exact .inl rfl
    · exact .inr (new_pcsr_good lock_bsearch hn hle)
  | call c _ hc hok hr ih =>
    right
    rcases ih with rfl | hg
    · have hsrc : c.edge.src < 0 := hc.is_edge.src
      exact absurd hsrc (Nat.not_lt_zero _)
    · exact (hg.call hc hok hr).kept.1
  | add_node _ hok hr ih =>
    right
    rcases ih with rfl | hg
    · obtain ⟨s1, hrun, happends⟩ := new_pcsr_add_node lock_bsearch
      cases hrun.symm.trans hr
      exact happends.good
    · obtain ⟨s1, hrun, happends⟩ := add_node_appends hg hok
      cases hrun.symm.trans hr
      exact happends.good

end

/-! ## The law -/

end packed_csr
