-- The partitioned graph of arrays. Each partition holds what a table holds, as long as each call fits the
-- partition of its source. The law: then the partitions of arrays answer as one table under the same calls.
import PackedCsr.Related
import PackedCsr.References
import PackedCsr.Vertices

namespace packed_csr

open effects pppcsr

/-! ## Arrays as partitions -/

/-- The operations of an array, as those of a graph: an operation that fails leaves the array alone, and a
reader that fails gives nothing. -/
def arrays (lock_search : Bool) : Graph PCSR where
  new n := new_pcsr n n lock_search
  get_n s := s.get_n
  edge_exists s u v := (packed_csr.edge_exists s u v).toOption.getD false
  get_neighbourhood s u := (packed_csr.get_neighbourhood s u).toOption.getD []
  add_node s := (packed_csr.add_node s).toOption.getD s
  add_edge s u v w := ((exec (packed_csr.add_edge u v w) s).toOption.map Prod.snd).getD s
  remove_edge s u v := ((exec (packed_csr.remove_edge u v 1) s).toOption.map Prod.snd).getD s

/-- The array is empty or good, and it holds the edges of the table. -/
structure Shows (lock_search : Bool) (s : PCSR) (t : Table) : Prop where
  sound : s = new_pcsr 0 0 lock_search ∨ Good s
  n : s.get_n = t.n
  holds : Holds s t.value

section

variable {lock_search : Bool} {s : PCSR} {t : Table} {u v w : Nat}

theorem Shows.good (h : Shows lock_search s t) (hu : u < s.get_n) : Good s := by
  apply h.sound.resolve_left
  rintro rfl
  exact absurd hu (by rw [new_pcsr_get_n]; exact Nat.not_lt_zero u)

theorem new_array_shows (lock_search : Bool) {n : Nat} (hn : n ≤ UINT32_MAX) :
    Shows lock_search (new_pcsr n n lock_search) (Table.graph.new n) := by
  refine ⟨?_, new_pcsr_get_n n lock_search, ?_⟩
  · rcases Nat.eq_zero_or_pos n with rfl | hpos
    · exact .inl rfl
    · exact .inr (new_pcsr_good lock_search hpos hn)
  · have hvalue : Table.value (Table.graph.new n) = fun _ _ => none := by
      funext u v
      exact Table.graph_isMap.new_value n u v
    rw [hvalue]
    rcases Nat.eq_zero_or_pos n with rfl | hpos
    · intro u v w
      constructor
      · intro hnone
        cases hnone
      · intro hmem
        obtain ⟨hmem, -⟩ := mem_edges_of.mp hmem
        obtain ⟨i, hi⟩ := List.mem_iff_getElem?.mp (List.mem_filter.mp hmem).1
        obtain ⟨k, hk, -⟩ := new_pcsr_slot lock_search hi (List.mem_filter.mp hmem).2
        exact absurd hk (Nat.not_lt_zero k)
    · exact new_pcsr_holds lock_search hpos

/-! ## The calls on one partition -/

/-- An edge from a vertex that is not there is not added. -/
theorem exec_add_edge_outside (hu : s.get_n ≤ u) (v w : Nat) :
    exec (packed_csr.add_edge u v w) s = .ok ((), s) := by
  unfold packed_csr.add_edge add_edge_parallel
  rw [exec_look_bind (b := s.get_n) rfl, if_neg (by omega)]
  rfl

theorem Shows.add_edge (h : Shows lock_search s t) (hv : v < UINT32_MAX) (hw : 0 < w ∧ w < UINT32_MAX)
    (hfit : (Call.add_edge u v w).Fits s) :
    Shows lock_search ((arrays lock_search).add_edge s u v w) (Table.graph.add_edge t u v w) := by
  unfold arrays Table.graph
  dsimp only
  rcases Nat.lt_or_ge u s.get_n with hu | hu
  · have hg := h.good hu
    have he : IsEdge s.get_n ⟨u, v, w⟩ := ⟨hu, hv, hw.1, hw.2⟩
    obtain ⟨s', hrun, hgrows⟩ := add_edge_grows hg he hfit
    have hut : u < t.n := by
      rw [← h.n]
      exact hu
    rw [hrun, dif_pos ⟨hut, by omega⟩]
    refine ⟨.inr hgrows.good, hgrows.n.trans h.n, ?_⟩
    have hvalue : Table.value (t.put u v w hut) = (Call.add_edge u v w).set t.value := by
      funext a b
      exact Table.put_value t hut v w a b
    rw [hvalue]
    exact h.holds.added he.not_sentinel hgrows.contents
  · rw [exec_add_edge_outside hu, dif_neg (by rw [← h.n]; omega)]
    exact h

theorem Shows.remove_edge (h : Shows lock_search s t) (hu : u < s.get_n) (hv : v < UINT32_MAX)
    (hends : (Call.remove_edge u v).Ends s) :
    Shows lock_search ((arrays lock_search).remove_edge s u v) (Table.graph.remove_edge t u v) := by
  have hg := h.good hu
  have he : IsEdge s.get_n ⟨u, v, 1⟩ := ⟨hu, hv, Nat.one_pos, (by decide : 1 < UINT32_MAX)⟩
  obtain ⟨s', hrun, hshrinks⟩ := remove_edge_shrinks hg he (by
    intro q _ hpast
    exact hends hpast.ends_before)
  unfold arrays Table.graph
  dsimp only
  rw [hrun 0]
  refine ⟨.inr hshrinks.good, hshrinks.n.trans h.n, ?_⟩
  have hvalue : Table.value (t.drop u v) = (Call.remove_edge u v).set t.value := by
    funext a b
    exact Table.drop_value t u v a b
  rw [hvalue]
  exact h.holds.removed (hshrinks.erased hg.wf he.not_sentinel)

theorem Shows.add_node (h : Shows lock_search s t) (htakes : TakesVertex s) :
    Shows lock_search ((arrays lock_search).add_node s) (Table.graph.add_node t) := by
  obtain ⟨s', hrun, happends⟩ : ∃ s', packed_csr.add_node s = .ok s' ∧ Appends s s' := by
    rcases h.sound with rfl | hg
    · exact new_pcsr_add_node lock_search
    · exact add_node_appends hg htakes
  unfold arrays Table.graph
  dsimp only
  rw [hrun]
  refine ⟨.inr happends.good, happends.n.trans (congrArg (· + 1) h.n), ?_⟩
  intro u v w
  rw [show Except.toOption (Except.ok s' : Res PCSR) = some s' from rfl, Option.getD_some,
    happends.edges_of]
  exact h.holds u v w

/-! ## The readers on one partition -/

theorem Shows.edge_exists (h : Shows lock_search s t) (hu : u < s.get_n) (hv : v ≤ UINT32_MAX) :
    (arrays lock_search).edge_exists s u v = Table.graph.edge_exists t u v := by
  unfold arrays Table.graph
  dsimp only
  rw [h.holds.edge_exists (h.good hu) hu hv]
  unfold Table.value
  by_cases hmem : v ∈ t.dests u
  · simp [hmem]
    rfl
  · simp [hmem]
    rfl

theorem Shows.get_neighbourhood (h : Shows lock_search s t) (hfree : u + 1 = s.get_n → EndFree s) :
    (arrays lock_search).get_neighbourhood s u = Table.graph.get_neighbourhood t u := by
  unfold arrays Table.graph
  dsimp only
  rcases Nat.lt_or_ge u s.get_n with hu | hu
  · obtain ⟨l, hl, hsorted, hmem⟩ := (h.holds.get_neighbourhood (h.good hu) hu).mpr hfree
    rw [hl]
    apply hsorted.eq_of_mem_iff (Finset.sortedLT_sort (t.dests u)).pairwise
    intro v
    rw [hmem v, Finset.mem_sort]
    unfold Table.value
    by_cases hv : v ∈ t.dests u
    · simp [hv]
    · simp [hv]
  · unfold packed_csr.get_neighbourhood
    rw [if_neg (by omega), t.outside u (by rw [← h.n]; exact hu)]
    simp
    rfl

end

/-! ## The calls on the partitions -/

/-- The call fits the partition that it goes to. -/
def FitsPart (p : PPPCSR PCSR) : pppcsr.Call → Prop
  | .add_node => ∀ s, p.partitions.getLast? = some s → TakesVertex s
  | .add_edge u v w => v < UINT32_MAX ∧ (0 < w ∧ w < UINT32_MAX) ∧
      ∀ s l, p.route u = some (s, l) → (Call.add_edge l v w).Fits s
  | .remove_edge u v => v < UINT32_MAX ∧ ∀ s l, p.route u = some (s, l) → (Call.remove_edge l v).Ends s

/-- Each call of the sequence fits where it comes. -/
def FitParts (lock_search : Bool) : List pppcsr.Call → PPPCSR PCSR → Prop
  | [], _ => True
  | c :: cs, p => FitsPart p c ∧ ∀ p', c.on_parts (arrays lock_search) p = some p' → FitParts lock_search cs p'

section

variable {lock_search : Bool} {p : PPPCSR PCSR} {q q' : PPPCSR Table} {t : Table} {m size : Nat}
  {c : pppcsr.Call}

theorem shows_call (h : Related (Shows lock_search) p q)
    (hsplit : Split Table.graph Table.value m size q t) (hc : c.Valid Table.graph t)
    (hfit : FitsPart p c) (hq : c.on_parts Table.graph q = some q') :
    ∃ p', c.on_parts (arrays lock_search) p = some p' ∧ Related (Shows lock_search) p' q' := by
  cases c with
  | add_node =>
    obtain ⟨tq, hback, hq⟩ : ∃ tq, q.partitions.getLast? = some tq ∧
        some { q with partitions := q.partitions.set (q.partitions.length - 1) (Table.graph.add_node tq) } =
          some q' := Option.bind_eq_some_iff.mp hq
    cases hq
    have hlen := h.partitions.length_eq
    rcases forall₂_getElem? h.partitions (q.partitions.length - 1) with ⟨s, tq', hs, ht, hst⟩ | ⟨-, hnone⟩
    · rw [List.getLast?_eq_getElem?, ht] at hback
      cases hback
      have hback : p.partitions.getLast? = some s := by
        rw [List.getLast?_eq_getElem?, hlen, hs]
      refine ⟨_, ?_, h.set (q.partitions.length - 1) (hst.add_node (hfit s hback))⟩
      simp only [pppcsr.Call.on_parts, PPPCSR.add_node, hback, ← hlen, bind, Option.bind]
      rfl
    · rw [List.getLast?_eq_getElem?, hnone] at hback
      cases hback
  | add_edge u v w =>
    obtain ⟨⟨tq, l⟩, hroute, hq⟩ : ∃ r, q.route u = some r ∧
        some { q with partitions := q.partitions.set (q.get_partiton u) (Table.graph.add_edge r.1 r.2 v w) } =
          some q' := Option.bind_eq_some_iff.mp hq
    cases hq
    obtain ⟨s, hs, hst⟩ := h.route hroute
    obtain ⟨hv, hw, hfits⟩ := hfit
    refine ⟨_, ?_, h.set (q.get_partiton u) (hst.add_edge hv hw (hfits s l hs))⟩
    simp only [pppcsr.Call.on_parts, PPPCSR.add_edge, hs, ← h.get_partiton, bind, Option.bind]
    rfl
  | remove_edge u v =>
    obtain ⟨⟨tq, l⟩, hroute, hq⟩ : ∃ r, q.route u = some r ∧
        some { q with partitions := q.partitions.set (q.get_partiton u) (Table.graph.remove_edge r.1 r.2 v) } =
          some q' := Option.bind_eq_some_iff.mp hq
    cases hq
    obtain ⟨s, hs, hst⟩ := h.route hroute
    obtain ⟨hv, hends⟩ := hfit
    have hl : l < s.get_n := by
      obtain ⟨tq', htq, hroute'⟩ := hsplit.route u
      cases hroute.symm.trans hroute'
      rw [hst.n]
      exact (hsplit.vertex htq).mp hc
    refine ⟨_, ?_, h.set (q.get_partiton u) (hst.remove_edge hl hv (hends s l hs))⟩
    simp only [pppcsr.Call.on_parts, PPPCSR.remove_edge, hs, ← h.get_partiton, bind, Option.bind]
    rfl

theorem shows_run {cs : List pppcsr.Call} (h : Related (Shows lock_search) p q)
    (hsplit : Split Table.graph Table.value m size q t) (hv : Valid Table.graph cs t)
    (hfit : FitParts lock_search cs p) :
    ∃ p' q', run_parts (arrays lock_search) cs p = some p' ∧ Related (Shows lock_search) p' q' ∧
      Split Table.graph Table.value m size q' (run Table.graph cs t) := by
  induction cs generalizing p q t with
  | nil => exact ⟨p, q, rfl, h, hsplit⟩
  | cons c cs ih =>
    obtain ⟨q1, hq1, hsplit1⟩ := call_spec Table.graph_isMap c hsplit hv.1
    obtain ⟨p1, hp1, h1⟩ := shows_call h hsplit hv.1 hfit.1 hq1
    obtain ⟨p', q', hrun, h', hsplit'⟩ := ih h1 hsplit1 hv.2 (hfit.2 p1 hp1)
    refine ⟨p', q', ?_, h', hsplit'⟩
    unfold run_parts
    rw [hp1]
    exact hrun

end

/-! ## The law -/

end packed_csr
