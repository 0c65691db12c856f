-- What the readers see of a well-formed array. `edge_exists` and `find_value` search up to the
-- end of a region, with that slot; the loops over a region stop in front of it.
import PackedCsr.Representation

namespace packed_csr

open effects

/-! ## The loops over a region -/

/-- The items between the sentinel in slot `b` and slot `en`. -/
def region (s : PCSR) (b en : Nat) : List Edge := ((s.items.drop (b + 1)).take (en - (b + 1))).filter full

section

variable {s : PCSR} {x : Edge} {u b en i rest : Nat}

theorem region_loop_eq (h : i + rest ≤ s.items.length) :
    region_loop s rest i = .ok (((s.items.drop i).take rest).filter full) := by
  induction rest generalizing i with
  | zero => rfl
  | succ rest ih =>
    have hlt : i < s.items.length := by omega
    unfold region_loop
    rw [item_of_lt hlt, ih (by omega), List.drop_eq_getElem_cons hlt, List.take_succ_cons,
      List.filter_cons]
    simp only [bind, Except.bind, pure, Except.pure, full]
    by_cases hnull : s.items[i].is_null = true
    · simp [hnull]
    · simp [hnull]

theorem mem_region : x ∈ region s b en ↔ full x = true ∧ ∃ i, b < i ∧ i < en ∧ s.items[i]? = some x := by
  unfold region
  rw [List.mem_filter, List.mem_iff_getElem?]
  constructor
  · rintro ⟨⟨k, hk⟩, hf⟩
    rw [List.getElem?_take] at hk
    split at hk
    · rw [List.getElem?_drop] at hk
      exact ⟨hf, b + 1 + k, by omega, by omega, hk⟩
    · cases hk
  · rintro ⟨hf, i, hbi, hie, hi⟩
    refine ⟨⟨i - (b + 1), ?_⟩, hf⟩
    rw [List.getElem?_take, if_pos (by omega), List.getElem?_drop, show b + 1 + (i - (b + 1)) = i by omega]
    exact hi

theorem region_sorted (h : WellFormed s) (b en : Nat) : (region s b en).Pairwise Before :=
  h.arranged.sorted.sublist (((List.take_sublist _ _).trans (List.drop_sublist _ _)).filter full)

namespace Bounds

/-- An edge of the vertex stands in its region, or in the last slot of the array. -/
theorem slot_of_edge (hb : Bounds s u b en) (h : WellFormed s) (hx : s.items[i]? = some x)
    (hf : full x = true) (hs : is_sentinel x = false) (hsrc : x.src = u) :
    b < i ∧ (i < en ∨ (u + 1 = s.get_n ∧ i = s.N - 1)) := by
  refine ⟨slot_lt_of_before h.arranged.sorted hb.left hx (by simp) hf
    (sentinel_before hs hsrc.ge), ?_⟩
  rcases hb.right with ⟨-, he⟩ | ⟨hlast, rfl⟩
  · left
    apply slot_lt_of_before h.arranged.sorted hx he hf (by simp)
    apply before_of_src
    rw [hsrc]
    exact Nat.lt_succ_self u
  · have hi := (List.getElem?_eq_some_iff.mp hx).1
    rw [h.sized.items] at hi
    omega

/-- The region holds the edges of the vertex, except for one in the last slot. -/
theorem mem_region_iff (hb : Bounds s u b en) (h : WellFormed s) :
    x ∈ region s b en ↔ x ∈ edges_of s u ∧ s.items[s.N - 1]? ≠ some x := by
  rw [mem_region, mem_edges_of]
  constructor
  · rintro ⟨hf, i, hbi, hie, hi⟩
    obtain ⟨hx, hsrc⟩ := hb.inside h hi hf hbi (.inl hie)
    refine ⟨⟨mem_filter_of_slot hi hf, hx.not_sentinel, hsrc⟩, fun hlast => ?_⟩
    have hen := hb.e_lt h
    exact before_irrefl x (sorted_slots h.arranged.sorted hi hlast hf hf (by omega))
  · rintro ⟨⟨hmem, hs, hsrc⟩, hlast⟩
    obtain ⟨hmem, hf⟩ := List.mem_filter.mp hmem
    obtain ⟨i, hi⟩ := List.mem_iff_getElem?.mp hmem
    obtain ⟨hbi, hie | ⟨-, rfl⟩⟩ := hb.slot_of_edge h hi hf hs hsrc
    · exact ⟨hf, i, hbi, hie, hi⟩
    · exact absurd hi hlast

theorem region_edge (hb : Bounds s u b en) (h : WellFormed s) (hx : x ∈ region s b en) :
    is_sentinel x = false ∧ x.src = u := (mem_edges_of.mp ((hb.mem_region_iff h).mp hx).1).2

theorem region_ascending (hb : Bounds s u b en) (h : WellFormed s) :
    ((region s b en).map Edge.dest).Pairwise (· < ·) := by
  rw [List.pairwise_map]
  apply (region_sorted h b en).imp_of_mem
  intro x y hx hy hxy
  obtain ⟨hxs, hxsrc⟩ := hb.region_edge h hx
  obtain ⟨hys, hysrc⟩ := hb.region_edge h hy
  exact (before_edges hxs hys (hxsrc.trans hysrc.symm)).mp hxy

end Bounds

/-- The edges of a vertex, as a reader of its region sees them. -/
def seen (s : PCSR) (u : Nat) : List Edge :=
  (s.nodes[u]?.map fun n => region s n.beginning n.end_).getD []

theorem Bounds.seen_eq (hb : Bounds s u b en) : seen s u = region s b en := by
  obtain ⟨node, hnode, rfl, rfl⟩ := hb.node
  unfold PCSR.node at hnode
  unfold seen
  cases hget : s.nodes[u]? with
  | none =>
    rw [hget] at hnode
    cases hnode
  | some n =>
    rw [hget] at hnode
    cases hnode
    rfl

theorem mem_seen (h : WellFormed s) (hu : u < s.get_n) :
    x ∈ seen s u ↔ x ∈ edges_of s u ∧ s.items[s.N - 1]? ≠ some x := by
  obtain ⟨b, en, hb⟩ := h.bounds hu
  rw [hb.seen_eq]
  exact hb.mem_region_iff h

theorem seen_ascending (h : WellFormed s) (hu : u < s.get_n) : ((seen s u).map Edge.dest).Pairwise (· < ·) := by
  obtain ⟨b, en, hb⟩ := h.bounds hu
  rw [hb.seen_eq]
  exact hb.region_ascending h

/-- An edge in the last slot is one of the last vertex. -/
theorem last_slot_vertex (h : WellFormed s) (hx : s.items[s.N - 1]? = some x) (hf : full x = true) :
    x.src + 1 = s.get_n := by
  have hitem := h.arranged.slot_item hx hf
  by_contra hne
  have hlt := hitem.src_lt
  obtain ⟨i, hi⟩ := h.arranged.sentinel_slot (show x.src + 1 < s.get_n by omega)
  have hslot := slot_lt_of_before h.arranged.sorted hx hi hf (by simp) (before_of_src (Nat.lt_succ_self x.src))
  have hlen := (List.getElem?_eq_some_iff.mp hi).1
  rw [h.sized.items] at hlen
  omega

/-- The loop over a region misses an edge in the last slot, and no other. -/
theorem seen_all_iff (h : WellFormed s) (hu : u < s.get_n) :
    (∀ x ∈ edges_of s u, x ∈ seen s u) ↔ (u + 1 = s.get_n → EndFree s) := by
  constructor
  · intro hall hlast x hx hf
    by_contra hs
    simp only [Bool.not_eq_true] at hs
    have hsrc : x.src = u := by
      have := last_slot_vertex h hx hf
      omega
    exact ((mem_seen h hu).mp (hall x (mem_edges_of.mpr ⟨mem_filter_of_slot hx hf, hs, hsrc⟩))).2 hx
  · intro hfree x hx
    refine (mem_seen h hu).mpr ⟨hx, fun hlast => ?_⟩
    obtain ⟨hmem, hs, hsrc⟩ := mem_edges_of.mp hx
    have hf := (List.mem_filter.mp hmem).2
    have hvertex := last_slot_vertex h hlast hf
    rw [hsrc] at hvertex
    rw [hfree hvertex x hlast hf] at hs
    cases hs

theorem seen_eq_edges_of (h : WellFormed s) (hu : u < s.get_n) (hend : u + 1 = s.get_n → EndFree s) :
    seen s u = edges_of s u := by
  have hall := (seen_all_iff h hu).mpr hend
  obtain ⟨b, en, hb⟩ := h.bounds hu
  apply sorted_ext
  · rw [hb.seen_eq]
    exact region_sorted h b en
  · exact edges_of_sorted h u
  · intro x
    exact ⟨fun hx => ((mem_seen h hu).mp hx).1, hall x⟩

theorem read_region (h : WellFormed s) (hu : u < s.get_n) :
    ∃ n, s.node u = .ok n ∧ region_loop s (n.end_ - (n.beginning + 1)) (n.beginning + 1) = .ok (seen s u) := by
  obtain ⟨b, en, hb⟩ := h.bounds hu
  obtain ⟨node, hnode, rfl, rfl⟩ := id hb.node
  have hle := hb.b_le h
  have hlt := hb.e_lt h
  have hblt := hb.b_lt h
  refine ⟨node, hnode, ?_⟩
  rw [hb.seen_eq]
  apply region_loop_eq
  rw [h.sized.items]
  omega

theorem get_neighbourhood_eq (h : WellFormed s) (hu : u < s.get_n) :
    get_neighbourhood s u = .ok ((seen s u).map Edge.dest) := by
  obtain ⟨n, hnode, hloop⟩ := read_region h hu
  unfold get_neighbourhood
  rw [if_pos hu, hnode]
  simp only [bind, Except.bind, hloop]
  rfl

theorem get_edges_loop_eq (h : WellFormed s) {v : Nat} (hv : v + rest ≤ s.get_n) : get_edges_loop s rest v =
    .ok ((List.range' v rest).flatMap fun u => (seen s u).map fun e => (u, e.dest, e.value)) := by
  induction rest generalizing v with
  | zero => rfl
  | succ rest ih =>
    obtain ⟨n, hnode, hloop⟩ := read_region h (show v < s.get_n by omega)
    unfold get_edges_loop
    rw [hnode]
    simp only [bind, Except.bind, hloop, ih (show v + 1 + rest ≤ s.get_n by omega)]
    rfl

theorem get_edges_eq (h : WellFormed s) : get_edges s =
    .ok ((List.range s.get_n).flatMap fun u => (seen s u).map fun e => (u, e.dest, e.value)) := by
  rw [List.range_eq_range']
  exact get_edges_loop_eq h (by omega)

end

/-! ## The searches -/

section

variable {s : PCSR} {u dest : Nat}

/-- The slot that the search for an edge gives: it holds an item with the destination exactly where the
edge is stored. -/
theorem found_item (h : WellFormed s) (hend : EndOk s) (hu : u < s.get_n) (hdest : dest < UINT32_MAX)
    (elem : Edge) (helem : elem.dest = dest) :
    ∃ p x, find_in_node s elem u = .ok p ∧ s.item p = .ok x ∧
      (full x = true → x.dest = dest → x ∈ edges_of s u) ∧
      ∀ y ∈ edges_of s u, y.dest = dest → x = y := by
  have he : IsEdge s.get_n ⟨u, dest, 1⟩ := ⟨hu, hdest, Nat.one_pos, (by decide : 1 < UINT32_MAX)⟩
  have hns := he.not_sentinel
  obtain ⟨node, p, v, hnode, hrun, -, hp⟩ := search_place h hend he helem
  have hplt : p < s.items.length := by
    rw [h.sized.items]
    rcases hp with hp | hp
    · exact hp.lt
    · have := hp.last
      have := h.sized.pow.pos
      omega
  have hitem := List.getElem?_eq_getElem hplt
  have hstored : ∀ y ∈ edges_of s u, y.dest = dest → ∃ q : Nat, s.items[q]? = some y ∧ Stores s ⟨u, dest, 1⟩ q := by
    intro y hy hd
    obtain ⟨hmem, hs, hsrc⟩ := mem_edges_of.mp hy
    exact stores_of_mem hmem hs hsrc hd
  refine ⟨p, s.items[p], find_in_node_of hnode hrun, item_of_lt hplt, ?_, ?_⟩
  · intro hf hd
    rcases hp with hp | hp
    · rcases hp.at_ _ hitem hf with ⟨y, hy, -, hs, hsrc, -⟩ | ⟨-, hne⟩
      · cases hitem.symm.trans hy
        exact mem_edges_of.mpr ⟨mem_filter_of_slot hitem hf, hs, hsrc⟩
      · exact absurd hd hne
    · obtain ⟨y, hy, -, -, hne⟩ := hp.full
      cases hitem.symm.trans hy
      exact absurd hd hne
  · intro y hy hd
    obtain ⟨q, hq, hst⟩ := hstored y hy hd
    rcases hp with hp | hp
    · obtain rfl := hp.stores hns hst
      exact Option.some.inj (hitem.symm.trans hq)
    · exact absurd hst (hp.not_stores h hns)

theorem edge_exists_iff (h : WellFormed s) (hend : EndOk s) (hu : u < s.get_n) (hdest : dest < UINT32_MAX) :
    ∃ r, edge_exists s u dest = .ok r ∧ (r = true ↔ ∃ x ∈ edges_of s u, x.dest = dest) := by
  obtain ⟨p, x, hfind, hitem, hfound, hstored⟩ := found_item h hend hu hdest ⟨0, dest, 1⟩ rfl
  refine ⟨!x.is_null && !is_sentinel x && x.dest == dest, ?_, ?_⟩
  · unfold edge_exists
    rw [hfind]
    simp only [bind, Except.bind, hitem]
    rfl
  · simp only [Bool.and_eq_true, beq_iff_eq]
    constructor
    · rintro ⟨⟨hf, -⟩, hd⟩
      exact ⟨x, hfound hf hd, hd⟩
    · rintro ⟨y, hy, hd⟩
      obtain rfl := hstored y hy hd
      obtain ⟨hmem, hs, -⟩ := mem_edges_of.mp hy
      exact ⟨⟨(List.mem_filter.mp hmem).2, by rw [hs]; rfl⟩, hd⟩

theorem find_value_eq (h : WellFormed s) (hend : EndOk s) (hu : u < s.get_n) (hdest : dest < UINT32_MAX) :
    ∃ w, find_value s u dest = .ok w ∧ (∀ x ∈ edges_of s u, x.dest = dest → w = x.value) ∧
      ((∀ x ∈ edges_of s u, x.dest ≠ dest) → w = 0) := by
  obtain ⟨p, x, hfind, hitem, hfound, hstored⟩ := found_item h hend hu hdest ⟨0, dest, 0⟩ rfl
  refine ⟨if !x.is_null && x.dest == dest then x.value else 0, ?_, ?_, ?_⟩
  · unfold find_value
    rw [hfind]
    simp only [bind, Except.bind, hitem]
    rfl
  · intro y hy hd
    obtain rfl := hstored y hy hd
    have hf : full x = true := (List.mem_filter.mp (mem_edges_of.mp hy).1).2
    unfold full at hf
    rw [hf, hd]
    simp
  · intro hno
    split
    · rename_i hcond
      simp only [Bool.and_eq_true, beq_iff_eq] at hcond
      exact absurd hcond.2 (hno x (hfound hcond.1 hcond.2))
    · rfl

/-! ## The mark of a sentinel as a destination -/

/-- The slot in front of the end of the range is a gap: a search for a destination behind all items
stops at a gap. -/
theorem search_loop_stops {start end_ d rest : Nat} (hs : Sized s) (h1 : 1 ≤ start) (hend : end_ < s.N)
    (hwide : start + 1 < end_) (hlast : IsGap s (end_ - 1))
    (hless : ∀ (i : Nat) (x : Edge), start ≤ i → i < end_ → s.items[i]? = some x → full x = true → x.dest < d)
    (hrest : end_ < start + rest) :
    ∃ p v, exec (search_loop s.N d rest start end_) s = .ok (.inl (p, v), s) ∧ IsGap s p := by
  induction rest generalizing start with
  | zero => omega
  | succ rest ih =>
    unfold search_loop
    rw [if_pos hwide]
    dsimp only
    generalize hmid : (start + end_) / 2 = mid
    have hlt : mid < s.items.length := by
      rw [hs.items]
      omega
    obtain ⟨item, check, hfan, hfound⟩ := fan_spec hs h1 hend hwide hmid.symm (List.getElem?_eq_getElem hlt)
    have hcheck : check < s.N := by
      rcases hfound with ⟨-, -, -, hc, -⟩ | ⟨-, hc, -⟩ <;> omega
    obtain ⟨v, -, hload⟩ := load_leaf hs hcheck
    obtain ⟨v2, -, hload2⟩ := load_leaf (i := mid) hs (by omega)
    rw [exec_look_bind (item_of_lt hlt), exec_bind_ok hfan]
    dsimp only
    rw [exec_look_bind hload, exec_look_bind hload2]
    rcases hfound with ⟨hf, hget, hc1, hc2, hstart⟩ | ⟨hf, hc, hgaps⟩
    · have hnull : item.is_null = false := by simpa [full] using hf
      have hne : (end_ == check) = false := by simpa using by omega
      have hd := hless check item hc1 hc2 hget hf
      rw [hnull, hne]
      by_cases hs' : check = start
      · subst hs'
        simp only [beq_self_eq_true, Bool.or_true, Bool.or_false, if_true, Bool.not_false,
          Bool.true_and, decide_eq_true_eq]
        rw [if_neg (by omega)]
        exact ⟨mid, v2, rfl, hstart rfl mid (by omega) (by omega)⟩
      · have hne' : (start == check) = false := by simpa using Ne.symm hs'
        rw [hne']
        simp only [Bool.or_false, Bool.false_eq_true, if_false]
        rw [exec_look_bind hload, if_neg (by omega), if_neg (by omega)]
        -- the item is not in the slot in front of the end
        have hfront : check ≠ end_ - 1 := by
          rintro rfl
          exact not_gap hlast hget hf
        exact ih (by omega) (by omega) (fun i x hi => hless i x (by omega)) (by omega)
    · have hnull : item.is_null = true := by simpa [full] using hf
      rw [hnull]
      simp only [Bool.true_or, if_true, Bool.not_true, Bool.false_and, Bool.false_eq_true, if_false]
      exact ⟨mid, v2, rfl, hgaps mid (by omega) (by omega)⟩

/-- The search for a destination behind all edges of the vertex does not run into a sentinel: there is
a gap in front of the next one, and not only this slot; or the vertex is the last one, and its own
sentinel is not in the last slot. -/
def Screened (s : PCSR) (u : Nat) : Prop :=
  ∃ n, s.nodes[u]? = some n ∧
    if u + 1 = s.get_n then n.beginning < n.end_ else n.beginning + 2 < n.end_ ∧ IsGap s (n.end_ - 1)

/-- Where the search for the mark ends. -/
theorem mark_found {b en : Nat} (h : WellFormed s) (hb : Bounds s u b en) (elem : Edge)
    (helem : elem.dest = UINT32_MAX) :
    ∃ p, find_in_node s elem u = .ok p ∧ p < s.N ∧ (IsGap s p ∨ p = en) ∧
      (b + 2 < en → IsGap s (en - 1) → IsGap s p) ∧ (¬ (b + 2 < en ∧ IsGap s (en - 1)) → p = en) := by
  obtain ⟨node, hnode, rfl, rfl⟩ := id hb.node
  have hlt := hb.e_lt h
  have hle := hb.b_le h
  have hless : ∀ (i : Nat) (x : Edge), node.beginning + 1 ≤ i → i < node.end_ → s.items[i]? = some x →
      full x = true → x.dest < elem.dest := by
    intro i x hi hi' hx hf
    rw [helem]
    exact (hb.inside h hx hf (by omega) (.inl hi')).1.dest
  obtain ⟨p, v, hrun, -, hback, hanswer⟩ := binary_search_spec elem h.sized (Nat.succ_pos node.beginning) hlt
    (hb.ascending h)
  have hfind := find_in_node_of hnode hrun
  have hfront : node.beginning + 1 ≤ node.end_ → IsGap s p ∨ p = node.end_ := by
    intro hge
    have ha := hanswer hge
    have := ha.le
    rcases Nat.lt_or_ge p node.end_ with hp | hp
    · left
      have hlen : p < s.items.length := by
        rw [h.sized.items]
        omega
      have hget := List.getElem?_eq_getElem hlen
      cases hf : full s.items[p] with
      | false => exact gap_of_null hget hf
      | true =>
        have hl := ha.at_ _ hp hget hf
        have hr := hless p _ ha.ge hp hget hf
        omega
    · right
      omega
  have hor : IsGap s p ∨ p = node.end_ := by
    rcases Nat.lt_or_ge node.end_ (node.beginning + 1) with hlt' | hge
    · exact .inr (hback (by omega))
    · exact hfront hge
  have hple : p ≤ node.end_ := by
    rcases Nat.lt_or_ge node.end_ (node.beginning + 1) with hlt' | hge
    · exact (hback (by omega)).le
    · exact (hanswer hge).le
  refine ⟨p, hfind, by omega, hor, ?_, ?_⟩
  · intro hwide hgap
    obtain ⟨q, w, hloop, hq⟩ := search_loop_stops h.sized (Nat.succ_pos node.beginning) hlt (by omega) hgap hless
      (show node.end_ < node.beginning + 1 + (node.end_ - (node.beginning + 1) + 1) by omega)
    have hrun' : exec (binary_search s.N elem (node.beginning + 1) node.end_ false) s = .ok ((q, w), s) := by
      unfold binary_search
      dsimp only
      rw [exec_bind_ok hloop]
      rfl
    cases hrun.symm.trans hrun'
    exact hq
  · intro hno
    rcases Nat.lt_or_ge node.end_ (node.beginning + 2) with hshort | hlong
    · exact hback (by omega)
    rcases Nat.eq_or_lt_of_le hlong with htwo | hwide
    · -- one slot: the loop does not start
      have hloop : exec (search_loop s.N elem.dest (node.end_ - (node.beginning + 1) + 1) (node.beginning + 1)
          node.end_) s = .ok (.inr (node.beginning + 1, node.end_), s) := by
        unfold search_loop
        rw [if_neg (by omega)]
        rfl
      obtain ⟨q, w, hend, -, hq⟩ := search_end_spec elem (node.beginning + 1) node.end_ h.sized
        (show node.beginning + 1 < s.N by omega) hlt
      have hrun' : exec (binary_search s.N elem (node.beginning + 1) node.end_ false) s = .ok ((q, w), s) := by
        unfold binary_search
        dsimp only
        rw [exec_bind_ok hloop]
        dsimp only
        rw [if_neg (by omega)]
        exact hend
      cases hrun.symm.trans hrun'
      rcases hq with ⟨-, x, hx, hf, hd⟩ | ⟨hq, -⟩
      · have := hless _ x (le_refl _) (by omega) hx hf
        omega
      · exact hq
    · -- an item in front of the end is not behind the place of the mark
      by_contra hne
      have hgap := hor.resolve_right hne
      apply hno
      refine ⟨hwide, ?_⟩
      rcases Nat.eq_or_lt_of_le (show p ≤ node.end_ - 1 by omega) with rfl | hplt
      · exact hgap
      have hlen : node.end_ - 1 < s.items.length := by
        rw [h.sized.items]
        omega
      have hget := List.getElem?_eq_getElem hlen
      cases hf : full s.items[node.end_ - 1] with
      | false => exact gap_of_null hget hf
      | true =>
        have ha := hanswer (by omega)
        have hr := ha.after _ _ hplt (by omega) hget hf
        have := hless _ _ (by omega) (by omega) hget hf
        omega

theorem edge_exists_mark (h : WellFormed s) (hu : u < s.get_n) : edge_exists s u UINT32_MAX = .ok false := by
  obtain ⟨b, en, hb⟩ := h.bounds hu
  obtain ⟨p, hfind, hp, -⟩ := mark_found h hb ⟨0, UINT32_MAX, 1⟩ rfl
  have hlen : p < s.items.length := by
    rw [h.sized.items]
    exact hp
  unfold edge_exists
  rw [hfind]
  simp only [bind, Except.bind, item_of_lt hlen]
  unfold is_sentinel
  by_cases hd : s.items[p].dest = UINT32_MAX
  · simp [hd, pure, Except.pure]
  · simp [hd, pure, Except.pure]

theorem Bounds.node_eq {b en : Nat} (hb : Bounds s u b en) :
    ∃ n, s.nodes[u]? = some n ∧ n.beginning = b ∧ n.end_ = en := by
  obtain ⟨n, hnode, hbeg, hend⟩ := hb.node
  unfold PCSR.node at hnode
  cases hget : s.nodes[u]? with
  | none =>
    rw [hget] at hnode
    cases hnode
  | some n' =>
    rw [hget] at hnode
    cases hnode
    exact ⟨n, rfl, hbeg, hend⟩

/-- An item that has the mark as its destination has a value. -/
theorem read_zero_iff (x : Edge) (dest : Nat) :
    (if !x.is_null && x.dest == dest then x.value else 0) = 0 ↔ ¬ (full x = true ∧ x.dest = dest) := by
  by_cases hf : full x = true
  · have hvalue := full_iff.mp hf
    unfold full at hf
    simp [full, hf, hvalue]
  · unfold full at hf
    simp [full, hf]

/-- `find_value` does not look whether the item that it finds is a sentinel. -/
theorem find_value_mark (h : WellFormed s) (hu : u < s.get_n) :
    ∃ w, find_value s u UINT32_MAX = .ok w ∧ (w = 0 ↔ Screened s u) := by
  obtain ⟨b, en, hb⟩ := h.bounds hu
  obtain ⟨p, hfind, hp, hor, hgap, hend⟩ := mark_found h hb ⟨0, UINT32_MAX, 0⟩ rfl
  have hlen : p < s.items.length := by
    rw [h.sized.items]
    exact hp
  have hread := item_of_lt hlen
  have hitem := List.getElem?_eq_getElem hlen
  generalize s.items[p] = x at hread hitem
  refine ⟨if !x.is_null && x.dest == UINT32_MAX then x.value else 0, ?_, ?_⟩
  · unfold find_value
    rw [hfind]
    simp only [bind, Except.bind, hread]
    rfl
  rw [read_zero_iff]
  have hnull : IsGap s p → ¬ (full x = true ∧ x.dest = UINT32_MAX) := by
    rintro hgap ⟨hf, -⟩
    exact not_gap hgap hitem hf
  obtain ⟨node, hget, rfl, rfl⟩ := hb.node_eq
  have hscreened : Screened s u ↔ if u + 1 = s.get_n then node.beginning < node.end_
      else node.beginning + 2 < node.end_ ∧ IsGap s (node.end_ - 1) := by
    unfold Screened
    rw [hget]
    simp
  rw [hscreened]
  rcases hb.right with ⟨hnext, hs⟩ | ⟨hlast, hN⟩
  · rw [if_neg (by omega)]
    constructor
    · intro hno
      by_contra hcond
      rw [hend hcond, hs] at hitem
      cases hitem
      exact hno ⟨by simp, rfl⟩
    · rintro ⟨hwide, hfront⟩
      exact hnull (hgap hwide hfront)
  · rw [if_pos hlast]
    constructor
    · intro hno
      by_contra hcond
      have hpe := hend (by omega)
      have hle := hb.b_le h
      rw [hpe, show node.end_ = node.beginning by omega, hb.left] at hitem
      cases hitem
      exact hno ⟨by simp, rfl⟩
    · intro hlt
      rcases hor with hg | rfl
      · exact hnull hg
      · rintro ⟨hf, hd⟩
        have := (hb.inside h hitem hf hlt (.inr hlast)).1.dest
        omega

end

end packed_csr
