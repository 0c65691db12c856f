-- The region of a vertex in a well-formed array, and the place of an edge: the slot
-- that the search gives, with what stands before it and behind it.
import PackedCsr.Places
import PackedCsr.Steps

namespace packed_csr

open effects

/-! ## The order of two items -/

section

variable {n v : Nat} {a b e x : Edge}

theorem IsItem.cases (h : IsItem n e) : is_sentinel e = false ∨ e = sentinel e.src := by
  cases hs : is_sentinel e with
  | false => exact .inl rfl
  | true => exact .inr (h.sentinel_iff.mp hs)

theorem before_of_src (h : a.src < b.src) : Before a b := before_iff.mpr (.inl h)

theorem before_src (h : Before a b) : a.src ≤ b.src := by
  rcases before_iff.mp h with h | h
  · exact h.le
  · exact h.1.le

theorem before_sentinel (h : Before a (sentinel v)) : a.src < v := by
  rcases before_iff.mp h with h | h
  · exact h
  · simp at h

theorem sentinel_before (h : is_sentinel e = false) (hv : v ≤ e.src) : Before (sentinel v) e := by
  rw [before_iff]
  rcases Nat.eq_or_lt_of_le hv with rfl | hlt
  · right
    simp [h]
  · exact .inl hlt

theorem before_edges (ha : is_sentinel a = false) (hb : is_sentinel b = false) (hsrc : a.src = b.src) :
    Before a b ↔ a.dest < b.dest := by
  rw [before_iff]
  simp [ha, hb, hsrc]

end

/-! ## The region of a vertex -/

/-- The sentinel of `src` is in slot `b`, and its region ends at slot `e`. -/
structure Bounds (s : PCSR) (src b e : Nat) : Prop where
  node : ∃ node, s.node src = .ok node ∧ node.beginning = b ∧ node.end_ = e
  left : s.items[b]? = some (sentinel src)
  right : (src + 1 < s.get_n ∧ s.items[e]? = some (sentinel (src + 1))) ∨
    (src + 1 = s.get_n ∧ e = s.N - 1)

section

variable {s : PCSR} {src b e i : Nat} {x : Edge}

theorem WellFormed.bounds (h : WellFormed s) (hsrc : src < s.get_n) : ∃ b e, Bounds s src b e := by
  obtain ⟨b, hb⟩ := h.arranged.sentinel_slot hsrc
  have hnode : s.nodes[src]? = some s.nodes[src] := List.getElem?_eq_getElem hsrc
  have hbeg : s.nodes[src].beginning = b := by
    have hl := (h.linked b src hb).1
    rw [hnode] at hl
    exact Option.some.inj hl
  refine ⟨b, s.nodes[src].end_, ⟨s.nodes[src], ?_, hbeg, rfl⟩, hb, ?_⟩
  · unfold PCSR.node
    rw [hnode]
  · rcases Nat.lt_or_ge (src + 1) s.get_n with hlt | hge
    · obtain ⟨e, he⟩ := h.arranged.sentinel_slot hlt
      have hl := (h.linked e (src + 1) he).2 (by omega)
      rw [Nat.add_sub_cancel, hnode] at hl
      obtain rfl := Option.some.inj hl
      exact .inl ⟨hlt, he⟩
    · right
      have hlast : s.nodes.length - 1 = src := by
        unfold PCSR.get_n at hsrc hge
        omega
      have hl := h.ends
      unfold EndsAt at hl
      rw [hlast, hnode] at hl
      exact ⟨by omega, Option.some.inj hl⟩

namespace Bounds

theorem b_lt (hb : Bounds s src b e) (h : WellFormed s) : b < s.N := by
  rw [← h.sized.items]
  exact (List.getElem?_eq_some_iff.mp hb.left).1

theorem e_lt (hb : Bounds s src b e) (h : WellFormed s) : e < s.N := by
  rcases hb.right with ⟨-, he⟩ | ⟨-, rfl⟩
  · rw [← h.sized.items]
    exact (List.getElem?_eq_some_iff.mp he).1
  · have := h.sized.pow.pos
    omega

theorem b_le (hb : Bounds s src b e) (h : WellFormed s) : b ≤ e := by
  rcases hb.right with ⟨-, he⟩ | ⟨-, rfl⟩
  · exact (slot_lt_of_before h.arranged.sorted hb.left he (by simp) (by simp)
      (before_of_src (Nat.lt_succ_self src))).le
  · have := hb.b_lt h
    omega

/-- An item of the region is an edge of the vertex. -/
theorem inside (hb : Bounds s src b e) (h : WellFormed s) (hx : s.items[i]? = some x)
    (hf : full x = true) (hbi : b < i) (hie : i < e ∨ src + 1 = s.get_n) :
    IsEdge s.get_n x ∧ x.src = src := by
  have hitem := h.arranged.slot_item hx hf
  have hbefore := sorted_slots h.arranged.sorted hb.left hx (by simp) hf hbi
  have hle : src ≤ x.src := before_src hbefore
  have hsrc : x.src = src := by
    rcases hie with hie | hlast
    · rcases hb.right with ⟨-, he⟩ | ⟨hlast, -⟩
      · have hlt := before_sentinel (sorted_slots h.arranged.sorted hx he hf (by simp) hie)
        omega
      · have := hitem.src_lt
        omega
    · have := hitem.src_lt
      omega
  refine ⟨?_, hsrc⟩
  apply hitem.edge
  rcases hitem.cases with hs | hs
  · exact hs
  · rw [hs, hsrc] at hbefore
    exact absurd hbefore (before_irrefl _)

theorem before_left (hb : Bounds s src b e) (h : WellFormed s) (hx : s.items[i]? = some x)
    (hf : full x = true) (hib : i ≤ b) {y : Edge} (hy : is_sentinel y = false) (hsrc : y.src = src) :
    Before x y := by
  have hsy : Before (sentinel src) y := sentinel_before hy hsrc.ge
  rcases Nat.eq_or_lt_of_le hib with rfl | hlt
  · rw [hb.left] at hx
    cases hx
    exact hsy
  · exact (sorted_slots h.arranged.sorted hx hb.left hf (by simp) hlt).trans hsy

theorem after_right (hb : Bounds s src b e) (h : WellFormed s) (hx : s.items[i]? = some x)
    (hf : full x = true) (hlt : src + 1 < s.get_n) (hei : e ≤ i) {y : Edge} (hsrc : y.src = src) :
    Before y x := by
  rcases hb.right with ⟨-, he⟩ | ⟨hlast, -⟩
  · have hye : Before y (sentinel (src + 1)) := before_of_src (by simp [hsrc])
    rcases Nat.eq_or_lt_of_le hei with rfl | hlt'
    · rw [he] at hx
      cases hx
      exact hye
    · exact hye.trans (sorted_slots h.arranged.sorted he hx (by simp) hf hlt')
  · omega

theorem ascending (hb : Bounds s src b e) (h : WellFormed s) : Ascending s (b + 1) e := by
  intro i j x y hi hij hj hx hy hfx hfy
  obtain ⟨hxe, hxs⟩ := hb.inside h hx hfx (by omega) (.inl (by omega))
  obtain ⟨hye, hys⟩ := hb.inside h hy hfy (by omega) (.inl hj)
  exact (before_edges hxe.not_sentinel hye.not_sentinel (hxs.trans hys.symm)).mp
    (sorted_slots h.arranged.sorted hx hy hfx hfy hij)

end Bounds

/-! ## The place of an edge -/

/-- The slot holds the edge, with some value. -/
def Stores (s : PCSR) (e : Edge) (p : Nat) : Prop :=
  ∃ x, s.items[p]? = some x ∧ full x = true ∧ is_sentinel x = false ∧ x.src = e.src ∧ x.dest = e.dest

/-- `e` belongs into slot `p`: what comes before it stands before that slot, what comes behind it
from there on, and an item in the slot that has its destination is the edge itself. -/
structure Place (s : PCSR) (e : Edge) (p : Nat) : Prop where
  lt : p < s.N
  pos : 0 < p
  before : ∀ (i : Nat) (x : Edge), i < p → s.items[i]? = some x → full x = true → Before x e
  at_ : ∀ x, s.items[p]? = some x → full x = true → Stores s e p ∨ (Before e x ∧ x.dest ≠ e.dest)
  after : ∀ (i : Nat) (x : Edge), p < i → s.items[i]? = some x → full x = true → Before e x

/-- The place of `e` is behind the last slot, which holds an item. -/
structure PastEnd (s : PCSR) (e : Edge) (p : Nat) : Prop where
  last : p = s.N - 1
  full : ∃ x, s.items[p]? = some x ∧ packed_csr.full x = true ∧ Before x e ∧ x.dest ≠ e.dest

/-- What the search needs to know about the end of the array. -/
def EndOk (s : PCSR) : Prop := EndFull s ∨ EndFree s

/-- An edge behind the place of `e`, in the last slot: the search has not read that slot. -/
theorem after_in_last {e : Edge} {b en p : Nat} (h : WellFormed s) (hend : EndOk s)
    (hb : Bounds s e.src b en) (hlast : e.src + 1 = s.get_n) (ha : Answer s e.dest (b + 1) en p)
    (hp : p < s.N - 1) (hen : en = s.N - 1) (hx : s.items[s.N - 1]? = some x) (hf : full x = true) :
    e.dest < x.dest := by
  obtain ⟨hxe, hxs⟩ := hb.inside h hx hf (by have := ha.ge; omega) (.inr hlast)
  rcases hend with hfull | hfree
  · have hlt : s.N - 2 < s.items.length := by
      rw [h.sized.items]
      omega
    have hget := List.getElem?_eq_getElem hlt
    have hy : full s.items[s.N - 2] = true := by
      cases hy : full s.items[s.N - 2] with
      | true => rfl
      | false => exact not_gap (hfull (gap_of_null hget hy)) hx hf
    obtain ⟨hye, hys⟩ := hb.inside h hget hy (by have := ha.ge; omega) (.inr hlast)
    have hyx := (before_edges hye.not_sentinel hxe.not_sentinel (hys.trans hxs.symm)).mp
      (sorted_slots h.arranged.sorted hget hx hy hf (by omega))
    have hdy : e.dest ≤ s.items[s.N - 2].dest := by
      rcases Nat.eq_or_lt_of_le (show p ≤ s.N - 2 by omega) with rfl | hlt'
      · exact ha.at_ _ (by omega) hget hy
      · exact (ha.after _ _ hlt' (by omega) hget hy).le
    omega
  · have hs := hxe.not_sentinel
    rw [hfree x hx hf] at hs
    cases hs

/-- The answer of the search is the place of the edge, or the place is behind the array: unless an
edge in the last slot belongs before it, which the search has not read. -/
theorem Answer.place_of {e : Edge} {b en p : Nat} (h : WellFormed s)
    (hend : ∀ x, e.src + 1 = s.get_n → p < s.N - 1 → en = s.N - 1 → s.items[s.N - 1]? = some x →
      full x = true → e.dest < x.dest)
    (he : IsEdge s.get_n e) (hb : Bounds s e.src b en) (ha : Answer s e.dest (b + 1) en p) :
    Place s e p ∨ PastEnd s e p := by
  have hge := ha.ge
  have hle := ha.le
  have hen := hb.e_lt h
  have hns := he.not_sentinel
  -- an edge of the vertex against `e`
  have hlow : ∀ {x : Edge}, IsEdge s.get_n x ∧ x.src = e.src → x.dest < e.dest → Before x e :=
    fun hx hd => (before_edges hx.1.not_sentinel hns hx.2).mpr hd
  have hhigh : ∀ {x : Edge}, IsEdge s.get_n x ∧ x.src = e.src → e.dest < x.dest → Before e x :=
    fun hx hd => (before_edges hns hx.1.not_sentinel hx.2.symm).mpr hd
  have hcompare : ∀ {x : Edge}, s.items[p]? = some x → full x = true →
      IsEdge s.get_n x ∧ x.src = e.src → e.dest ≤ x.dest →
      Stores s e p ∨ (Before e x ∧ x.dest ≠ e.dest) := by
    intro x hx hf hxe hd
    rcases Nat.eq_or_lt_of_le hd with heq | hlt
    · exact .inl ⟨x, hx, hf, hxe.1.not_sentinel, hxe.2, heq.symm⟩
    · exact .inr ⟨hhigh hxe hlt, hlt.ne'⟩
  by_cases hpast : PastEnd s e p
  · exact .inr hpast
  left
  refine ⟨by omega, by omega, ?_, ?_, ?_⟩
  · intro i x hi hx hf
    rcases Nat.lt_or_ge b i with hbi | hib
    · have hxe := hb.inside h hx hf hbi (.inl (by omega))
      exact hlow hxe (ha.before i x (by omega) hi hx hf)
    · exact hb.before_left h hx hf hib hns rfl
  · intro x hx hf
    rcases Nat.lt_or_ge p en with hlt | hge'
    · have hxe := hb.inside h hx hf (by omega) (.inl hlt)
      exact hcompare hx hf hxe (ha.at_ x hlt hx hf)
    · obtain rfl : p = en := by omega
      rcases hb.right with ⟨hn, hs⟩ | ⟨hlast, hN⟩
      · have hxs := hx
        rw [hs] at hxs
        cases hxs
        refine .inr ⟨before_of_src (by simp), ?_⟩
        exact he.dest.ne'
      · have hxe := hb.inside h hx hf (by omega) (.inr hlast)
        rcases Nat.lt_or_ge x.dest e.dest with hd | hd
        · exact absurd ⟨hN, x, hx, hf, hlow hxe hd, hd.ne⟩ hpast
        · exact hcompare hx hf hxe hd
  · intro i x hi hx hf
    rcases Nat.lt_or_ge i en with hlt | hge'
    · have hxe := hb.inside h hx hf (by omega) (.inl hlt)
      exact hhigh hxe (ha.after i x hi hlt hx hf)
    · rcases hb.right with ⟨hn, hs⟩ | ⟨hlast, hN⟩
      · exact hb.after_right h hx hf hn hge' rfl
      · have hi' : i < s.N := by
          rw [← h.sized.items]
          exact (List.getElem?_eq_some_iff.mp hx).1
        obtain rfl : i = s.N - 1 := by omega
        have hxe := hb.inside h hx hf (by omega) (.inr hlast)
        exact hhigh hxe (hend x hlast (by omega) hN hx hf)

theorem Answer.place {e : Edge} {b en p : Nat} (h : WellFormed s) (hend : EndOk s)
    (he : IsEdge s.get_n e) (hb : Bounds s e.src b en) (ha : Answer s e.dest (b + 1) en p) :
    Place s e p ∨ PastEnd s e p :=
  ha.place_of h (fun _ hlast hp hen hx hf => after_in_last h hend hb hlast ha hp hen hx hf) he hb

/-- Where no slot is free at the answer, it is the place of the edge, whatever the last slot holds. -/
theorem Answer.place_full {e : Edge} {b en p : Nat} (h : WellFormed s) (hfull : ¬ IsGap s p)
    (he : IsEdge s.get_n e) (hb : Bounds s e.src b en) (ha : Answer s e.dest (b + 1) en p) :
    Place s e p ∨ PastEnd s e p := by
  refine ha.place_of h ?_ he hb
  intro x hlast hp hen hx hf
  have hxe := hb.inside h hx hf (by have := ha.ge; omega) (.inr hlast)
  have hlt : p < s.items.length := by
    rw [h.sized.items]
    omega
  have hget := List.getElem?_eq_getElem hlt
  have hy : full s.items[p] = true := by
    cases hy : full s.items[p] with
    | true => rfl
    | false => exact absurd (gap_of_null hget hy) hfull
  have hye := hb.inside h hget hy (by have := ha.ge; omega) (.inl (by omega))
  have hyx := (before_edges hye.1.not_sentinel hxe.1.not_sentinel (hye.2.trans hxe.2.symm)).mp
    (sorted_slots h.arranged.sorted hget hx hy hf hp)
  exact (ha.at_ _ (by omega) hget hy).trans_lt hyx

/-- The search for an edge, in the region of its vertex. -/
theorem search_region {e elem : Edge} (h : WellFormed s) (he : IsEdge s.get_n e)
    (helem : elem.dest = e.dest) :
    ∃ node p v, s.node e.src = .ok node ∧
      exec (binary_search s.N elem (node.beginning + 1) node.end_ false) s = .ok ((p, v), s) ∧
      s.load (p / logN s.N) = .ok v ∧ ∃ b en, Bounds s e.src b en ∧
        (Answer s e.dest (b + 1) en p ∨ PastEnd s e p) := by
  obtain ⟨b, en, hb⟩ := h.bounds he.src
  obtain ⟨node, hnode, rfl, rfl⟩ := hb.node
  obtain ⟨p, v, hrun, hv, hback, hanswer⟩ := binary_search_spec elem h.sized (by omega) (hb.e_lt h)
    (hb.ascending h)
  refine ⟨node, p, v, hnode, hrun, hv, _, _, hb, ?_⟩
  rcases Nat.lt_or_ge node.end_ (node.beginning + 1) with hlt | hge
  · -- the sentinel of the last vertex stands in the last slot
    have hp := hback (by omega)
    have hle := hb.b_le h
    rcases hb.right with ⟨hn, hs⟩ | ⟨hlast, hN⟩
    · have hbl := slot_lt_of_before h.arranged.sorted hb.left hs (by simp) (by simp)
        (before_of_src (Nat.lt_succ_self e.src))
      omega
    · right
      refine ⟨by omega, sentinel e.src, ?_, by simp, ?_, he.dest.ne'⟩
      · rw [hp, show node.end_ = node.beginning by omega]
        exact hb.left
      · exact sentinel_before he.not_sentinel (le_refl _)
  · have ha := hanswer hge
    rw [helem] at ha
    exact .inl ha

theorem search_place {e elem : Edge} (h : WellFormed s) (hend : EndOk s) (he : IsEdge s.get_n e)
    (helem : elem.dest = e.dest) :
    ∃ node p v, s.node e.src = .ok node ∧
      exec (binary_search s.N elem (node.beginning + 1) node.end_ false) s = .ok ((p, v), s) ∧
      s.load (p / logN s.N) = .ok v ∧ (Place s e p ∨ PastEnd s e p) := by
  obtain ⟨node, p, v, hnode, hrun, hv, b, en, hb, ha | hp⟩ := search_region h he helem
  · exact ⟨node, p, v, hnode, hrun, hv, ha.place h hend he hb⟩
  · exact ⟨node, p, v, hnode, hrun, hv, .inr hp⟩

theorem find_in_node_of {e : Edge} {src p v : Nat} {node : Node} (hnode : s.node src = .ok node)
    (hrun : exec (binary_search s.N e (node.beginning + 1) node.end_ false) s = .ok ((p, v), s)) :
    find_in_node s e src = .ok p := by
  unfold find_in_node
  simp only [hnode, hrun, bind, Except.bind]
  rfl

/-! ## Stored edges -/

/-- A stored edge stands neither before nor behind the edge that is looked for. -/
theorem Stores.not_before {e x : Edge} {q : Nat} (he : is_sentinel e = false) (h : Stores s e q)
    (hx : s.items[q]? = some x) : ¬ Before x e ∧ ¬ Before e x := by
  obtain ⟨y, hy, -, hsent, hsrc, hdest⟩ := h
  rw [hx] at hy
  cases hy
  rw [before_edges hsent he hsrc, before_edges he hsent hsrc.symm]
  omega

theorem key_of_edges {a b : Edge} (ha : is_sentinel a = false) (hb : is_sentinel b = false)
    (hsrc : a.src = b.src) (hdest : a.dest = b.dest) : key a = key b := by
  simp [key, ha, hb, hsrc, hdest]

/-- The slot of a stored edge is its place. -/
theorem Stores.place {e : Edge} {p : Nat} (h : WellFormed s) (he : is_sentinel e = false)
    (hst : Stores s e p) : Place s e p := by
  obtain ⟨x, hx, hf, hs, hsrc, hdest⟩ := id hst
  have hkey := key_of_edges hs he hsrc hdest
  have hlt := (List.getElem?_eq_some_iff.mp hx).1
  rw [h.sized.items] at hlt
  refine ⟨hlt, ?_, ?_, fun _ _ _ => .inl hst, ?_⟩
  · apply Nat.pos_of_ne_zero
    rintro rfl
    rw [h.first] at hx
    rw [← Option.some.inj hx] at hs
    simp at hs
  · intro i y hi hy hfy
    have := sorted_slots h.arranged.sorted hy hx hfy hf hi
    unfold Before at this ⊢
    rwa [← hkey]
  · intro i y hi hy hfy
    have := sorted_slots h.arranged.sorted hx hy hf hfy hi
    unfold Before at this ⊢
    rwa [← hkey]

/-- A stored edge is stored in its place. -/
theorem Place.stores {e : Edge} {p q : Nat} (he : is_sentinel e = false) (hp : Place s e p)
    (hq : Stores s e q) : q = p := by
  obtain ⟨x, hx, hf, -⟩ := id hq
  have hne := hq.not_before he hx
  rcases Nat.lt_trichotomy q p with hlt | heq | hgt
  · exact absurd (hp.before q x hlt hx hf) hne.1
  · exact heq
  · exact absurd (hp.after q x hgt hx hf) hne.2

theorem PastEnd.not_stores {e : Edge} {p q : Nat} (h : WellFormed s) (he : is_sentinel e = false)
    (hp : PastEnd s e p) : ¬ Stores s e q := by
  intro hq
  obtain ⟨hlast, y, hy, hfy, hye, -⟩ := hp
  obtain ⟨x, hx, hf, -⟩ := id hq
  have hne := hq.not_before he hx
  have hqN : q < s.N := by
    rw [← h.sized.items]
    exact (List.getElem?_eq_some_iff.mp hx).1
  rcases Nat.eq_or_lt_of_le (show q ≤ p by omega) with rfl | hlt
  · rw [hx] at hy
    cases hy
    exact hne.1 hye
  · exact hne.1 ((sorted_slots h.arranged.sorted hx hy hf hfy hlt).trans hye)

/-- An edge of the array is stored in some slot. -/
theorem stores_of_mem {e x : Edge} (hx : x ∈ s.items.filter full) (hs : is_sentinel x = false)
    (hsrc : x.src = e.src) (hdest : x.dest = e.dest) :
    ∃ q : Nat, s.items[q]? = some x ∧ Stores s e q := by
  obtain ⟨hmem, hf⟩ := List.mem_filter.mp hx
  obtain ⟨q, hq⟩ := List.mem_iff_getElem?.mp hmem
  exact ⟨q, hq, x, hq, hf, hs, hsrc, hdest⟩

end

end packed_csr
