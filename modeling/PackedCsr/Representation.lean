-- What the array and the node table stand for: the vertices in order, each with its edges.
import PackedCsr.Crowding

namespace packed_csr

open effects

/-- The edges of a vertex, from left to right. -/
def edges_of (s : PCSR) (v : Nat) : List Edge := (s.items.filter full).filter (edge_of v)

/-- The array holds each sentinel with the edges of its vertex behind it, and the nodes know the slots
of the sentinels. -/
structure Represents (n : Nat) (s : PCSR) : Prop where
  items : s.items.filter full = (List.range n).flatMap fun v => sentinel v :: edges_of s v
  ascending : ∀ v < n, ((edges_of s v).map Edge.dest).Pairwise (· < ·)
  first : s.items[0]? = some (sentinel 0)
  beginning : ∀ v < n, ∃ i, s.nodes[v]?.map Node.beginning = some i ∧ s.items[i]? = some (sentinel v)
  end_ : ∀ v, v + 1 < n →
    ∃ i, s.nodes[v]?.map Node.end_ = some i ∧ s.items[i]? = some (sentinel (v + 1))
  last : s.nodes[n - 1]?.map Node.end_ = some (s.N - 1)

section

variable {s : PCSR} {e : Edge} {v : Nat}

theorem mem_edges_of : e ∈ edges_of s v ↔ e ∈ s.items.filter full ∧ is_sentinel e = false ∧ e.src = v := by
  unfold edges_of
  rw [List.mem_filter, edge_of_iff]

theorem edges_of_sorted (h : WellFormed s) (v : Nat) : (edges_of s v).Pairwise Before :=
  h.arranged.sorted.filter (edge_of v)

theorem edges_of_ascending (h : WellFormed s) (v : Nat) :
    ((edges_of s v).map Edge.dest).Pairwise (· < ·) := by
  rw [List.pairwise_map]
  apply (edges_of_sorted h v).imp_of_mem
  intro a b ha hb hab
  obtain ⟨-, has, hasrc⟩ := mem_edges_of.mp ha
  obtain ⟨-, hbs, hbsrc⟩ := mem_edges_of.mp hb
  exact (before_edges has hbs (hasrc.trans hbsrc.symm)).mp hab

/-- The regions one after the other are in order. -/
theorem regions_sorted (h : WellFormed s) :
    ((List.range s.get_n).flatMap fun v => sentinel v :: edges_of s v).Pairwise Before := by
  rw [List.pairwise_flatMap]
  constructor
  · intro v _
    rw [List.pairwise_cons]
    refine ⟨fun e he => ?_, edges_of_sorted h v⟩
    obtain ⟨-, hs, hsrc⟩ := mem_edges_of.mp he
    exact sentinel_before hs hsrc.ge
  · apply List.pairwise_lt_range.imp
    intro u v huv a ha b hb
    have hsrc : ∀ w, ∀ x ∈ sentinel w :: edges_of s w, x.src = w := by
      intro w x hx
      rcases List.mem_cons.mp hx with rfl | hx
      · rfl
      · exact (mem_edges_of.mp hx).2.2
    apply before_of_src
    rw [hsrc u a ha, hsrc v b hb]
    exact huv

theorem mem_regions (h : WellFormed s) :
    e ∈ s.items.filter full ↔ e ∈ (List.range s.get_n).flatMap fun v => sentinel v :: edges_of s v := by
  rw [List.mem_flatMap]
  constructor
  · intro he
    have hitem := h.arranged.items e he
    refine ⟨e.src, List.mem_range.mpr hitem.src_lt, ?_⟩
    rcases hitem.cases with hs | hs
    · exact List.mem_cons_of_mem _ (mem_edges_of.mpr ⟨he, hs, rfl⟩)
    · exact List.mem_cons.mpr (.inl hs)
  · rintro ⟨v, hv, he⟩
    rcases List.mem_cons.mp he with rfl | he
    · exact h.arranged.sentinels v (List.mem_range.mp hv)
    · exact (mem_edges_of.mp he).1

/-- Two lists in order with the same items are equal. -/
theorem sorted_ext {l l' : List Edge} (h : l.Pairwise Before) (h' : l'.Pairwise Before)
    (hmem : ∀ e, e ∈ l ↔ e ∈ l') : l = l' := by
  apply List.Perm.eq_of_pairwise _ h h'
  · have hnodup : l.Nodup := h.imp before_ne
    have hnodup' : l'.Nodup := h'.imp before_ne
    exact (List.perm_ext_iff_of_nodup hnodup hnodup').mpr hmem
  · intro a b _ _ hab hba
    exact absurd (hab.trans hba) (before_irrefl a)

theorem items_by_vertex (h : WellFormed s) :
    s.items.filter full = (List.range s.get_n).flatMap fun v => sentinel v :: edges_of s v :=
  sorted_ext h.arranged.sorted (regions_sorted h) fun _ => mem_regions h

theorem WellFormed.represents (h : WellFormed s) : Represents s.get_n s := by
  refine ⟨items_by_vertex h, fun v _ => edges_of_ascending h v, h.first, ?_, ?_, h.ends⟩
  · intro v hv
    obtain ⟨i, hi⟩ := h.arranged.sentinel_slot hv
    exact ⟨i, (h.linked i v hi).1, hi⟩
  · intro v hv
    obtain ⟨i, hi⟩ := h.arranged.sentinel_slot hv
    exact ⟨i, (h.linked i (v + 1) hi).2 (Nat.succ_pos v), hi⟩

end

/-! ## The law -/

/-- The last call slides the sentinel in the last slot off the end and back. The window that it
redistributes then is the left half. -/
def slipping : List Call :=
  [.add_edge 1 3 1, .add_edge 1 1 1, .add_edge 0 9 1, .add_edge 0 8 1, .add_edge 0 5 1,
    .remove_edge 0 1, .remove_edge 0 2, .add_edge 0 7 1]

def slipped_pcsr : PCSR where
  N := 32
  items := items_at 32 [(0, sentinel 0), (1, ⟨0, 3, 1⟩), (2, ⟨0, 4, 1⟩), (3, ⟨0, 5, 1⟩), (4, ⟨0, 6, 1⟩),
    (6, ⟨0, 7, 1⟩), (7, ⟨0, 8, 1⟩), (8, ⟨0, 9, 1⟩), (9, ⟨0, 10, 1⟩), (11, ⟨0, 11, 1⟩), (12, ⟨0, 12, 1⟩),
    (13, sentinel 1), (14, ⟨1, 1, 1⟩), (16, ⟨1, 2, 1⟩), (17, ⟨1, 3, 1⟩), (18, ⟨1, 4, 1⟩), (19, ⟨1, 5, 1⟩),
    (20, ⟨1, 6, 1⟩), (21, ⟨1, 7, 1⟩), (22, sentinel 2), (23, ⟨2, 1, 1⟩), (24, ⟨2, 2, 1⟩), (25, ⟨2, 3, 1⟩),
    (26, ⟨2, 4, 1⟩), (27, ⟨2, 5, 1⟩), (28, ⟨2, 6, 1⟩), (29, ⟨2, 9, 1⟩), (30, ⟨2, 10, 1⟩), (31, sentinel 3)]
  nodes := [⟨0, 13, 10⟩, ⟨13, 22, 7⟩, ⟨22, 32, 8⟩, ⟨32, 31, 0⟩]
  versions := [13, 11, 13, 8]
  lock_bsearch := true

theorem slipped_pcsr_reached : Reaches 4 true (fun s _ => s.get_n = 4) slipped_pcsr :=
  crowded_pcsr_reached.runs (by decide : ∀ c ∈ slipping, c.Valid 4) (by decide +kernel)

end packed_csr
