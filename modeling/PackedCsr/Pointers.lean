-- What the moves of sentinels do to the node table of any array: which entries they
-- touch, and when a move back undoes them.
import PackedCsr.Layout
import PackedCsr.Tallies

namespace packed_csr

/-- The sentinel of vertex `v` is among the items. -/
def Marks (c : List Edge) (v : Nat) : Prop := ∃ e ∈ c, is_sentinel e = true ∧ sentinel_vertex e = v

/-- The sentinels among the items are those of vertices below `n`. -/
def Named (n : Nat) (c : List Edge) : Prop := ∀ e ∈ c, is_sentinel e = true → sentinel_vertex e < n

/-- Two sentinels are not of one vertex. -/
def OneVertex (a b : Edge) : Prop :=
  is_sentinel a = true → is_sentinel b = true → sentinel_vertex a ≠ sentinel_vertex b

/-- The node table after `e` moved to `slot`. -/
def repoint (nodes : List Node) (N : Nat) (e : Edge) (slot : Nat) : List Node :=
  if is_sentinel e then point_to nodes N (sentinel_vertex e) slot (e.value == UINT32_MAX) else nodes

section

variable {s : PCSR} {nodes nodes' : List Node} {N v w slot i : Nat} {e : Edge} {S : Nat → Prop}

/-- Only the first vertex has the value `UINT32_MAX`. -/
theorem first_vertex (hf : full e = true) : (e.value == UINT32_MAX) = true ↔ sentinel_vertex e = 0 := by
  have hne := full_iff.mp hf
  unfold sentinel_vertex
  by_cases hv : e.value = UINT32_MAX
  · simp [hv]
  · simp [hv, hne]

theorem repoint_length (nodes : List Node) (N : Nat) (e : Edge) (slot : Nat) :
    (repoint nodes N e slot).length = nodes.length := by
  unfold repoint
  split
  · exact point_to_length _ _ _ _ _
  · rfl

theorem fix_sentinel_repoint (hf : full e = true)
    (hv : is_sentinel e = true → sentinel_vertex e < s.nodes.length) (slot : Nat) :
    fix_sentinel s e slot = .ok { s with nodes := repoint s.nodes s.N e slot } := by
  unfold fix_sentinel repoint
  cases hs : is_sentinel e with
  | false => rfl
  | true =>
    have hne := full_iff.mp hf
    simp [hv hs, hne]

theorem fix_item_repoint (hf : full e = true)
    (hv : is_sentinel e = true → sentinel_vertex e < s.nodes.length) (slot : Nat) :
    fix_item s e slot = .ok { s with nodes := repoint s.nodes s.N e slot } := by
  have hnull : ¬ e.is_null = true := by simpa [full] using hf
  unfold fix_item
  rw [if_neg hnull]
  exact fix_sentinel_repoint hf hv slot

/-! ## The entries that change -/

/-- The entries of the node table that the sentinels of the vertices `S` do not own are as before. -/
structure Retouched (nodes nodes' : List Node) (S : Nat → Prop) : Prop where
  beginning : ∀ w, ¬ S w → nodes'[w]?.map Node.beginning = nodes[w]?.map Node.beginning
  end_ : ∀ w, ¬ S (w + 1) → ¬ (S w ∧ w + 1 = nodes.length) →
    nodes'[w]?.map Node.end_ = nodes[w]?.map Node.end_
  counts : nodes'.map Node.num_neighbors = nodes.map Node.num_neighbors

theorem Retouched.refl (nodes : List Node) (S : Nat → Prop) : Retouched nodes nodes S :=
  ⟨fun _ _ => rfl, fun _ _ _ => rfl, rfl⟩

theorem Retouched.length (h : Retouched nodes nodes' S) : nodes'.length = nodes.length := by
  have := congrArg List.length h.counts
  simpa using this

theorem Retouched.mono {S' : Nat → Prop} (h : Retouched nodes nodes' S) (hS : ∀ v, S v → S' v) :
    Retouched nodes nodes' S' := by
  refine ⟨fun w hw => h.beginning w fun hc => hw (hS w hc), fun w hw hl => ?_, h.counts⟩
  exact h.end_ w (fun hc => hw (hS _ hc)) fun hc => hl ⟨hS w hc.1, hc.2⟩

theorem Retouched.trans {nodes2 : List Node} {S' : Nat → Prop} (h : Retouched nodes nodes' S)
    (h' : Retouched nodes' nodes2 S') : Retouched nodes nodes2 fun v => S v ∨ S' v := by
  have hlen := h.length
  refine ⟨fun w hw => ?_, fun w hw hl => ?_, h'.counts.trans h.counts⟩
  · rw [h'.beginning w (by tauto), h.beginning w (by tauto)]
  · rw [h'.end_ w (by tauto) (by rw [hlen]; tauto), h.end_ w (by tauto) (by tauto)]

/-- A sentinel that moves owns its entries. -/
theorem Retouched.move (h : Retouched nodes nodes' S) (hf : full e = true) (N slot : Nat) :
    Retouched nodes (repoint nodes' N e slot)
      fun v => S v ∨ (is_sentinel e = true ∧ sentinel_vertex e = v) := by
  have hfirst := first_vertex hf
  have hlen := h.length
  unfold repoint
  by_cases hs : is_sentinel e = true
  · rw [if_pos hs]
    refine ⟨fun w hw => ?_, fun w hw hl => ?_, ?_⟩
    · rw [point_to_beginning, if_neg (by tauto)]
      exact h.beginning w (by tauto)
    · rw [point_to_end, if_neg, if_neg]
      · exact h.end_ w (by tauto) (by tauto)
      · intro hc
        have hne : sentinel_vertex e ≠ 0 := by
          intro h0
          rw [hfirst.mpr h0] at hc
          cases hc.1
        exact hw (.inr ⟨hs, by omega⟩)
      · intro hc
        exact hl ⟨.inr ⟨hs, hc.1.symm⟩, by omega⟩
    · rw [point_to_tallies]
      exact h.counts
  · rw [if_neg hs]
    exact h.mono fun v hv => .inl hv

/-- A sentinel that moves back to where the node table had it gives its entries back. -/
theorem Retouched.back (h : Retouched nodes nodes' S) (hf : full e = true)
    (hp : is_sentinel e = true → PointsTo nodes (sentinel_vertex e) slot)
    (hend : ∀ n, nodes[nodes.length - 1]? = some n → n.end_ = N - 1) :
    Retouched nodes (repoint nodes' N e slot)
      fun v => S v ∧ ¬ (is_sentinel e = true ∧ sentinel_vertex e = v) := by
  have hfirst := first_vertex hf
  have hlen := h.length
  unfold repoint
  by_cases hs : is_sentinel e = true
  · rw [if_pos hs]
    obtain ⟨hbeg, hbefore⟩ := hp hs
    have hvlt : sentinel_vertex e < nodes.length := by
      by_contra hc
      rw [List.getElem?_eq_none (by omega)] at hbeg
      cases hbeg
    refine ⟨fun w hw => ?_, fun w hw hl => ?_, ?_⟩
    · rw [point_to_beginning]
      by_cases hwv : w = sentinel_vertex e
      · rw [if_pos hwv, hwv, hbeg, List.getElem?_eq_getElem (by omega)]
        rfl
      · rw [if_neg hwv]
        exact h.beginning w fun hc => hw ⟨hc, fun hv => hwv hv.2.symm⟩
    · rw [point_to_end]
      split
      · -- the last vertex ends where it did
        rename_i hlast
        have hget := List.getElem?_eq_getElem (show w < nodes.length by omega)
        rw [List.getElem?_eq_getElem (by omega), hget, Option.map_some, Option.map_some,
          hend nodes[w] (by rw [← hget]; congr 1; omega)]
      · rename_i hlast
        split
        · rename_i hc
          have hpos : 0 < sentinel_vertex e := by
            rw [Nat.pos_iff_ne_zero]
            intro h0
            rw [hfirst.mpr h0] at hc
            cases hc.1
          rw [hc.2, hbefore hpos, List.getElem?_eq_getElem (by omega)]
          rfl
        · rename_i hc
          have hnext : w + 1 ≠ sentinel_vertex e := by
            intro hv
            apply hc
            refine ⟨?_, by omega⟩
            rw [Bool.eq_false_iff]
            intro h0
            have := hfirst.mp h0
            omega
          apply h.end_ w
          · intro hS
            exact hw ⟨hS, fun hv => hnext hv.2.symm⟩
          · intro hS
            apply hl ⟨⟨hS.1, fun hv => ?_⟩, hS.2⟩
            exact hlast ⟨hv.2.symm, by omega⟩
    · rw [point_to_tallies]
      exact h.counts
  · rw [if_neg hs]
    exact h.mono fun v hv => ⟨hv, fun hc => hs hc.1⟩

/-- Where no sentinel owns an entry, the node table is as before. -/
theorem Retouched.eq (h : Retouched nodes nodes' S) (hS : ∀ v, ¬ S v) : nodes' = nodes := by
  apply List.ext_getElem?
  intro w
  have hb := h.beginning w (hS w)
  have he := h.end_ w (hS _) fun hc => hS w hc.1
  have hc : nodes'[w]?.map Node.num_neighbors = nodes[w]?.map Node.num_neighbors := by
    rw [← List.getElem?_map, ← List.getElem?_map, h.counts]
  cases hn' : nodes'[w]? with
  | none =>
    rw [hn'] at hb
    cases hn : nodes[w]? with
    | none => rfl
    | some n =>
      rw [hn] at hb
      cases hb
  | some n' =>
    rw [hn'] at hb he hc
    cases hn : nodes[w]? with
    | none =>
      rw [hn] at hb
      cases hb
    | some n =>
      rw [hn] at hb he hc
      obtain ⟨b, en, k⟩ := n
      obtain ⟨b', en', k'⟩ := n'
      simp only [Option.map_some, Option.some.injEq] at hb he hc
      rw [hb, he, hc]

/-- The vertex of a sentinel that moved begins at its new slot. -/
theorem repoint_self (hs : is_sentinel e = true) (hf : full e = true)
    (hv : sentinel_vertex e < nodes.length) (N slot : Nat) :
    PointsTo (repoint nodes N e slot) (sentinel_vertex e) slot := by
  unfold repoint
  rw [if_pos hs]
  exact point_to_self hv _ (first_vertex hf)

/-- The other vertices begin where they did. -/
theorem repoint_other (hf : full e = true) (hne : is_sentinel e = true → w ≠ sentinel_vertex e)
    (N slot : Nat) (hw : PointsTo nodes w i) : PointsTo (repoint nodes N e slot) w i := by
  unfold repoint
  split
  · rename_i hs
    exact point_to_other (hne hs) _ (first_vertex hf) hw
  · exact hw

end

end packed_csr
