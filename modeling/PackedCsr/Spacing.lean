-- Where a redistribution puts each item of its window, and what it does to the node
-- table, for any array. The law: it spreads the items evenly, in order, in place.
import PackedCsr.Resize
import PackedCsr.Pointers

namespace packed_csr

/-- The sentinel of `v` is in the slot, as the node table has it. -/
structure Seated (nodes : List Node) (N v slot : Nat) : Prop where
  points : PointsTo nodes v slot
  last : v + 1 = nodes.length → nodes[v]?.map Node.end_ = some (N - 1)

/-- The items `es` stand in the slots that the third loop computes for them, and the other slots of
the window are null. -/
structure Spaced (items items' : List Edge) (index len : Nat) (es : List Edge) : Prop where
  length : items'.length = items.length
  outside : ∀ i, ¬ (index ≤ i ∧ i < index + len) → items'[i]? = items[i]?
  placed : ∀ k < es.length, items'[spread_slot index len es.length k]? = es[k]?
  clear : ∀ i, index ≤ i → i < index + len → (∀ k < es.length, i ≠ spread_slot index len es.length k) →
    items'[i]? = some null_edge

/-- The third loop has still to move the items `k` down to `1`. -/
structure Spacing (items items' : List Edge) (index len : Nat) (es : List Edge) (k : Nat) : Prop where
  length : items'.length = items.length
  outside : ∀ i, ¬ (index ≤ i ∧ i < index + len) → items'[i]? = items[i]?
  front : ∀ t ≤ k, items'[index + t]? = es[t]?
  placed : ∀ k' < es.length, k < k' → items'[spread_slot index len es.length k']? = es[k']?
  clear : ∀ i, index + k < i → i < index + len →
    (∀ k' < es.length, k < k' → i ≠ spread_slot index len es.length k') → items'[i]? = some null_edge

section

variable {s : PCSR} {items xs : List Edge} {es : List Edge} {nodes : List Node} {index len k N v w slot i : Nat}
variable {e : Edge}

/-! ## The node table -/

theorem Seated.self (hs : is_sentinel e = true) (hf : full e = true)
    (hv : sentinel_vertex e < nodes.length) (N slot : Nat) :
    Seated (repoint nodes N e slot) N (sentinel_vertex e) slot := by
  refine ⟨repoint_self hs hf hv N slot, ?_⟩
  rw [repoint_length]
  intro hl
  unfold repoint
  rw [if_pos hs, point_to_end, if_pos ⟨rfl, hl⟩, List.getElem?_eq_getElem hv]
  rfl

theorem Seated.other (hf : full e = true) (hv : is_sentinel e = true → sentinel_vertex e < nodes.length)
    (hne : is_sentinel e = true → w ≠ sentinel_vertex e) (slot : Nat) (h : Seated nodes N w i) : Seated (repoint nodes N e slot) N w i := by
  refine ⟨repoint_other hf hne N slot h.points, ?_⟩
  rw [repoint_length]
  intro hl
  have hend := h.last hl
  unfold repoint
  split
  · rename_i hs
    rw [point_to_end, if_neg fun hc => hne hs hc.1]
    split
    · -- the next sentinel would be of a vertex behind the last one
      rename_i hc
      have hpos : sentinel_vertex e ≠ 0 := by
        intro h0
        rw [(first_vertex hf).mpr h0] at hc
        cases hc.1
      have := hv hs
      omega
    · exact hend
  · exact hend

/-! ## The slots -/

theorem spread_slot_strict (index : Nat) {j : Nat} (hj : 0 < j) (hle : j ≤ len) :
    StrictMono (spread_slot index len j) :=
  strictMono_nat_of_lt_succ fun k => spread_slot_lt_succ index k hj hle

theorem spread_slot_zero (index len j : Nat) : spread_slot index len j 0 = index := by
  simp [spread_slot]

/-- One round of the third loop. -/
theorem Spacing.step (h : Spacing items xs index len es (k + 1)) (hk : k + 1 < es.length)
    (hle : es.length ≤ len) (hin : index + len ≤ items.length) :
    Spacing items ((xs.set (index + (k + 1)) (xs.getD (spread_slot index len es.length (k + 1)) null_edge)).set
      (spread_slot index len es.length (k + 1)) (xs.getD (index + (k + 1)) null_edge)) index len es k := by
  have hpos : 0 < es.length := by omega
  have hlen : xs.length = items.length := h.length
  have hge := spread_slot_ge index (k + 1) hpos hle
  have hlt := spread_slot_lt index (k + 1) hk (by omega : 0 < len)
  have hmono := spread_slot_strict index hpos hle
  -- the slot holds the item itself, or it is null
  have hother : spread_slot index len es.length (k + 1) = index + (k + 1) ∨
      xs[spread_slot index len es.length (k + 1)]? = some null_edge := by
    rcases Nat.eq_or_lt_of_le hge with heq | hgt
    · exact .inl heq.symm
    · right
      apply h.clear _ hgt hlt
      intro k' _ hkk' hc
      have := hmono hkk'
      omega
  have hmoved : xs[index + (k + 1)]? = es[k + 1]? := h.front (k + 1) (le_refl _)
  generalize hslot : spread_slot index len es.length (k + 1) = slot at *
  have hgetc : es[k + 1]? = some es[k + 1] := List.getElem?_eq_getElem hk
  have hget : xs.getD (index + (k + 1)) null_edge = es[k + 1] := by
    rw [List.getD_eq_getElem?_getD, hmoved, hgetc]
    rfl
  rw [hget]
  refine ⟨by simpa using hlen, ?_, ?_, ?_, ?_⟩
  · intro i hi
    rw [List.getElem?_set_ne (by omega), List.getElem?_set_ne (by omega)]
    exact h.outside i hi
  · intro t ht
    rw [List.getElem?_set_ne (by omega), List.getElem?_set_ne (by omega)]
    exact h.front t (by omega)
  · intro k' hk' hkk'
    by_cases hcase : k' = k + 1
    · rw [hcase, hslot, List.getElem?_set_self (by rw [List.length_set]; omega), hgetc]
    · have hgt := hmono (show k + 1 < k' by omega)
      rw [List.getElem?_set_ne (by omega), List.getElem?_set_ne (by omega)]
      exact h.placed k' hk' (by omega)
  · intro i hi hi' hno
    have hne : i ≠ slot := by
      rw [← hslot]
      exact hno (k + 1) hk (by omega)
    rw [List.getElem?_set_ne (Ne.symm hne)]
    by_cases hik : i = index + (k + 1)
    · rw [hik, List.getElem?_set_self (by omega)]
      rcases hother with heq | hnull
      · exact absurd (hik.trans heq.symm) hne
      · rw [List.getD_eq_getElem?_getD, hnull]
        rfl
    · rw [List.getElem?_set_ne (Ne.symm hik)]
      exact h.clear i (by omega) hi' fun k' hk' hkk' => hno k' hk' (by omega)

/-- The third loop. -/
theorem spread_loop_spaces (h : Spacing items s.items index len es k) (hk : k < es.length)
    (hle : es.length ≤ len) (hin : index + len ≤ items.length) (hfull : ∀ e ∈ es, full e = true)
    (hone : es.Pairwise OneVertex) (hnamed : Named s.nodes.length es) :
    ∃ s', spread_loop index len es.length k s = .ok s' ∧ SameFrame s s' ∧
      Spacing items s'.items index len es 0 ∧ Retouched s.nodes s'.nodes (Marks es) ∧
      (∀ (k' : Nat) (e : Edge), 0 < k' → k' ≤ k → es[k']? = some e → is_sentinel e = true →
        Seated s'.nodes s.N (sentinel_vertex e) (spread_slot index len es.length k')) ∧
      ∀ v slot, (∀ (k' : Nat) (e : Edge), 0 < k' → k' ≤ k → es[k']? = some e → is_sentinel e = true →
        v ≠ sentinel_vertex e) → Seated s.nodes s.N v slot → Seated s'.nodes s.N v slot := by
  induction k generalizing s with
  | zero =>
    refine ⟨s, rfl, SameFrame.refl s, h, Retouched.refl _ _, ?_, fun v slot _ hs => hs⟩
    intro k' e hpos hle'
    omega
  | succ k ih =>
    have hget : es[k + 1]? = some es[k + 1] := List.getElem?_eq_getElem hk
    have hmem : es[k + 1] ∈ es := List.getElem_mem hk
    have hstep := h.step hk hle hin
    have hread : s.items.getD (index + (k + 1)) null_edge = es[k + 1] := by
      rw [List.getD_eq_getElem?_getD, h.front (k + 1) (le_refl _), hget]
      rfl
    rw [hread] at hstep
    generalize hys : (s.items.set (index + (k + 1))
      (s.items.getD (spread_slot index len es.length (k + 1)) null_edge)).set
        (spread_slot index len es.length (k + 1)) es[k + 1] = ys at hstep
    have hfix := fix_sentinel_repoint (s := { s with items := ys }) (hfull _ hmem) (hnamed _ hmem)
      (spread_slot index len es.length (k + 1))
    have hframe : SameFrame s { s with
        items := ys
        nodes := repoint s.nodes s.N es[k + 1] (spread_slot index len es.length (k + 1)) } :=
      ⟨rfl, hstep.length.trans h.length.symm, repoint_length _ _ _ _, rfl, rfl⟩
    obtain ⟨s', hrun, hframe', hspaced, htouch, hseated, hkeep⟩ :=
      ih (s := { s with
        items := ys
        nodes := repoint s.nodes s.N es[k + 1] (spread_slot index len es.length (k + 1)) })
        hstep (by omega) (by rw [show (repoint _ _ _ _).length = _ from repoint_length _ _ _ _]; exact hnamed)
    refine ⟨s', ?_, hframe.trans hframe', hspaced, ?_, ?_, ?_⟩
    · unfold spread_loop
      dsimp only
      rw [hread, hys, hfix]
      exact hrun
    · have hmove := ((Retouched.refl s.nodes fun _ => False).move (hfull _ hmem) s.N
        (spread_slot index len es.length (k + 1))).trans htouch
      apply hmove.mono
      rintro v ((hv | hv) | hv)
      · exact hv.elim
      · exact ⟨_, hmem, hv⟩
      · exact hv
    · intro k' e hpos hle' he hs
      rcases Nat.eq_or_lt_of_le hle' with rfl | hlt
      · rw [hget] at he
        cases he
        apply hkeep
        · intro k'' e' _ hk'' he' hs'
          obtain ⟨hlt'', rfl⟩ := List.getElem?_eq_some_iff.mp he'
          exact (List.pairwise_iff_getElem.mp hone k'' (k + 1) hlt'' hk (by omega) hs' hs).symm
        · exact Seated.self hs (hfull _ hmem) (hnamed _ hmem hs) s.N _
      · exact hseated k' e hpos (by omega) he hs
    · intro v slot hno hv
      apply hkeep v slot fun k' e hpos hle' => hno k' e hpos (by omega)
      exact hv.other (hfull _ hmem) (hnamed _ hmem) (fun hs => hno (k + 1) _ (by omega) (le_refl _) hget hs) _

/-- Items in the slots of a rising sequence, and nothing else, are the items of the list. -/
theorem filter_of_slots {f : Nat → Nat} (hmono : StrictMono f) (hfull : ∀ e ∈ es, full e = true)
    (hat : ∀ k < es.length, xs[f k]? = es[k]?)
    (hclear : ∀ (i : Nat) (e : Edge), (∀ k < es.length, i ≠ f k) → xs[i]? = some e → full e = false) :
    xs.filter full = es := by
  induction es using List.reverseRecOn generalizing xs with
  | nil =>
    apply filter_holes
    intro e he
    obtain ⟨i, hi⟩ := List.mem_iff_getElem?.mp he
    exact hclear i e (by simp) hi
  | append_singleton es x ih =>
    have hx : xs[f es.length]? = some x := by
      rw [hat es.length (by simp)]
      simp
    have hlt := (List.getElem?_eq_some_iff.mp hx).1
    have hfront : (xs.take (f es.length)).filter full = es := by
      apply ih (fun e he => hfull e (List.mem_append_left _ he))
      · intro k hk
        rw [List.getElem?_take, if_pos (hmono hk), hat k (by simp; omega),
          List.getElem?_append_left hk]
      · intro i e hno he
        rw [List.getElem?_take] at he
        split at he
        · rename_i hi
          apply hclear i e _ he
          intro k hk
          rcases Nat.lt_or_ge k es.length with hkc | hkc
          · exact hno k hkc
          · rw [show k = es.length by simp at hk; omega]
            omega
        · cases he
    have hback : (xs.drop (f es.length + 1)).filter full = [] := by
      apply filter_holes
      intro e he
      obtain ⟨i, hi⟩ := List.mem_iff_getElem?.mp he
      rw [List.getElem?_drop] at hi
      apply hclear _ e _ hi
      intro k hk
      have := hmono.monotone (show k ≤ es.length by simp at hk; omega)
      omega
    rw [split_at hx, List.filter_append, hfront, List.filter_cons_of_pos (hfull x (by simp)), hback]

theorem Spaced.filter (h : Spaced items xs index len es) (hc : es ≠ []) (hle : es.length ≤ len)
    (hfull : ∀ e ∈ es, full e = true) :
    ((xs.drop index).take len).filter full = es := by
  have hpos := List.length_pos_iff.mpr hc
  have hlen := h.length
  have hmono := spread_slot_strict index hpos hle
  apply filter_of_slots (f := fun k => spread_slot index len es.length k - index)
  · intro a b hab
    have ha := spread_slot_ge index a hpos hle
    have := hmono hab
    dsimp only
    omega
  · exact hfull
  · intro k hk
    have hge := spread_slot_ge index k hpos hle
    have hlt := spread_slot_lt index k hk (by omega : 0 < len)
    rw [List.getElem?_take, if_pos (by omega), List.getElem?_drop, Nat.add_sub_cancel' (by omega)]
    exact h.placed k hk
  · intro i e hno he
    rw [List.getElem?_take] at he
    split at he
    · rename_i hi
      rw [List.getElem?_drop, h.clear (index + i) (by omega) (by omega) fun k hk hc => hno k hk (by omega)]
        at he
      cases he
      rfl
    · cases he

/-- The packed items, before the third loop. -/
theorem spacing_start {items xs A W B : List Edge} {g : Nat} (hitems : items = A ++ (W ++ B))
    (hlen : (W.filter full).length + g = W.length)
    (hxs : xs = A ++ (W.filter full ++ (List.replicate g null_edge ++ B)))
    (hne : W.filter full ≠ []) :
    Spacing items xs A.length W.length (W.filter full) ((W.filter full).length - 1) := by
  have hpos := List.length_pos_iff.mpr hne
  refine ⟨?_, ?_, ?_, ?_, ?_⟩
  · rw [hxs, hitems]
    simp only [List.length_append, List.length_replicate]
    omega
  · intro i hi
    rw [hxs, hitems]
    rcases Nat.lt_or_ge i A.length with hlt | hge
    · rw [List.getElem?_append_left hlt, List.getElem?_append_left hlt]
    · rw [List.getElem?_append_right hge, List.getElem?_append_right hge,
        List.getElem?_append_right (by omega), List.getElem?_append_right (by simp; omega),
        List.getElem?_append_right (by omega)]
      congr 1
      simp only [List.length_replicate]
      omega
  · intro t ht
    rw [hxs, List.getElem?_append_right (by omega), Nat.add_sub_cancel_left,
      List.getElem?_append_left (by omega)]
  · intro k hk hk'
    omega
  · intro i hi hi' _
    rw [hxs, List.getElem?_append_right (by omega), List.getElem?_append_right (by omega),
      List.getElem?_append_left (by simp; omega), List.getElem?_replicate, if_pos (by omega)]

/-- What a redistribution does, whatever the array holds. -/
theorem redistribute_spaces {A W B : List Edge} (hitems : s.items = A ++ (W ++ B)) (hW : W ≠ [])
    (hpos : A.length ≠ 0 ∨ W.filter full ≠ []) (hone : (W.filter full).Pairwise OneVertex)
    (hnamed : Named s.nodes.length (W.filter full)) :
    ∃ s', redistribute s A.length W.length = .ok s' ∧ SameFrame s s' ∧
      Spaced s.items s'.items A.length W.length (W.filter full) ∧
      Retouched s.nodes s'.nodes (Marks (W.filter full)) ∧
      ∀ (k : Nat) (e : Edge), (W.filter full)[k]? = some e → is_sentinel e = true →
        Seated s'.nodes s.N (sentinel_vertex e)
          (spread_slot A.length W.length (W.filter full).length k) := by
  obtain ⟨g, s1, hlen, hframe, hnodes, hitems1, hrun⟩ := redistribute_packed hitems hpos
  have hWpos : 0 < W.length := List.length_pos_of_ne_nil hW
  have hfull : ∀ e ∈ W.filter full, full e = true := fun e he => (List.mem_filter.mp he).2
  have hin : A.length + W.length ≤ s.items.length := by
    rw [hitems]
    simp
  rw [hrun]
  by_cases hne : W.filter full = []
  · -- the window is null, and the last fix reads a null slot
    obtain ⟨m, rfl⟩ : ∃ m, g = m + 1 := ⟨g - 1, by simp [hne] at hlen; omega⟩
    rw [hne] at hitems1 hlen ⊢
    have hget : s1.items.getD A.length null_edge = null_edge := by
      rw [hitems1, List.replicate_succ]
      simp
    refine ⟨s1, ?_, hframe, ⟨hframe.items, ?_, by simp, ?_⟩, ?_, by simp⟩
    · show fix_sentinel s1 (s1.items.getD A.length null_edge) A.length = .ok s1
      rw [hget]
      rfl
    · intro i hi
      rw [hitems1, hitems]
      rcases Nat.lt_or_ge i A.length with hlt | hge
      · rw [List.getElem?_append_left hlt, List.getElem?_append_left hlt]
      · rw [List.getElem?_append_right hge, List.getElem?_append_right hge, List.nil_append,
          List.getElem?_append_right (by simp at hlen ⊢; omega), List.getElem?_append_right (by omega)]
        congr 1
        simp at hlen ⊢
        omega
    · intro i hi hi' _
      rw [hitems1, List.getElem?_append_right hi, List.nil_append,
        List.getElem?_append_left (by simp at hlen ⊢; omega), List.getElem?_replicate,
        if_pos (by simp at hlen; omega)]
    · rw [hnodes]
      exact Retouched.refl _ _
  · have hcount := List.length_pos_iff.mpr hne
    have hstart := spacing_start hitems hlen hitems1 hne
    obtain ⟨s2, hloop, hframe2, hspaced, htouch, hseated, hkeep⟩ :=
      spread_loop_spaces hstart (by omega) (by omega) hin hfull hone (by rw [hnodes]; exact hnamed)
    -- the first item stays where it is, and its pointers are fixed last
    have hfirst : s2.items[A.length]? = (W.filter full)[0]? := hspaced.front 0 (le_refl 0)
    have hget : (W.filter full)[0]? = some (W.filter full)[0] := List.getElem?_eq_getElem hcount
    have hmem : (W.filter full)[0] ∈ W.filter full := List.getElem_mem hcount
    have hread : s2.items.getD A.length null_edge = (W.filter full)[0] := by
      rw [List.getD_eq_getElem?_getD, hfirst, hget]
      rfl
    have hnamed2 : Named s2.nodes.length (W.filter full) := by
      rw [show s2.nodes.length = s1.nodes.length from hframe2.nodes, hnodes]
      exact hnamed
    have hfix := fix_sentinel_repoint (s := s2) (hfull _ hmem) (hnamed2 _ hmem) A.length
    have hN : s2.N = s.N := hframe2.N.trans hframe.N
    refine ⟨{ s2 with nodes := repoint s2.nodes s2.N (W.filter full)[0] A.length }, ?_, ?_, ?_, ?_, ?_⟩
    · show (spread_loop A.length W.length (W.filter full).length ((W.filter full).length - 1) s1 >>=
        fun s => fix_sentinel s (s.items.getD A.length null_edge) A.length) = _
      rw [hloop]
      show fix_sentinel s2 (s2.items.getD A.length null_edge) A.length = _
      rw [hread]
      exact hfix
    · exact (hframe.trans hframe2).trans ⟨rfl, rfl, repoint_length _ _ _ _, rfl, rfl⟩
    · refine ⟨hspaced.length, hspaced.outside, ?_, ?_⟩
      · intro k hk
        rcases Nat.eq_zero_or_pos k with rfl | hkpos
        · rw [spread_slot_zero]
          exact hfirst
        · exact hspaced.placed k hk hkpos
      · intro i hi hi' hno
        have h0 := hno 0 hcount
        rw [spread_slot_zero] at h0
        exact hspaced.clear i (by omega) hi' fun k hk _ => hno k hk
    · rw [hnodes] at htouch
      apply (htouch.move (hfull _ hmem) s2.N A.length).mono
      rintro v (hv | hv)
      · exact hv
      · exact ⟨_, hmem, hv⟩
    · intro k e he hs
      rw [hN]
      rcases Nat.eq_zero_or_pos k with rfl | hkpos
      · rw [hget] at he
        cases he
        rw [spread_slot_zero]
        exact Seated.self hs (hfull _ hmem) (hnamed2 _ hmem hs) s.N A.length
      · obtain ⟨hklt, hke⟩ := List.getElem?_eq_some_iff.mp he
        have hset := hseated k e hkpos (by omega) he hs
        rw [hframe.N] at hset
        apply hset.other (hfull _ hmem) (hnamed2 _ hmem)
        intro hs0
        rw [← hke]
        exact (List.pairwise_iff_getElem.mp hone 0 k hcount hklt hkpos hs0 (by rw [hke]; exact hs)).symm

theorem Itemized.one_vertex {n : Nat} {c : List Edge} (h : Itemized n c) (hn : n ≤ UINT32_MAX) :
    c.Pairwise OneVertex ∧ Named n c := by
  have hvertex : ∀ a ∈ c, is_sentinel a = true → a = sentinel a.src ∧ sentinel_vertex a = a.src ∧ a.src < n := by
    intro a ha hs
    have hitem := h.items a ha
    have heq := hitem.sentinel_iff.mp hs
    refine ⟨heq, ?_, hitem.src_lt⟩
    rw [heq, sentinel_vertex_sentinel (hitem.src_lt.trans_le hn), sentinel_src]
  constructor
  · apply h.once.imp_of_mem
    intro a b ha hb hab hsa hsb hv
    obtain ⟨hea, hva, -⟩ := hvertex a ha hsa
    obtain ⟨heb, hvb, -⟩ := hvertex b hb hsb
    apply hab hsa
    rw [hea, heb, ← hva, ← hvb, hv]
  · intro a ha hs
    obtain ⟨-, hv, hlt⟩ := hvertex a ha hs
    rw [hv]
    exact hlt

/-! ## The halved array -/

/-- The items stand in the slots that a redistribution of the whole array gives them. -/
structure EvenlySpaced (s : PCSR) : Prop where
  placed : ∀ (k : Nat) (x : Edge), (s.items.filter full)[k]? = some x →
    s.items[spread_slot 0 s.N (s.items.filter full).length k]? = some x
  clear : ∀ i < s.N, (∀ k < (s.items.filter full).length,
    i ≠ spread_slot 0 s.N (s.items.filter full).length k) → s.items[i]? = some null_edge

/-- A halved array is evenly spaced, and the versions of its leaves are those of the first leaves. -/
theorem half_list_spaces {s' : PCSR} (hw : WellFormed s) (hN : 2 ≤ s.N)
    (hfit : (s.items.filter full).length ≤ s.N / 2) (h : exec half_list s = .ok ((), s')) :
    EvenlySpaced s' ∧ s'.versions = s.versions.take (s'.N / logN s'.N) := by
  obtain ⟨items, hitems, hlen, hfilter⟩ := half_items_spec hw.sized hN hfit
  have hfinish := half_list_ok h
  rw [hitems] at hfinish
  unfold half_finish at hfinish
  dsimp only at hfinish
  generalize ht : ({ s with
    N := s.N / 2
    items := items.take (s.N / 2)
    versions := s.versions.take (s.N / 2 / logN (s.N / 2)) } : PCSR) = t at hfinish
  have htitems : t.items = items.take (s.N / 2) := by rw [← ht]
  have htlen : t.items.length = s.N / 2 := by
    rw [htitems, List.length_take, hlen]
    omega
  have htnodes : t.nodes = s.nodes := by rw [← ht]
  obtain ⟨hone, hnamed⟩ := hw.arranged.itemized.one_vertex hw.n_le
  rw [← hfilter, ← htitems] at hone hnamed
  have hmem : sentinel 0 ∈ t.items.filter full := by
    rw [htitems, hfilter]
    exact hw.arranged.sentinels 0 hw.n_pos
  have hne : t.items.filter full ≠ [] := List.ne_nil_of_mem hmem
  obtain ⟨s1, hrun, hframe, hspaced, -, -⟩ := redistribute_spaces (s := t) (A := []) (B := [])
    (W := t.items) (by simp) (fun hnil => by rw [hnil] at hmem; cases hmem) (.inr hne) hone
    (by rw [htnodes]; exact hnamed)
  rw [List.length_nil, htlen] at hrun hspaced
  cases hrun.symm.trans hfinish
  have hfull : ∀ e ∈ t.items.filter full, full e = true := fun e he => (List.mem_filter.mp he).2
  have hle := List.length_filter_le full t.items
  have hcontents := hspaced.filter hne (by rw [← htlen]; exact hle) hfull
  have hN' : s'.N = s.N / 2 := by
    rw [hframe.N, ← ht]
  rw [List.drop_zero, List.take_of_length_le (by rw [hframe.items, htlen])] at hcontents
  refine ⟨⟨?_, ?_⟩, ?_⟩
  · intro k x hx
    rw [hcontents] at hx ⊢
    rw [hN', hspaced.placed k (List.getElem?_eq_some_iff.mp hx).1]
    exact hx
  · rw [hcontents, hN']
    intro i hi hno
    exact hspaced.clear i (Nat.zero_le i) (by omega) hno
  · rw [hframe.versions, hN', ← ht]

end

/-! ## The law -/

/-- A redistribution of a window that holds an item, or does not start the array, ends. It keeps the
items of the window in order, spreads them evenly, and nulls the other slots of the window; each
sentinel of the window gets its pointers, and nothing else changes. -/
theorem a_redistribution_spreads_its_window (s : PCSR) (index len : Nat)
    (hin : index + len ≤ s.items.length) (es : List Edge)
    (hes : ((s.items.drop index).take len).filter full = es)
    (hpos : 1 ≤ es.length ∨ (es = [] ∧ 0 < index ∧ 0 < len)) (hone : es.Pairwise OneVertex)
    (hnamed : Named s.get_n es) :
    ∃ s', redistribute s index len = .ok s' ∧ s'.items.length = s.items.length ∧
      (∀ i, ¬ (index ≤ i ∧ i < index + len) → s'.items[i]? = s.items[i]?) ∧
      ((s'.items.drop index).take len).filter full = es ∧
      (∀ k < es.length, s'.items[index + k * len / es.length]? = es[k]?) ∧
      (∀ i, index ≤ i → i < index + len → (∀ k < es.length, i ≠ index + k * len / es.length) →
        s'.items[i]? = some null_edge) ∧
      (es.length < len → s'.items[index + len - 1]? = some null_edge) ∧
      -- the node table
      s'.get_n = s.get_n ∧
      (∀ (k : Nat) (e : Edge), es[k]? = some e → is_sentinel e = true →
        s'.nodes[sentinel_vertex e]?.map Node.beginning = some (index + k * len / es.length) ∧
        (0 < sentinel_vertex e → s'.nodes[sentinel_vertex e - 1]?.map Node.end_ =
          some (index + k * len / es.length)) ∧
        (sentinel_vertex e + 1 = s.get_n →
          s'.nodes[sentinel_vertex e]?.map Node.end_ = some (s.N - 1))) ∧
      (∀ v, ¬ Marks es v → s'.nodes[v]?.map Node.beginning = s.nodes[v]?.map Node.beginning) ∧
      (∀ v, ¬ Marks es (v + 1) → ¬ (Marks es v ∧ v + 1 = s.get_n) →
        s'.nodes[v]?.map Node.end_ = s.nodes[v]?.map Node.end_) ∧
      s'.nodes.map Node.num_neighbors = s.nodes.map Node.num_neighbors ∧
      s'.N = s.N ∧ s'.versions = s.versions ∧ s'.lock_bsearch = s.lock_bsearch := by
  obtain ⟨A, W, B, hitems, rfl, rfl⟩ := cut_window hin
  have hwindow : (s.items.drop A.length).take W.length = W := by
    rw [hitems, List.drop_left, List.take_left]
  rw [hwindow] at hes
  subst hes
  have hW : W ≠ [] := by
    rintro rfl
    rcases hpos with h | ⟨-, -, h⟩
    · simp at h
    · cases h
  have hpos' : A.length ≠ 0 ∨ W.filter full ≠ [] := by
    rcases hpos with h | ⟨-, h, -⟩
    · exact .inr (List.length_pos_iff.mp h)
    · exact .inl (by omega)
  obtain ⟨s', hrun, hframe, hspaced, htouch, hseated⟩ :=
    redistribute_spaces hitems hW hpos' hone hnamed
  have hfull : ∀ e ∈ W.filter full, full e = true := fun e he => (List.mem_filter.mp he).2
  have hle := List.length_filter_le full W
  have hWpos : 0 < W.length := List.length_pos_of_ne_nil hW
  refine ⟨s', hrun, hframe.items, hspaced.outside, ?_, hspaced.placed, hspaced.clear, ?_, hframe.nodes,
    ?_, htouch.beginning, htouch.end_, htouch.counts, hframe.N, hframe.versions, hframe.lock_bsearch⟩
  · by_cases hne : W.filter full = []
    · rw [hne] at hspaced ⊢
      apply filter_holes
      intro e he
      obtain ⟨i, hi⟩ := List.mem_iff_getElem?.mp he
      rw [List.getElem?_take] at hi
      split at hi
      · rw [List.getElem?_drop, hspaced.clear _ (by omega) (by omega) (by simp)] at hi
        cases hi
        rfl
      · cases hi
    · exact hspaced.filter hne hle hfull
  · intro hlt
    apply hspaced.clear _ (by omega) (by omega)
    intro k hk
    obtain ⟨m, hm⟩ : ∃ m, (W.filter full).length = m + 1 := ⟨_, (Nat.succ_pred_eq_of_pos (by omega)).symm⟩
    have hmono := (spread_slot_strict A.length (by omega : 0 < (W.filter full).length) hle).monotone
      (show k ≤ m by omega)
    rw [hm] at hmono hlt ⊢
    have := spread_slot_lt_last A.length hlt
    omega
  · intro k e he hs
    obtain ⟨hpoints, hlast⟩ := hseated k e he hs
    refine ⟨hpoints.1, hpoints.2, fun hv => hlast ?_⟩
    rw [show s'.nodes.length = s.nodes.length from hframe.nodes]
    exact hv

/-- A window of four slots behind the first leaf, with the sentinels of vertices 1 and 2. -/
theorem a_redistribution_spreads_two_sentinels : ∃ s',
    redistribute ⟨8, [sentinel 0, null_edge, null_edge, null_edge, null_edge, sentinel 1, ⟨1, 7, 5⟩, sentinel 2],
      [⟨0, 5, 0⟩, ⟨5, 7, 1⟩, ⟨7, 7, 0⟩], [0, 0], true⟩ 4 4 = .ok s' ∧
      s'.items[5]? = some ⟨1, 7, 5⟩ ∧ s'.items[7]? = some null_edge := by
  obtain ⟨s', hrun, -, -, -, hplaced, -, hlast, -⟩ := a_redistribution_spreads_its_window
    ⟨8, [sentinel 0, null_edge, null_edge, null_edge, null_edge, sentinel 1, ⟨1, 7, 5⟩, sentinel 2],
      [⟨0, 5, 0⟩, ⟨5, 7, 1⟩, ⟨7, 7, 0⟩], [0, 0], true⟩ 4 4 (by decide)
    [sentinel 1, ⟨1, 7, 5⟩, sentinel 2] (by decide) (.inl (by decide))
    (by unfold OneVertex; decide) (by unfold Named; decide)
  exact ⟨s', hrun, hplaced 1 (by decide), hlast (by decide)⟩

end packed_csr
