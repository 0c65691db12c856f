-- The two slides: a run of items moves by one slot into the next gap, and the
-- node table follows it.
import PackedCsr.Spread

namespace packed_csr

/-! ## One write -/

/-- What a slide may have in hand: an item, or what a gap holds. -/
def InHand (n : Nat) (e : Edge) : Prop := full e = false ∨ IsItem n e

theorem fix_item_spec {s : PCSR} {e : Edge} {slot : Nat} (hn : s.get_n ≤ UINT32_MAX)
    (hitem : InHand s.get_n e) (hslot : s.items[slot]? = some e) (hd : Distinct s.items) :
    ∃ s', fix_item s e slot = .ok s' ∧ SameFrame s s' ∧ s'.items = s.items ∧
      LinkedAt s' slot ∧ (∀ i, LinkedAt s i → LinkedAt s' i) ∧
      (EndsAt s.nodes s.N → EndsAt s'.nodes s'.N) := by
  unfold fix_item
  rcases hitem with hhole | hitem
  · have hnull : e.is_null = true := by simpa [full] using hhole
    rw [if_pos hnull]
    refine ⟨s, rfl, SameFrame.refl s, rfl, ?_, fun i hi => hi, fun h => h⟩
    intro v hv
    rw [hslot] at hv
    cases hv
    simp at hhole
  · have hnull : ¬ e.is_null = true := by
      have := hitem.full
      simpa [full] using this
    rw [if_neg hnull]
    obtain ⟨s', hrun, hframe, hitems, hlink, hkeep, hends⟩ := fix_sentinel_spec hn hitem hslot hd
    exact ⟨s', hrun, hframe, hitems, hlink, hkeep, fun h => hends (.inl h)⟩

/-- The node table is fixed before or behind a write to a slot, as one likes. -/
theorem fix_item_put {s t t' : PCSR} {e : Edge} {i slot : Nat} {x : Edge} (hput : s.put i x = .ok t)
    (hfix : fix_item t e slot = .ok t') : ∃ u, fix_item s e slot = .ok u ∧ u.put i x = .ok t' := by
  obtain ⟨hi, rfl⟩ := put_ok hput
  unfold fix_item at hfix ⊢
  split at hfix
  · rename_i hnull
    rw [if_pos hnull]
    cases hfix
    exact ⟨s, rfl, hput⟩
  · rename_i hnull
    rw [if_neg hnull]
    rcases fix_sentinel_ok hfix with ⟨hs, rfl⟩ | ⟨hs, hv, hne, rfl⟩
    · refine ⟨s, ?_, hput⟩
      simp [fix_sentinel, hs]
    · have hrun : fix_sentinel s e slot = .ok { s with
          nodes := point_to s.nodes s.N (sentinel_vertex e) slot (e.value == UINT32_MAX) } := by
        unfold fix_sentinel
        rw [if_neg (by simp [hs]), if_pos ⟨hv, hne⟩]
      exact ⟨_, hrun, put_of_lt x hi⟩

/-- The item in hand goes to the slot of `y`, where it fits in order, and the node table is
fixed for it. -/
theorem settle {s : PCSR} {P Q : List Edge} {y el : Edge} (ht : Tidy s)
    (hitems : s.items = P ++ y :: Q) (hel : InHand s.get_n el)
    (hsorted : ((P ++ el :: Q).filter full).Pairwise Before) :
    ∃ s1 s2, s.put P.length el = .ok s1 ∧ fix_item s1 el P.length = .ok s2 ∧ SameFrame s s2 ∧
      s2.items = P ++ el :: Q ∧ Tidy s2 ∧ (EndsAt s.nodes s.N → EndsAt s2.nodes s2.N) := by
  have hi : P.length < s.items.length := by
    rw [hitems]
    simp
  have hput := put_of_lt el hi
  generalize hs1 : ({ s with items := s.items.set P.length el } : PCSR) = s1 at hput
  have hs1i : s1.items = P ++ el :: Q := by
    rw [← hs1, hitems]
    exact set_mid P Q y el
  have hs1n : s1.nodes = s.nodes := by rw [← hs1]
  have hs1N : s1.N = s.N := by rw [← hs1]
  have hframe := put_frame hput
  have hget_n : s1.get_n = s.get_n := hframe.nodes
  have hslot : s1.items[P.length]? = some el := by
    rw [hs1i]
    simp
  have hdist : Distinct s1.items := by
    rw [hs1i]
    exact sorted_distinct hsorted
  obtain ⟨s2, hfix, hframe2, hitems2, hlink2, hkeep2, hends2⟩ :=
    fix_item_spec (by rw [hget_n]; exact ht.n_le) (by rw [hget_n]; exact hel) hslot hdist
  have hget2 : s2.get_n = s.get_n := hframe2.nodes.trans hget_n
  refine ⟨s1, s2, hput, hfix, hframe.trans hframe2, hitems2.trans hs1i, ?_, ?_⟩
  · refine ⟨by rw [hget2]; exact ht.n_le, by rw [hitems2, hs1i]; exact hsorted, ?_, ?_⟩
    · intro e he hf
      rw [hget2]
      rw [hitems2, hs1i] at he
      by_cases heel : e = el
      · subst heel
        rcases hel with hel | hel
        · rw [hel] at hf
          cases hf
        · exact hel
      · apply ht.items e _ hf
        rw [hitems]
        simp [heel] at he ⊢
        tauto
    · intro j
      by_cases hj : j = P.length
      · rw [hj]
        exact hlink2
      · apply hkeep2
        intro v hv
        rw [hs1n]
        rw [← hs1] at hv
        simp only at hv
        rw [List.getElem?_set_ne (Ne.symm hj)] at hv
        exact ht.linked j v hv
  · intro h
    apply hends2
    rw [hs1n, hs1N]
    exact h

/-- As `settle`, with the two steps in the order in which a slide ends. -/
theorem settle_last {s : PCSR} {P Q : List Edge} {y el : Edge} (ht : Tidy s)
    (hitems : s.items = P ++ y :: Q) (hel : InHand s.get_n el)
    (hsorted : ((P ++ el :: Q).filter full).Pairwise Before) :
    ∃ s1 s2, fix_item s el P.length = .ok s1 ∧ s1.put P.length el = .ok s2 ∧ SameFrame s s2 ∧
      s2.items = P ++ el :: Q ∧ Tidy s2 ∧ (EndsAt s.nodes s.N → EndsAt s2.nodes s2.N) := by
  obtain ⟨s1, s2, hput, hfix, hframe, hitems2, ht2, hends⟩ := settle ht hitems hel hsorted
  obtain ⟨u, hu, hput'⟩ := fix_item_put hput hfix
  exact ⟨u, s2, hu, hput', hframe, hitems2, ht2, hends⟩

/-- Without the item of one slot, the items are still in order. -/
theorem sorted_drop {P Q : List Edge} (x : Edge) (h : ((P ++ x :: Q).filter full).Pairwise Before) :
    ((P ++ Q).filter full).Pairwise Before := by
  apply List.Pairwise.sublist _ h
  apply List.Sublist.filter
  simp

/-! ## The loop to the right -/

section

variable {rest index : Nat} {s s1 s2 : PCSR} {el temp : Edge}

theorem right_loop_stop (hread : s.item index = .ok temp) (hh : full temp = false) :
    right_loop (rest + 1) index el s = .ok (index, el, s) := by
  have hnull : temp.is_null = true := by simpa [full] using hh
  simp [right_loop, hread, hnull, bind, Except.bind, pure, Except.pure]

theorem right_loop_next (hread : s.item index = .ok temp) (hf : full temp = true)
    (hput : s.put index el = .ok s1) (hfix : fix_item s1 el index = .ok s2) :
    right_loop (rest + 1) index el s = right_loop rest (index + 1) temp s2 := by
  have hnull : temp.is_null = false := by simpa [full] using hf
  unfold fix_item at hfix
  cases hel : el.is_null with
  | true =>
    rw [if_pos hel] at hfix
    cases hfix
    simp [right_loop, hread, hnull, hput, hel, bind, Except.bind, pure, Except.pure]
  | false =>
    rw [if_neg (by simp [hel])] at hfix
    simp [right_loop, hread, hnull, hput, hel, hfix, bind, Except.bind]

/-- The loop of `slide_right` over the run `Y` up to a gap, with `el` in hand, and the write of
the last item of the run. -/
theorem right_loop_spec {P Y B : List Edge} {h : Edge} (ht : Tidy s)
    (hitems : s.items = P ++ (Y ++ h :: B)) (hrest : Y.length < rest)
    (hY : ∀ y ∈ Y, full y = true) (hh : full h = false) (hel : InHand s.get_n el)
    (hsorted : ((P ++ el :: (Y ++ B)).filter full).Pairwise Before) :
    ∃ z t1 t2 t3, right_loop rest P.length el s = .ok (P.length + Y.length, z, t1) ∧
      fix_item t1 z (P.length + Y.length) = .ok t2 ∧ t2.put (P.length + Y.length) z = .ok t3 ∧
      SameFrame s t1 ∧ SameFrame s t3 ∧ t3.items = P ++ (el :: (Y ++ B)) ∧ Tidy t3 ∧
      (EndsAt s.nodes s.N → EndsAt t3.nodes t3.N) := by
  obtain ⟨rest, rfl⟩ : ∃ r, rest = r + 1 := ⟨rest - 1, by omega⟩
  induction Y generalizing rest s P el with
  | nil =>
    simp only [List.nil_append] at hitems hsorted
    have hread : s.item P.length = .ok h := by
      rw [item_of_lt (by rw [hitems]; simp)]
      simp [hitems]
    obtain ⟨t2, t3, hfix, hput, hframe, hitems3, ht3, hends⟩ := settle_last ht hitems hel hsorted
    refine ⟨el, s, t2, t3, right_loop_stop hread hh, hfix, hput, SameFrame.refl s, hframe, hitems3,
      ht3, hends⟩
  | cons y Y ih =>
    obtain ⟨rest, rfl⟩ : ∃ r, rest = r + 1 := ⟨rest - 1, by simp at hrest; omega⟩
    simp only [List.cons_append] at hitems hsorted
    have hyfull : full y = true := hY y (List.mem_cons_self ..)
    have hread : s.item P.length = .ok y := by
      rw [item_of_lt (by rw [hitems]; simp)]
      simp [hitems]
    have hyitem : IsItem s.get_n y := ht.items y (by rw [hitems]; simp) hyfull
    have hsorted1 : ((P ++ el :: (Y ++ h :: B)).filter full).Pairwise Before := by
      have hdrop := sorted_drop (P := P ++ [el]) y (by simpa using hsorted)
      simpa [List.filter_append, List.filter_cons, hh] using hdrop
    obtain ⟨s1, s2, hput, hfix, hframe, hitems2, ht2, hends⟩ := settle ht hitems hel hsorted1
    have hget_n : s2.get_n = s.get_n := hframe.nodes
    obtain ⟨z, t1, t2, t3, hloop, hfix3, hput3, hframe1, hframe3, hitems3, ht3, hends3⟩ :=
      ih (P := P ++ [el]) ht2 (by rw [hitems2]; simp)
        (fun e he => hY e (List.mem_cons_of_mem _ he)) (by rw [hget_n]; exact .inr hyitem)
        (by simpa using hsorted) rest (by simp at hrest ⊢; omega)
    have hidx : (P ++ [el]).length + Y.length = P.length + (y :: Y).length := by
      simp
      omega
    rw [hidx] at hloop hfix3 hput3
    refine ⟨z, t1, t2, t3, ?_, hfix3, hput3, hframe.trans hframe1, hframe.trans hframe3, ?_, ht3,
      fun h => hends3 (hends h)⟩
    · rw [right_loop_next hread hyfull hput hfix]
      simpa using hloop
    · rw [hitems3]
      simp

/-- The loop of `slide_right` over a run up to the end of the array: the last item of the run
stays in hand. -/
theorem right_loop_off_end {P Y X : List Edge} {z : Edge} (ht : Tidy s) (hitems : s.items = P ++ Y)
    (hY : ∀ y ∈ Y, full y = true) (hel : InHand s.get_n el) (hX : el :: Y = X ++ [z])
    (hsorted : ((P ++ (X ++ [z])).filter full).Pairwise Before) :
    ∃ t, right_loop Y.length P.length el s = .ok (P.length + Y.length, z, t) ∧ SameFrame s t ∧
      t.items = P ++ X ∧ Tidy t ∧ (EndsAt s.nodes s.N → EndsAt t.nodes t.N) := by
  induction Y generalizing s P el X with
  | nil =>
    obtain ⟨rfl, rfl⟩ : X = [] ∧ el = z := by
      cases X with
      | nil => simpa using hX
      | cons x X => simp at hX
    exact ⟨s, rfl, SameFrame.refl s, hitems, ht, fun h => h⟩
  | cons y Y ih =>
    obtain ⟨X, rfl⟩ : ∃ X', X = el :: X' := by
      cases X with
      | nil => simp at hX
      | cons x X =>
        simp only [List.cons_append, List.cons.injEq] at hX
        exact ⟨X, by rw [hX.1]⟩
    simp only [List.cons_append, List.cons.injEq, true_and] at hX hsorted
    have hyfull : full y = true := hY y (List.mem_cons_self ..)
    have hread : s.item P.length = .ok y := by
      rw [item_of_lt (by rw [hitems]; simp)]
      simp [hitems]
    have hyitem : IsItem s.get_n y := ht.items y (by rw [hitems]; simp) hyfull
    have hsorted1 : ((P ++ el :: Y).filter full).Pairwise Before := by
      rw [← hX] at hsorted
      have hdrop := sorted_drop (P := P ++ [el]) y (by simpa using hsorted)
      simpa using hdrop
    obtain ⟨s1, s2, hput, hfix, hframe, hitems2, ht2, hends⟩ := settle ht hitems hel hsorted1
    obtain ⟨t, hloop, hframe1, hitems3, ht3, hends3⟩ :=
      ih (P := P ++ [el]) (X := X) ht2 (by rw [hitems2]; simp)
        (fun e he => hY e (List.mem_cons_of_mem _ he)) (by rw [hframe.get_n]; exact .inr hyitem)
        hX (by simpa using hsorted)
    refine ⟨t, ?_, hframe.trans hframe1, by rw [hitems3]; simp, ht3, fun h => hends3 (hends h)⟩
    rw [List.length_cons, right_loop_next hread hyfull hput hfix]
    simp only [List.length_append, List.length_singleton] at hloop
    rw [hloop]
    congr 2
    omega

end

/-! ## The loop to the left -/

section

variable {index : Nat} {s s1 s2 : PCSR} {el temp : Edge}

theorem left_loop_stop (hread : s.item index = .ok temp) (hh : full temp = false) :
    left_loop (index + 1) el s = .ok (some index, el, s) := by
  have hnull : temp.is_null = true := by simpa [full] using hh
  simp [left_loop, hread, hnull, bind, Except.bind, pure, Except.pure]

theorem left_loop_next (hread : s.item index = .ok temp) (hf : full temp = true)
    (hput : s.put index el = .ok s1) (hfix : fix_item s1 el index = .ok s2) :
    left_loop (index + 1) el s = left_loop index temp s2 := by
  have hnull : temp.is_null = false := by simpa [full] using hf
  unfold fix_item at hfix
  cases hel : el.is_null with
  | true =>
    rw [if_pos hel] at hfix
    cases hfix
    simp [left_loop, hread, hnull, hput, hel, bind, Except.bind, pure, Except.pure]
  | false =>
    rw [if_neg (by simp [hel])] at hfix
    simp [left_loop, hread, hnull, hput, hel, hfix, bind, Except.bind]

/-- The loop of `slide_left` over the run `Y` down to a gap, with `el` in hand, and the write of
the first item of the run. -/
theorem left_loop_spec {A Y D : List Edge} {h : Edge} (ht : Tidy s)
    (hitems : s.items = A ++ h :: (Y ++ D)) (hY : ∀ y ∈ Y, full y = true) (hh : full h = false)
    (hel : InHand s.get_n el) (hsorted : ((A ++ (Y ++ el :: D)).filter full).Pairwise Before) :
    ∃ z t1 t2 t3, left_loop (A.length + 1 + Y.length) el s = .ok (some A.length, z, t1) ∧
      fix_item t1 z A.length = .ok t2 ∧ t2.put A.length z = .ok t3 ∧ SameFrame s t3 ∧
      t3.items = A ++ (Y ++ el :: D) ∧ Tidy t3 ∧ (EndsAt s.nodes s.N → EndsAt t3.nodes t3.N) := by
  induction Y using List.reverseRecOn generalizing s D el with
  | nil =>
    simp only [List.nil_append] at hitems hsorted
    have hread : s.item A.length = .ok h := by
      rw [item_of_lt (by rw [hitems]; simp)]
      simp [hitems]
    obtain ⟨t2, t3, hfix, hput, hframe, hitems3, ht3, hends⟩ := settle_last ht hitems hel hsorted
    exact ⟨el, s, t2, t3, left_loop_stop hread hh, hfix, hput, hframe, hitems3, ht3, hends⟩
  | append_singleton Y y ih =>
    have hcut : s.items = (A ++ h :: Y) ++ y :: D := by
      rw [hitems]
      simp
    have hlen : (A ++ h :: Y).length = A.length + 1 + Y.length := by
      simp
      omega
    have hyfull : full y = true := hY y (by simp)
    have hread : s.item (A ++ h :: Y).length = .ok y := by
      rw [item_of_lt (by rw [hcut]; simp)]
      simp [hcut]
    have hyitem : IsItem s.get_n y := ht.items y (by rw [hcut]; simp) hyfull
    have hsorted1 : (((A ++ h :: Y) ++ el :: D).filter full).Pairwise Before := by
      have hdrop := sorted_drop (P := A ++ Y) (Q := el :: D) y (by simpa using hsorted)
      simpa [List.filter_append, List.filter_cons, hh] using hdrop
    obtain ⟨s1, s2, hput, hfix, hframe, hitems2, ht2, hends⟩ := settle ht hcut hel hsorted1
    obtain ⟨z, t1, t2, t3, hloop, hfix3, hput3, hframe3, hitems3, ht3, hends3⟩ :=
      ih (D := el :: D) ht2 (by rw [hitems2]; simp) (fun e he => hY e (by simp [he]))
        (by rw [hframe.get_n]; exact .inr hyitem) (by simpa using hsorted)
    refine ⟨z, t1, t2, t3, ?_, hfix3, hput3, hframe.trans hframe3, by rw [hitems3]; simp, ht3,
      fun h => hends3 (hends h)⟩
    rw [hlen] at hread hput hfix
    rw [List.length_append, List.length_singleton, ← Nat.add_assoc,
      left_loop_next hread hyfull hput hfix]
    exact hloop

end

/-! ## The slides -/

section

variable {s : PCSR}

/-- An item that leaves its slot. -/
theorem clear_slot {A B : List Edge} {x : Edge} (ht : Tidy s) (hitems : s.items = A ++ x :: B) :
    ∃ s1, s.item A.length = .ok x ∧ s.put A.length null_edge = .ok s1 ∧ SameFrame s s1 ∧
      s1.items = A ++ null_edge :: B ∧ Tidy s1 ∧ (EndsAt s.nodes s.N → EndsAt s1.nodes s1.N) := by
  have hsorted : ((A ++ null_edge :: B).filter full).Pairwise Before := by
    have h := ht.sorted
    rw [hitems] at h
    simpa using sorted_drop x h
  obtain ⟨s1, s2, hput, hfix, hframe, hitems2, ht2, hends⟩ := settle ht hitems (.inl rfl) hsorted
  obtain rfl : s1 = s2 := by
    cases hfix
    rfl
  refine ⟨s1, ?_, hput, hframe, hitems2, ht2, hends⟩
  rw [item_of_lt (by rw [hitems]; simp)]
  simp [hitems]

/-- `slide_left` from the slot of `x`: the run in front of it and `x` move into the gap. -/
theorem slide_left_spec {A Y B : List Edge} {h x : Edge} (calls : Nat) (ht : Tidy s)
    (hitems : s.items = A ++ h :: (Y ++ x :: B)) (hY : ∀ y ∈ Y, full y = true)
    (hh : full h = false) (hx : InHand s.get_n x) :
    ∃ s', slide_left_calls (calls + 1) s (A.length + 1 + Y.length) = .ok s' ∧ SameFrame s s' ∧
      s'.items = A ++ (Y ++ x :: null_edge :: B) ∧ Tidy s' ∧
      (EndsAt s.nodes s.N → EndsAt s'.nodes s'.N) := by
  have hcut : s.items = (A ++ h :: Y) ++ x :: B := by
    rw [hitems]
    simp
  have hlen : (A ++ h :: Y).length = A.length + 1 + Y.length := by
    simp
    omega
  obtain ⟨s1, hread, hput, hframe, hitems1, ht1, hends⟩ := clear_slot ht hcut
  rw [hlen] at hread hput
  have hsorted : ((A ++ (Y ++ x :: null_edge :: B)).filter full).Pairwise Before := by
    have h := ht.sorted
    rw [hitems] at h
    simpa [List.filter_append, List.filter_cons, hh] using h
  obtain ⟨z, t1, t2, t3, hloop, hfix, hput3, hframe3, hitems3, ht3, hends3⟩ :=
    left_loop_spec (Y := Y) (D := null_edge :: B) (h := h) ht1 (by rw [hitems1]; simp) hY hh
      (by rw [hframe.get_n]; exact hx) hsorted
  refine ⟨t3, ?_, hframe.trans hframe3, hitems3, ht3, fun h => hends3 (hends h)⟩
  simp only [slide_left_calls, hread, hput, hloop, hfix, bind, Except.bind]
  exact hput3

/-- `slide_right` from the slot of `x` with a gap to the right: `x` and the run behind it move
into the gap. -/
theorem slide_right_spec {A Y B : List Edge} {h x : Edge} (calls : Nat) (ht : Tidy s)
    (hN : s.items.length = s.N) (hitems : s.items = A ++ x :: (Y ++ h :: B))
    (hY : ∀ y ∈ Y, full y = true) (hh : full h = false) (hx : InHand s.get_n x) :
    ∃ s', slide_right_calls (calls + 1) s A.length = .ok (false, s') ∧ SameFrame s s' ∧
      s'.items = A ++ null_edge :: x :: (Y ++ B) ∧ Tidy s' ∧
      (EndsAt s.nodes s.N → EndsAt s'.nodes s'.N) := by
  obtain ⟨s1, hread, hput, hframe, hitems1, ht1, hends⟩ := clear_slot ht hitems
  have hsize : A.length + 1 + Y.length + 1 + B.length = s.N := by
    rw [← hN, hitems]
    simp
    omega
  have hsorted : (((A ++ [null_edge]) ++ x :: (Y ++ B)).filter full).Pairwise Before := by
    have h := ht.sorted
    rw [hitems] at h
    simpa [List.filter_append, List.filter_cons, hh] using h
  obtain ⟨z, t1, t2, t3, hloop, hfix, hput3, hframe1, hframe3, hitems3, ht3, hends3⟩ :=
    right_loop_spec (P := A ++ [null_edge]) (Y := Y) (B := B) ht1
      (by rw [hitems1]; simp) (show Y.length < s1.N - (A.length + 1) by rw [hframe.N]; omega) hY hh (by rw [hframe.get_n]; exact hx) hsorted
  have hlen : (A ++ [null_edge]).length = A.length + 1 := by simp
  rw [hlen] at hloop hfix hput3
  have hidx : ¬ A.length + 1 + Y.length = t2.N := by
    rw [(fix_item_frame hfix).N, hframe1.N, hframe.N]
    omega
  refine ⟨t3, ?_, hframe.trans hframe3, by rw [hitems3]; simp, ht3, fun h => hends3 (hends h)⟩
  simp only [slide_right_calls, hread, hput, hloop, hfix, bind, Except.bind, if_neg hidx, hput3]
  rfl

/-- `slide_right` without a gap to the right: the last item goes off the end and back, and so
does the rest of the run. A sentinel would not find back into the node table. -/
theorem slide_right_off_end {A Z : List Edge} {w z : Edge} (calls : Nat) (ht : Tidy s)
    (hN : s.items.length = s.N) (hitems : s.items = A ++ (Z ++ [w, z]))
    (hfull : ∀ e ∈ Z ++ [w, z], full e = true) (hz : is_sentinel z = false) :
    ∃ s', slide_right_calls (calls + 2) s A.length = .ok (true, s') ∧ SameFrame s s' ∧
      s'.items = s.items ∧ Tidy s' ∧ (EndsAt s.nodes s.N → EndsAt s'.nodes s'.N) := by
  have hmem : ∀ e ∈ Z ++ [w, z], IsItem s.get_n e := by
    intro e he
    exact ht.items e (by rw [hitems]; exact List.mem_append_right _ he) (hfull e he)
  obtain ⟨x, Y, hxY⟩ : ∃ x Y, Z ++ [w, z] = x :: Y := by
    cases Z with
    | nil => exact ⟨w, [z], rfl⟩
    | cons x Z => exact ⟨x, Z ++ [w, z], rfl⟩
  have hsorted := ht.sorted
  rw [hitems] at hsorted
  have hsize : A.length + (Z.length + 2) = s.N := by
    rw [← hN, hitems]
    simp
  have hYlen : Y.length = Z.length + 1 := by
    have := congrArg List.length hxY
    simp at this
    omega
  obtain ⟨s1, hread, hput, hframe, hitems1, ht1, hends⟩ := clear_slot (x := x) (B := Y) ht
    (by rw [hitems, hxY])
  rw [hxY] at hfull hmem
  -- the run moves to the right
  obtain ⟨t, hloop, hframe1, hitems2, ht2, hends2⟩ :=
    right_loop_off_end (P := A ++ [null_edge]) (Y := Y) (X := Z ++ [w]) (z := z) ht1
      (by rw [hitems1]; simp) (fun e he => hfull e (List.mem_cons_of_mem _ he))
      (by rw [hframe.get_n]; exact .inr (hmem x (List.mem_cons_self ..))) (by rw [← hxY]; simp)
      (by simpa [List.filter_append, List.filter_cons] using hsorted)
  have hlen : (A ++ [null_edge]).length = A.length + 1 := by simp
  rw [hlen] at hloop
  have hrest : s1.N - (A.length + 1) = Y.length := by
    rw [hframe.N]
    omega
  have hzfull : full z = true := hfull z (by rw [← hxY]; simp)
  have hznull : z.is_null = false := by simpa [full] using hzfull
  have hfix : ∀ u : PCSR, ∀ i, fix_item u z i = .ok u := by
    intro u i
    simp [fix_item, hznull, fix_sentinel, hz]
  have htN : t.N = s.N := by rw [hframe1.N, hframe.N]
  -- and back
  have hw : IsItem t.get_n w := by
    rw [hframe1.get_n, hframe.get_n]
    exact hmem w (by rw [← hxY]; simp)
  obtain ⟨u, hleft, hframe2, hitems3, ht3, hends3⟩ :=
    slide_left_spec (A := A) (Y := Z) (B := []) (h := null_edge) (x := w) calls ht2
      (by rw [hitems2]; simp) (fun e he => hfull e (by rw [← hxY]; simp [he])) rfl (.inr hw)
  have hcut : u.items = (A ++ (Z ++ [w])) ++ null_edge :: [] := by
    rw [hitems3]
    simp
  have hzitem : IsItem u.get_n z := by
    rw [hframe2.get_n, hframe1.get_n, hframe.get_n]
    exact hmem z (by rw [← hxY]; simp)
  obtain ⟨v, v', hput4, hfix4, hframe4, hitems4, ht4, hends4⟩ :=
    settle ht3 hcut (.inr hzitem) (by simpa using hsorted)
  rw [hfix v] at hfix4
  cases hfix4
  refine ⟨v, ?_, ((hframe.trans hframe1).trans hframe2).trans hframe4, ?_, ht4,
    fun h => hends4 (hends3 (hends2 (hends h)))⟩
  · have hidx : A.length + 1 + Y.length = t.N := by omega
    have hleftidx : A.length + 1 + Y.length - 1 = A.length + 1 + Z.length := by omega
    have hputidx : (A ++ (Z ++ [w])).length = A.length + 1 + Z.length := by
      simp
      omega
    rw [hputidx] at hput4
    simp only [slide_right_calls, hread, hput, hrest, hloop, hfix, bind, Except.bind, if_pos hidx,
      hleftidx, hleft, hput4]
    rfl
  · rw [hitems4, hitems]
    simp

end

end packed_csr
