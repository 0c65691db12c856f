-- A slide to the right that runs off the end of the array goes back. The law: it leaves
-- the array and the node table as they were, unless the last slot holds a sentinel.
import PackedCsr.Insertion
import PackedCsr.Pointers

namespace packed_csr

/-- The node table agrees with the slots of the sentinels, whatever the array holds otherwise. -/
structure Agreed (s : PCSR) : Prop where
  at_ : ∀ (i : Nat) (e : Edge), s.items[i]? = some e → full e = true → is_sentinel e = true →
    PointsTo s.nodes (sentinel_vertex e) i
  last : ∀ n, s.nodes[s.nodes.length - 1]? = some n → n.end_ = s.N - 1

section

variable {s : PCSR} {nodes : List Node} {S : Nat → Prop}

theorem marks_cons {el : Edge} {c : List Edge} {v : Nat} :
    Marks (el :: c) v ↔ (is_sentinel el = true ∧ sentinel_vertex el = v) ∨ Marks c v := by
  unfold Marks
  simp

theorem marks_append {c c' : List Edge} {v : Nat} : Marks (c ++ c') v ↔ Marks c v ∨ Marks c' v := by
  unfold Marks
  simp only [List.mem_append, or_and_right, exists_or]

/-- The item in hand goes to the slot of `y`, and the node table is fixed for it. -/
theorem carry {P Q : List Edge} {y el : Edge} (hitems : s.items = P ++ y :: Q) (hf : full el = true)
    (hv : is_sentinel el = true → sentinel_vertex el < s.nodes.length) :
    ∃ s1 s2, s.put P.length el = .ok s1 ∧ fix_item s1 el P.length = .ok s2 ∧ SameFrame s s2 ∧
      s2.items = P ++ el :: Q ∧ s2.nodes = repoint s.nodes s.N el P.length := by
  have hput := put_of_lt el (show P.length < s.items.length by rw [hitems]; simp)
  have hset : s.items.set P.length el = P ++ el :: Q := by
    rw [hitems]
    exact set_mid P Q y el
  rw [hset] at hput
  have hfix := fix_item_repoint (s := { s with items := P ++ el :: Q }) hf hv P.length
  exact ⟨_, _, hput, hfix, (put_frame hput).trans (fix_item_frame hfix), rfl, rfl⟩

/-- The loop of `slide_right` over a run up to the end of the array, whatever the array holds. -/
theorem right_loop_carries (el : Edge) {P Y X : List Edge} {z : Edge} (hitems : s.items = P ++ Y)
    (hX : el :: Y = X ++ [z]) (hfull : ∀ e ∈ el :: Y, full e = true)
    (hv : Named s.nodes.length (el :: Y)) :
    ∃ t, right_loop Y.length P.length el s = .ok (P.length + Y.length, z, t) ∧ SameFrame s t ∧
      t.items = P ++ X ∧ Retouched s.nodes t.nodes (Marks X) := by
  induction Y generalizing s P el X with
  | nil =>
    obtain ⟨rfl, rfl⟩ : X = [] ∧ el = z := by
      cases X with
      | nil => simpa using hX
      | cons x X => simp at hX
    exact ⟨s, rfl, SameFrame.refl s, hitems, Retouched.refl _ _⟩
  | cons y Y ih =>
    obtain ⟨X, rfl⟩ : ∃ X', X = el :: X' := by
      cases X with
      | nil => simp at hX
      | cons x X =>
        simp only [List.cons_append, List.cons.injEq] at hX
        exact ⟨X, by rw [hX.1]⟩
    simp only [List.cons_append, List.cons.injEq, true_and] at hX
    have hel : full el = true := hfull el (List.mem_cons_self ..)
    have hread : s.item P.length = .ok y := by
      rw [item_of_lt (by rw [hitems]; simp)]
      simp [hitems]
    obtain ⟨s1, s2, hput, hfix, hframe, hitems2, hnodes⟩ :=
      carry hitems hel (hv el (List.mem_cons_self ..))
    obtain ⟨t, hloop, hframe', hitems3, htouch⟩ :=
      ih y (s := s2) (P := P ++ [el]) (X := X) (by rw [hitems2]; simp) hX
        (fun e he => hfull e (List.mem_cons_of_mem _ he))
        (by rw [show s2.nodes.length = s.nodes.length from hframe.nodes]
            exact fun e he => hv e (List.mem_cons_of_mem _ he))
    refine ⟨t, ?_, hframe.trans hframe', by rw [hitems3]; simp, ?_⟩
    · rw [List.length_cons, right_loop_next hread (hfull y (by simp)) hput hfix]
      simp only [List.length_append, List.length_singleton] at hloop
      rw [hloop]
      congr 2
      omega
    · rw [hnodes] at htouch
      have hmove := ((Retouched.refl s.nodes fun _ => False).move hel s.N P.length).trans htouch
      apply hmove.mono
      intro v hv'
      rw [marks_cons]
      tauto

/-- The loop of `slide_left` over the run `Y` down to a gap, and the write of its first item. `el`
and the run go back to where the table `nodes` has them. -/
theorem left_loop_carries (el : Edge) {A Y D : List Edge} {h : Edge} (hitems : s.items = A ++ h :: (Y ++ D))
    (hh : full h = false) (hfull : ∀ e ∈ Y ++ [el], full e = true)
    (hv : Named s.nodes.length (Y ++ [el])) (htouch : Retouched nodes s.nodes S)
    (hp : ∀ (k : Nat) (e : Edge), (Y ++ [el])[k]? = some e → is_sentinel e = true →
      PointsTo nodes (sentinel_vertex e) (A.length + k))
    (hend : ∀ n, nodes[nodes.length - 1]? = some n → n.end_ = s.N - 1) :
    ∃ z t1 t2 t3, left_loop (A.length + 1 + Y.length) el s = .ok (some A.length, z, t1) ∧
      fix_item t1 z A.length = .ok t2 ∧ t2.put A.length z = .ok t3 ∧ SameFrame s t3 ∧
      t3.items = A ++ (Y ++ el :: D) ∧ Retouched s.nodes t3.nodes (Marks (Y ++ [el])) ∧
      Retouched nodes t3.nodes fun v => S v ∧ ¬ Marks (Y ++ [el]) v := by
  induction Y using List.reverseRecOn generalizing s D el S with
  | nil =>
    simp only [List.nil_append] at hitems hfull hv hp
    have hel := hfull el (by simp)
    have hread : s.item A.length = .ok h := by
      rw [item_of_lt (by rw [hitems]; simp)]
      simp [hitems]
    obtain ⟨s1, s2, hput, hfix, hframe, hitems2, hnodes⟩ := carry hitems hel (hv el (by simp))
    obtain ⟨u, hu, hput'⟩ := fix_item_put hput hfix
    refine ⟨el, s, u, s2, left_loop_stop hread hh, hu, hput', hframe, hitems2, ?_, ?_⟩
    · rw [hnodes]
      apply ((Retouched.refl s.nodes fun _ => False).move hel s.N A.length).mono
      intro v hv'
      rw [List.nil_append, marks_cons]
      tauto
    · rw [hnodes]
      apply (htouch.back hel (hp 0 el rfl) hend).mono
      intro v hv'
      refine ⟨hv'.1, fun hm => ?_⟩
      rw [List.nil_append, marks_cons] at hm
      rcases hm with hm | ⟨e, he, -⟩
      · exact hv'.2 hm
      · cases he
  | append_singleton Y y ih =>
    have hcut : s.items = (A ++ h :: Y) ++ y :: D := by
      rw [hitems]
      simp
    have hlen : (A ++ h :: Y).length = A.length + 1 + Y.length := by
      simp
      omega
    have hel := hfull el (by simp)
    have hread : s.item (A ++ h :: Y).length = .ok y := by
      rw [item_of_lt (by rw [hcut]; simp)]
      simp [hcut]
    obtain ⟨s1, s2, hput, hfix, hframe, hitems2, hnodes⟩ := carry hcut hel (hv el (by simp))
    have hback : Retouched nodes s2.nodes
        fun v => S v ∧ ¬ (is_sentinel el = true ∧ sentinel_vertex el = v) := by
      rw [hnodes]
      apply htouch.back hel _ hend
      intro hs
      rw [hlen]
      have h := hp (Y.length + 1) el (by simp) hs
      rwa [show A.length + (Y.length + 1) = A.length + 1 + Y.length by omega] at h
    obtain ⟨z, t1, t2, t3, hloop, hfix3, hput3, hframe3, hitems3, hmarks, hgone⟩ :=
      ih y (s := s2) (D := el :: D) (by rw [hitems2]; simp)
        (fun e he => hfull e (List.mem_append_left _ he))
        (by rw [show s2.nodes.length = s.nodes.length from hframe.nodes]
            exact fun e he => hv e (List.mem_append_left _ he))
        hback
        (fun k e he => hp k e (by
          rw [List.getElem?_append_left]
          · exact he
          · exact (List.getElem?_eq_some_iff.mp he).1))
        (by rw [hframe.N]; exact hend)
    refine ⟨z, t1, t2, t3, ?_, hfix3, hput3, hframe.trans hframe3, by rw [hitems3]; simp, ?_, ?_⟩
    · rw [hlen] at hread hput hfix
      rw [List.length_append, List.length_singleton, ← Nat.add_assoc,
        left_loop_next hread (hfull y (by simp)) hput hfix]
      exact hloop
    · rw [hnodes] at hmarks
      have hmove := ((Retouched.refl s.nodes fun _ => False).move hel s.N
        (A ++ h :: Y).length).trans hmarks
      apply hmove.mono
      intro v hv'
      rw [marks_append, marks_cons]
      tauto
    · apply hgone.mono
      intro v hv'
      refine ⟨hv'.1.1, fun hm => ?_⟩
      rw [marks_append, marks_cons] at hm
      rcases hm with hm | hm | ⟨e, he, -⟩
      · exact hv'.2 hm
      · exact hv'.1.2 hm
      · cases he

/-- What the slide leaves where nothing is null from `index` on: the items are all back, and each
entry of the node table but those of a sentinel in the last slot. -/
theorem slide_right_full {A Z : List Edge} {w z : Edge} (h : Agreed s) (hN : s.items.length = s.N)
    (hitems : s.items = A ++ (Z ++ [w, z])) (hfull : ∀ e ∈ Z ++ [w, z], full e = true) :
    ∃ s', slide_right s A.length = .ok (true, s') ∧ s'.items = s.items ∧ SameFrame s s' ∧
      Retouched s.nodes s'.nodes (Marks [z]) ∧
      (is_sentinel z = true → s'.nodes[sentinel_vertex z]?.map Node.beginning = some s.N) := by
  obtain ⟨x, Y, hxY⟩ : ∃ x Y, Z ++ [w, z] = x :: Y := by
    cases Z with
    | nil => exact ⟨w, [z], rfl⟩
    | cons x Z => exact ⟨x, Z ++ [w, z], rfl⟩
  have hsize : A.length + (Z.length + 2) = s.N := by
    rw [← hN, hitems]
    simp
  have hYlen : Y.length = Z.length + 1 := by
    have := congrArg List.length hxY
    simp at this
    omega
  have hsplit : Z ++ [w, z] = (Z ++ [w]) ++ [z] := by simp
  have hmem : ∀ (k : Nat) (e : Edge), (Z ++ [w, z])[k]? = some e → is_sentinel e = true →
      PointsTo s.nodes (sentinel_vertex e) (A.length + k) := by
    intro k e he hs
    apply h.at_ _ e _ (hfull e (List.mem_of_getElem? he)) hs
    rw [hitems, List.getElem?_append_right (by omega), Nat.add_sub_cancel_left]
    exact he
  have hnamed : Named s.nodes.length (Z ++ [w, z]) := by
    intro e he hs
    obtain ⟨k, hk⟩ := List.mem_iff_getElem?.mp he
    have hp := (hmem k e hk hs).1
    by_contra hc
    rw [List.getElem?_eq_none (by omega)] at hp
    cases hp
  -- the run moves to the right
  have hread : s.item A.length = .ok x := by
    rw [item_of_lt (by rw [hitems]; simp)]
    simp [hitems, hxY]
  have hput := put_of_lt null_edge (show A.length < s.items.length by rw [hitems]; simp)
  rw [show s.items.set A.length null_edge = A ++ null_edge :: Y by
    rw [hitems, hxY]
    exact set_mid A Y x null_edge] at hput
  obtain ⟨t, hloop, hframe, hitems1, htouch⟩ :=
    right_loop_carries x (s := { s with items := A ++ null_edge :: Y }) (P := A ++ [null_edge])
      (Y := Y) (X := Z ++ [w]) (z := z) (by simp) (by rw [← hxY, hsplit])
      (by rw [← hxY]; exact hfull) (by rw [← hxY]; exact hnamed)
  have hlen : (A ++ [null_edge]).length = A.length + 1 := by simp
  have hend : A.length + 1 + Y.length = s.N := by omega
  rw [hlen, hend] at hloop
  have htn : t.nodes.length = s.nodes.length := hframe.nodes
  have htN : t.N = s.N := hframe.N
  have hzfull : full z = true := hfull z (by simp)
  have hfixz := fix_item_repoint (s := t) hzfull
    (fun hs => by rw [htn]; exact hnamed z (by simp) hs) s.N
  generalize ht1 : ({ t with nodes := repoint t.nodes t.N z s.N } : PCSR) = t1 at hfixz
  have ht1n : t1.nodes = repoint t.nodes t.N z s.N := by rw [← ht1]
  have ht1i : t1.items = (A ++ null_edge :: Z) ++ w :: [] := by
    rw [← ht1]
    simp [hitems1]
  have ht1N : t1.N = s.N := by rw [← ht1]; exact htN
  have ht1len : t1.nodes.length = s.nodes.length := by rw [ht1n, repoint_length, htn]
  have ht1v : t1.versions = s.versions := by rw [← ht1]; exact hframe.versions
  have ht1b : t1.lock_bsearch = s.lock_bsearch := by rw [← ht1]; exact hframe.lock_bsearch
  have htouch1 : Retouched s.nodes t1.nodes (Marks (Z ++ [w, z])) := by
    rw [ht1n]
    apply (htouch.move hzfull t.N s.N).mono
    intro v hv
    rw [hsplit, marks_append, marks_cons]
    tauto
  -- and back
  have hwidx : (A ++ null_edge :: Z).length = A.length + 1 + Z.length := by
    simp
    omega
  have hreadw : t1.item (A.length + 1 + Z.length) = .ok w := by
    rw [← hwidx, item_of_lt (by rw [ht1i]; simp)]
    simp [ht1i]
  have hputw := put_of_lt null_edge (show A.length + 1 + Z.length < t1.items.length by
    rw [ht1i, ← hwidx]
    simp)
  rw [show t1.items.set (A.length + 1 + Z.length) null_edge = A ++ null_edge :: (Z ++ [null_edge]) by
    rw [ht1i, ← hwidx, set_mid]
    simp] at hputw
  obtain ⟨y, u1, u2, u3, hleft, hfix, hput3, hframe3, hitems3, hmarks, hgone⟩ :=
    left_loop_carries w (s := { t1 with items := A ++ null_edge :: (Z ++ [null_edge]) })
      (A := A) (Y := Z) (D := [null_edge]) (h := null_edge) (S := Marks (Z ++ [w, z])) rfl rfl
      (fun e he => hfull e (by rw [hsplit]; exact List.mem_append_left _ he))
      (fun e he hs => by
        rw [show ({ t1 with items := A ++ null_edge :: (Z ++ [null_edge]) } : PCSR).nodes.length =
          s.nodes.length from ht1len]
        exact hnamed e (by rw [hsplit]; exact List.mem_append_left _ he) hs)
      htouch1
      (fun k e he => hmem k e (by
        rw [hsplit, List.getElem?_append_left]
        · exact he
        · exact (List.getElem?_eq_some_iff.mp he).1))
      (by
        intro n hn
        rw [h.last n hn]
        exact congrArg (· - 1) ht1N.symm)
  have hu3len : A.length + 1 + Z.length < u3.items.length := by
    rw [hitems3]
    simp
    omega
  have hputz := put_of_lt z hu3len
  have hback : u3.items.set (A.length + 1 + Z.length) z = s.items := by
    rw [hitems3, hitems, show A ++ (Z ++ w :: [null_edge]) = (A ++ (Z ++ [w])) ++ null_edge :: [] by simp,
      show A.length + 1 + Z.length = (A ++ (Z ++ [w])).length by simp; omega, set_mid]
    simp
  rw [hback] at hputz
  have hslide : slide_left_calls 3 t1 (A.length + 1 + Z.length) = .ok u3 := by
    simp only [slide_left_calls, hreadw, hputw, hleft, hfix, bind, Except.bind]
    exact hput3
  refine ⟨{ u3 with items := s.items }, ?_, rfl, ?_, ?_, ?_⟩
  · have hrest : s.N - (A.length + 1) = Y.length := by omega
    have hlast : s.N - 1 = A.length + 1 + Z.length := by omega
    unfold slide_right
    simp only [slide_right_calls, hread, hput, hrest, hloop, hfixz, bind, Except.bind,
      if_pos ht1N.symm, hlast, hslide, hputz]
    rfl
  · exact ⟨hframe3.N.trans ht1N, rfl, hframe3.nodes.trans ht1len,
      hframe3.versions.trans ht1v, hframe3.lock_bsearch.trans ht1b⟩
  · apply hgone.mono
    intro v hv
    have h1 := hv.1
    rw [hsplit, marks_append] at h1
    exact h1.resolve_left hv.2
  · -- no other sentinel is of the vertex of the last one
    intro hs
    have hother : ¬ Marks (Z ++ [w]) (sentinel_vertex z) := by
      rintro ⟨e, he, hes, hev⟩
      obtain ⟨k, hk⟩ := List.mem_iff_getElem?.mp he
      have hklt := (List.getElem?_eq_some_iff.mp hk).1
      have hp := (hmem k e (by rw [hsplit, List.getElem?_append_left hklt]; exact hk) hes).1
      have hz := (hmem (Z.length + 1) z (by simp) hs).1
      rw [hev, hz] at hp
      simp only [Option.some.injEq, List.length_append, List.length_singleton] at hp hklt
      omega
    have hbeg := hmarks.beginning (sentinel_vertex z) hother
    refine hbeg.trans ?_
    show t1.nodes[sentinel_vertex z]?.map Node.beginning = some s.N
    rw [ht1n]
    exact (repoint_self hs hzfull (by rw [htn]; exact hnamed z (by simp) hs) t.N s.N).1

end

/-! ## The law -/

/-- Where no slot is null from `index` on, the slide says so and puts every item back; and it
leaves the node table as it was exactly when the last slot holds no sentinel. -/
theorem a_slide_off_the_end_is_undone (s : PCSR) (hN : s.items.length = s.N) (h : Agreed s)
    (index : Nat) (h1 : 1 ≤ index) (hlast : index < s.N - 1)
    (hfull : ∀ i, index ≤ i → i < s.N → ∃ e, s.items[i]? = some e ∧ full e = true) :
    ∃ s', slide_right s index = .ok (true, s') ∧
      ((s'.items = s.items ∧ s'.nodes = s.nodes) ↔
        ∀ z, s.items[s.N - 1]? = some z → is_sentinel z = false) := by
  have hlen : (s.items.take index).length = index := by
    rw [List.length_take]
    omega
  obtain ⟨Z, w, z, hdrop⟩ := two_at_end (show 2 ≤ (s.items.drop index).length by
    rw [List.length_drop]
    omega)
  have hitems : s.items = s.items.take index ++ (Z ++ [w, z]) := by
    rw [← hdrop, List.take_append_drop]
  have hmem : ∀ e ∈ Z ++ [w, z], full e = true := by
    intro e he
    rw [← hdrop] at he
    obtain ⟨k, hk⟩ := List.mem_iff_getElem?.mp he
    rw [List.getElem?_drop] at hk
    have hlt := (List.getElem?_eq_some_iff.mp hk).1
    obtain ⟨x, hx, hf⟩ := hfull (index + k) (by omega) (by omega)
    rw [hk] at hx
    cases hx
    exact hf
  have hz : s.items[s.N - 1]? = some z := by
    have hl := congrArg List.length hitems
    simp only [List.length_append, List.length_cons, List.length_nil, hlen] at hl
    rw [hitems, List.getElem?_append_right (by omega), List.getElem?_append_right (by omega), hlen,
      show s.N - 1 - index - Z.length = 1 by omega]
    rfl
  obtain ⟨s', hrun, hback, -, htouch, hbeg⟩ := slide_right_full h hN hitems hmem
  rw [hlen] at hrun
  refine ⟨s', hrun, ⟨fun hsame => ?_, fun hno => ⟨hback, ?_⟩⟩⟩
  · intro y hy
    rw [hz] at hy
    cases hy
    by_contra hs
    -- the node table has the last sentinel behind the array
    have hs' : is_sentinel z = true := by simpa using hs
    have hnew := hbeg hs'
    rw [hsame.2, (h.at_ _ z hz (hmem z (by simp)) hs').1] at hnew
    simp only [Option.some.injEq] at hnew
    omega
  · apply htouch.eq
    rintro v ⟨e, he, hes, -⟩
    rw [List.mem_singleton.mp he, hno z hz] at hes
    cases hes

/-- Vertex 0 has the edges to 3, 4, 5 and 6, and the sentinel of vertex 1 is in the last slot. -/
def sentinel_at_end : PCSR where
  N := 8
  items := [sentinel 0, null_edge, null_edge, ⟨0, 3, 1⟩, ⟨0, 4, 1⟩, ⟨0, 5, 1⟩, ⟨0, 6, 1⟩, sentinel 1]
  nodes := [⟨0, 7, 4⟩, ⟨7, 7, 0⟩]
  versions := [0, 0]
  lock_bsearch := true

/-- The same graph, and an edge of vertex 1 in the last slot. -/
def edge_at_end : PCSR where
  N := 8
  items := [sentinel 0, null_edge, ⟨0, 3, 1⟩, ⟨0, 4, 1⟩, ⟨0, 5, 1⟩, ⟨0, 6, 1⟩, sentinel 1, ⟨1, 2, 1⟩]
  nodes := [⟨0, 6, 4⟩, ⟨6, 7, 1⟩]
  versions := [0, 0]
  lock_bsearch := true

theorem agreed_of_slots {s : PCSR} (h : ∀ i < s.items.length, ∀ e ∈ s.items[i]?, full e = true →
      is_sentinel e = true → s.nodes[sentinel_vertex e]?.map Node.beginning = some i ∧
        (0 < sentinel_vertex e → s.nodes[sentinel_vertex e - 1]?.map Node.end_ = some i))
    (hlast : ∀ n ∈ s.nodes[s.nodes.length - 1]?, n.end_ = s.N - 1) : Agreed s :=
  ⟨fun i e he hf hs => h i (List.getElem?_eq_some_iff.mp he).1 e he hf hs, fun n hn => hlast n hn⟩

theorem a_slide_is_undone_behind_an_edge : ∃ s', slide_right edge_at_end 3 = .ok (true, s') ∧
    s'.items = edge_at_end.items ∧ s'.nodes = edge_at_end.nodes := by
  obtain ⟨s', hrun, h⟩ := a_slide_off_the_end_is_undone edge_at_end rfl
    (agreed_of_slots (by decide +kernel) (by decide +kernel)) 3 (by decide) (by decide) (by
      intro i hi hi'
      have hall : ∀ i < 8, 3 ≤ i → ∃ e ∈ edge_at_end.items[i]?, full e = true := by decide +kernel
      obtain ⟨e, he, hf⟩ := hall i hi' hi
      exact ⟨e, he, hf⟩)
  obtain ⟨hitems, hnodes⟩ := h.mpr (by
    intro z hz
    cases hz
    rfl)
  exact ⟨s', hrun, hitems, hnodes⟩

/-- The slide from slot 3 leaves vertex 1 beginning behind the array. -/
theorem a_slide_loses_the_last_sentinel : ¬ ∀ (s : PCSR) (index : Nat), s.items.length = s.N →
    Agreed s → 1 ≤ index → index < s.N - 1 →
    (∀ i, index ≤ i → i < s.N → ∃ e, s.items[i]? = some e ∧ full e = true) →
    ∃ s', slide_right s index = .ok (true, s') ∧ s'.items = s.items ∧ s'.nodes = s.nodes := by
  intro hall
  obtain ⟨s', hrun, -, hnodes⟩ := hall sentinel_at_end 3 rfl
    (agreed_of_slots (by decide +kernel) (by decide +kernel)) (by decide) (by decide) (by
      intro i hi hi'
      have hall : ∀ i < 8, 3 ≤ i → ∃ e ∈ sentinel_at_end.items[i]?, full e = true := by
        decide +kernel
      obtain ⟨e, he, hf⟩ := hall i hi' hi
      exact ⟨e, he, hf⟩)
  have hslide : slide_right sentinel_at_end 3 =
      .ok (true, { sentinel_at_end with nodes := [⟨0, 8, 4⟩, ⟨8, 7, 0⟩] }) := by
    decide +kernel
  rw [hslide] at hrun
  cases hrun
  exact absurd hnodes (by decide)

end packed_csr
