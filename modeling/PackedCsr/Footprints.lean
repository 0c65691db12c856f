-- The slots that an insertion writes. On the way the array need not be in order, nor need the
-- node table know its sentinels, but each move of items returns and stays in its window. The
-- law: an insertion changes no slot outside the leaves that its plan holds.
import PackedCsr.Alike
import PackedCsr.Overflow

namespace packed_csr

open effects

/-! ## Moves on any array -/

/-- The node table has an entry for the item, where it needs one. -/
def Fixable (n : Nat) (e : Edge) : Prop := is_sentinel e = true → sentinel_vertex e < n ∧ e.value ≠ 0

/-- Items can be moved: the first slot is full, and each sentinel is that of some vertex. -/
structure Movable (s : PCSR) : Prop where
  items : s.items.length = s.N
  first : ∃ x, s.items[0]? = some x ∧ full x = true
  named : Named s.nodes.length (s.items.filter full)

section

variable {s s' : PCSR} {A W B : List Edge} {e el : Edge} {index len j k : Nat}

theorem fixable_null (n : Nat) : Fixable n null_edge := by
  intro hs
  cases hs

theorem Named.fixable {n : Nat} {c : List Edge} (h : Named n (c.filter full)) (he : e ∈ c)
    (hf : full e = true) : Fixable n e :=
  fun hs => ⟨h e (List.mem_filter.mpr ⟨he, hf⟩) hs, full_iff.mp hf⟩

theorem fix_sentinel_returns (h : Fixable s.nodes.length e) (slot : Nat) :
    ∃ s', fix_sentinel s e slot = .ok s' := by
  unfold fix_sentinel
  by_cases hs : is_sentinel e = true
  · rw [if_neg (by simp [hs]), if_pos (h hs)]
    exact ⟨_, rfl⟩
  · rw [if_pos (by simpa using hs)]
    exact ⟨_, rfl⟩

/-- The last loop of a redistribution returns. -/
theorem spread_loop_returns (hk : k < j) (hj : j ≤ W.length) (hitems : s.items = A ++ (W ++ B))
    (hW : ∀ e ∈ W, Fixable s.nodes.length e) :
    ∃ s', spread_loop A.length W.length j k s = .ok s' := by
  induction k generalizing s W with
  | zero => exact ⟨s, rfl⟩
  | succ k ih =>
    obtain ⟨q, hq, hqlt⟩ : ∃ q, spread_slot A.length W.length j (k + 1) = A.length + q ∧
        q < W.length := by
      have hge := spread_slot_ge A.length (k + 1) (by omega) hj
      have hlt := spread_slot_lt A.length (k + 1) hk (show 0 < W.length by omega)
      exact ⟨spread_slot A.length W.length j (k + 1) - A.length, by omega, by omega⟩
    unfold spread_loop
    simp only [hitems, hq, getD_inside _ _ _ _ _ hqlt,
      getD_inside A W B (k + 1) null_edge (by omega), set_inside A W B (k + 1) _ (by omega)]
    rw [set_inside A _ B q _ (by simpa using hqlt)]
    -- the swap keeps the items of the window
    have hswap : ((W.set (k + 1) W[q]).set q W[k + 1]).Perm W := List.set_set_perm (by omega) hqlt
    generalize hV : (W.set (k + 1) W[q]).set q W[k + 1] = V at hswap
    have hlen : V.length = W.length := hswap.length_eq
    obtain ⟨s1, hfix⟩ := fix_sentinel_returns (s := { s with items := A ++ (V ++ B) })
      (hW W[k + 1] (List.getElem_mem _)) (A.length + q)
    simp only [hfix, bind, Except.bind]
    rw [← hlen]
    have hn : s1.nodes.length = s.nodes.length := (fix_sentinel_frame hfix).nodes
    apply ih (by omega) (by omega) (fix_sentinel_items hfix)
    intro e he
    rw [hn]
    exact hW e (hswap.mem_iff.mp he)

/-- That loop leaves the first slot of the window alone. -/
theorem spread_loop_front (hj : 0 < j) (hle : j ≤ len) (h : spread_loop index len j k s = .ok s') :
    s'.items[index]? = s.items[index]? := by
  induction k generalizing s with
  | zero =>
    cases h
    rfl
  | succ k ih =>
    unfold spread_loop at h
    dsimp only at h
    obtain ⟨s1, hfix, h⟩ := bind_ok h
    have hge := spread_slot_ge index (k + 1) hj hle
    rw [ih h, fix_sentinel_items hfix]
    show ((s.items.set _ _).set _ _)[index]? = _
    rw [List.getElem?_set_ne (by omega), List.getElem?_set_ne (by omega)]

/-- A redistribution returns, and items can be moved again. -/
theorem redistribute_movable (h : Movable s) (hlen : 0 < len) (hin : index + len ≤ s.N) :
    ∃ s', redistribute s index len = .ok s' ∧ Movable s' := by
  obtain ⟨A, W, B, hitems, rfl, rfl⟩ := cut_window (by rw [h.items]; exact hin)
  obtain ⟨x, hx, hf⟩ := h.first
  have hfront : A = [] → W.filter full ≠ [] := by
    rintro rfl hnil
    rw [hitems, List.nil_append, List.getElem?_append_left hlen] at hx
    have hmem : x ∈ W.filter full := List.mem_filter.mpr ⟨List.mem_of_getElem? hx, hf⟩
    rw [hnil] at hmem
    cases hmem
  obtain ⟨g, s1, hg, hframe, hnodes, hitems1, hrun⟩ := redistribute_packed hitems (by
    by_cases hA : A = []
    · exact .inr (hfront hA)
    · left
      simpa using hA)
  rw [← List.append_assoc (W.filter full)] at hitems1
  generalize hP : W.filter full ++ List.replicate g null_edge = P at hitems1
  have hPlen : P.length = W.length := by
    rw [← hP]
    simpa using hg
  have hPmem : ∀ e ∈ P, e ∈ W.filter full ∨ e = null_edge := by
    intro e he
    rw [← hP] at he
    rcases List.mem_append.mp he with he | he
    · exact .inl he
    · exact .inr (List.eq_of_mem_replicate he)
  have hfix : ∀ e ∈ P, Fixable s.nodes.length e := by
    intro e he
    rcases hPmem e he with he | rfl
    · obtain ⟨hw, hfe⟩ := List.mem_filter.mp he
      exact h.named.fixable (by rw [hitems]; simp [hw]) hfe
    · exact fixable_null _
  rw [← hPlen] at hrun ⊢
  have hcount : (W.filter full).length ≤ P.length := by omega
  obtain ⟨s2, W', hloop, hW', hitems2, hfirst⟩ : ∃ s2 W', spread_loop A.length P.length
      (W.filter full).length ((W.filter full).length - 1) s1 = .ok s2 ∧ W'.Perm P ∧
      s2.items = A ++ (W' ++ B) ∧ s2.items[A.length]? = s1.items[A.length]? := by
    rcases Nat.eq_zero_or_pos (W.filter full).length with hz | hpos
    · rw [hz]
      exact ⟨s1, P, rfl, List.Perm.refl P, hitems1, rfl⟩
    · obtain ⟨s2, hloop⟩ := spread_loop_returns (k := (W.filter full).length - 1) (by omega) hcount
        hitems1 (by rw [hnodes]; exact hfix)
      obtain ⟨W', hW', hitems2⟩ := spread_loop_perm (by omega) hcount hitems1 hloop
      exact ⟨s2, W', hloop, hW', hitems2, spread_loop_front hpos hcount hloop⟩
  have hframe2 := hframe.trans (spread_loop_frame hloop)
  have hn2 : s2.nodes.length = s.nodes.length := hframe2.nodes
  have hW'len := hW'.length_eq
  -- the item in front of the window
  obtain ⟨y, hy⟩ : ∃ y, W'[0]? = some y := ⟨W'[0], List.getElem?_eq_getElem (by omega)⟩
  have hget : s2.items.getD A.length null_edge = y := by
    rw [List.getD_eq_getElem?_getD, hitems2, List.getElem?_append_right (le_refl _), Nat.sub_self,
      List.getElem?_append_left (by omega), hy]
    rfl
  obtain ⟨s3, hfix3⟩ := fix_sentinel_returns (s := s2) (e := y)
    (by rw [hn2]; exact hfix y (hW'.mem_iff.mp (List.mem_of_getElem? hy))) A.length
  have hframe3 := hframe2.trans (fix_sentinel_frame hfix3)
  have hitems3 := fix_sentinel_items hfix3
  refine ⟨s3, ?_, ?_, ?_, ?_⟩
  · rw [hrun]
    simp only [hloop, hget, hfix3, bind, Except.bind]
  · rw [hframe3.items, hframe3.N]
    exact h.items
  · rw [hitems3]
    rcases A with _ | ⟨a, A⟩
    · obtain ⟨w, W1, hw⟩ := List.exists_cons_of_ne_nil (hfront rfl)
      refine ⟨w, ?_, ?_⟩
      · rw [List.length_nil] at hfirst
        rw [hfirst, hitems1, ← hP, hw]
        simp
      · have hmem : w ∈ W.filter full := by
          rw [hw]
          simp
        exact (List.mem_filter.mp hmem).2
    · refine ⟨x, ?_, hf⟩
      rw [hitems] at hx
      rw [hitems2]
      simpa using hx
  · rw [hitems3, show s3.nodes.length = s.nodes.length from hframe3.nodes, hitems2]
    intro e he
    obtain ⟨hmem, hfe⟩ := List.mem_filter.mp he
    apply h.named
    refine List.mem_filter.mpr ⟨?_, hfe⟩
    rw [hitems]
    simp only [List.mem_append] at hmem ⊢
    rcases hmem with hmem | hmem | hmem
    · exact .inl hmem
    · rcases hPmem e (hW'.mem_iff.mp hmem) with hw | rfl
      · exact .inr (.inl (List.mem_filter.mp hw).1)
      · cases hfe
    · exact .inr (.inr hmem)

/-! ## The slide to the left -/

/-- The item in hand goes to the slot of `y`, and the node table is fixed, where it can be. -/
theorem carry_any {P Q : List Edge} {y : Edge} (hitems : s.items = P ++ y :: Q)
    (hv : full el = true → Fixable s.nodes.length el) :
    ∃ s1 s2, s.put P.length el = .ok s1 ∧ fix_item s1 el P.length = .ok s2 ∧ SameFrame s s2 ∧
      s2.items = P ++ el :: Q := by
  cases hf : full el with
  | true =>
    obtain ⟨s1, s2, hput, hfix, hframe, hitems2, -⟩ := carry hitems hf fun hs => (hv hf hs).1
    exact ⟨s1, s2, hput, hfix, hframe, hitems2⟩
  | false =>
    have hput := put_of_lt el (show P.length < s.items.length by rw [hitems]; simp)
    refine ⟨_, _, hput, ?_, put_frame hput, ?_⟩
    · unfold fix_item
      rw [if_pos (by simpa [full] using hf)]
    · show s.items.set P.length el = _
      rw [hitems]
      exact set_mid P Q y el

/-- The loop of `slide_left` over the run `Y` down to a gap, and the write of its first item. -/
theorem left_loop_moves {Y D : List Edge} {h : Edge} (hitems : s.items = A ++ h :: (Y ++ D))
    (hh : full h = false) (hY : ∀ y ∈ Y, full y = true)
    (hv : ∀ y ∈ Y ++ [el], full y = true → Fixable s.nodes.length y) :
    ∃ z t1 t2 t3, left_loop (A.length + 1 + Y.length) el s = .ok (some A.length, z, t1) ∧
      fix_item t1 z A.length = .ok t2 ∧ t2.put A.length z = .ok t3 ∧ SameFrame s t3 ∧
      t3.items = A ++ (Y ++ el :: D) := by
  induction Y using List.reverseRecOn generalizing s D el with
  | nil =>
    have hread : s.item A.length = .ok h := by
      rw [item_of_lt (by rw [hitems]; simp)]
      simp [hitems]
    obtain ⟨s1, s2, hput, hfix, hframe, hitems2⟩ := carry_any hitems (hv el (by simp))
    obtain ⟨u, hu, hput'⟩ := fix_item_put hput hfix
    exact ⟨el, s, u, s2, left_loop_stop hread hh, hu, hput', hframe, hitems2⟩
  | append_singleton Y y ih =>
    have hcut : s.items = (A ++ h :: Y) ++ y :: D := by
      rw [hitems]
      simp
    have hlen : (A ++ h :: Y).length = A.length + 1 + Y.length := by
      simp
      omega
    have hread : s.item (A ++ h :: Y).length = .ok y := by
      rw [item_of_lt (by rw [hcut]; simp)]
      simp [hcut]
    obtain ⟨s1, s2, hput, hfix, hframe, hitems2⟩ := carry_any hcut (hv el (by simp))
    obtain ⟨z, t1, t2, t3, hloop, hfix3, hput3, hframe3, hitems3⟩ :=
      ih (s := s2) (D := el :: D) (by rw [hitems2]; simp)
        (fun x hx => hY x (List.mem_append_left _ hx))
        (by rw [show s2.nodes.length = s.nodes.length from hframe.nodes]
            exact fun x hx => hv x (List.mem_append_left _ hx))
    refine ⟨z, t1, t2, t3, ?_, hfix3, hput3, hframe.trans hframe3, by rw [hitems3]; simp⟩
    rw [hlen] at hread hput hfix
    rw [List.length_append, List.length_singleton, ← Nat.add_assoc,
      left_loop_next hread (hY y (by simp)) hput hfix]
    exact hloop

/-- `slide_left` from the slot of `x`: the run in front of it and `x` move into the gap. -/
theorem slide_left_moves {Y : List Edge} {h x : Edge}
    (hitems : s.items = A ++ h :: (Y ++ x :: B)) (hh : full h = false)
    (hY : ∀ y ∈ Y, full y = true) (hv : ∀ y ∈ Y ++ [x], full y = true → Fixable s.nodes.length y) :
    ∃ s', slide_left s (A.length + 1 + Y.length) = .ok s' ∧ SameFrame s s' ∧
      s'.items = A ++ (Y ++ x :: null_edge :: B) := by
  have hcut : s.items = (A ++ h :: Y) ++ x :: B := by
    rw [hitems]
    simp
  have hlen : (A ++ h :: Y).length = A.length + 1 + Y.length := by
    simp
    omega
  have hread : s.item (A ++ h :: Y).length = .ok x := by
    rw [item_of_lt (by rw [hcut]; simp)]
    simp [hcut]
  obtain ⟨s1, s2, hput, hfix, hframe, hitems1⟩ :=
    carry_any hcut fun hf : full null_edge = true => by cases hf
  obtain rfl : s1 = s2 := by
    cases hfix
    rfl
  obtain ⟨z, t1, t2, t3, hloop, hfix3, hput3, hframe3, hitems3⟩ :=
    left_loop_moves (s := s1) (A := A) (Y := Y) (D := null_edge :: B) (by rw [hitems1]; simp) hh hY
      (by rw [show s1.nodes.length = s.nodes.length from hframe.nodes]; exact hv)
  rw [hlen] at hread hput
  refine ⟨t3, ?_, hframe.trans hframe3, hitems3⟩
  unfold slide_left
  simp only [slide_left_calls, hread, hput, hloop, hfix3, bind, Except.bind]
  exact hput3

end

/-! ## The slot for the edge -/

/-- The edge stands in slot `i`, and the gap at `q` is used up, whatever the node table holds. -/
structure Opened (s s1 : PCSR) (e : Edge) (p i q : Nat) : Prop where
  frame : SameFrame s s1
  movable : Movable s1
  exchange : gapped.Exchange full s.items s1.items q i e
  shifted : Shifted s p i q

section

variable {s s0 s1 s' : PCSR} {e : Edge} {p q i : Nat}

theorem IsItem.vertex {n : Nat} (h : IsItem n e) (hn : n ≤ UINT32_MAX) (hs : is_sentinel e = true) :
    e = sentinel e.src ∧ sentinel_vertex e = e.src := by
  have heq := h.sentinel_iff.mp hs
  refine ⟨heq, ?_⟩
  conv_lhs => rw [heq]
  exact sentinel_vertex_sentinel (h.src_lt.trans_le hn)

theorem WellFormed.named (h : WellFormed s) : Named s.nodes.length (s.items.filter full) := by
  intro e he hs
  have hitem := h.arranged.items e he
  rw [(hitem.vertex h.n_le hs).2]
  exact hitem.src_lt

theorem WellFormed.agreed (h : WellFormed s) : Agreed s := by
  constructor
  · intro i e hi hf hs
    obtain ⟨heq, hv⟩ := (h.arranged.slot_item hi hf).vertex h.n_le hs
    rw [hv]
    apply h.linked i
    rw [← heq]
    exact hi
  · intro n hn
    have hends := h.ends
    unfold EndsAt at hends
    rw [hn] at hends
    exact Option.some.inj hends

/-- The items are those of a well-formed array, but for one edge that came in. -/
theorem movable_of_exchange (h : WellFormed s) (hframe : SameFrame s s1) (he : IsEdge s.get_n e)
    (hex : gapped.Exchange full s.items s1.items q i e) (hi : 0 < i) : Movable s1 := by
  obtain ⟨A, B, C, D, g, hitems, hg, hitems1, heq, hA, -⟩ := id hex
  have hq : 0 < q := by
    apply Nat.pos_of_ne_zero
    rintro rfl
    have hfirst := h.first
    rw [hitems, List.length_eq_zero_iff.mp hA, List.nil_append, List.getElem?_cons_zero] at hfirst
    rw [Option.some.inj hfirst] at hg
    simp at hg
  refine ⟨?_, ⟨sentinel 0, ?_, full_sentinel 0⟩, ?_⟩
  · rw [hframe.items, hframe.N]
    exact h.sized.items
  · rw [hex.outside (.inl ⟨hq, hi⟩)]
    exact h.first
  · rw [show s1.nodes.length = s.nodes.length from hframe.nodes]
    intro x hx hs
    obtain ⟨hmem, hf⟩ := List.mem_filter.mp hx
    rw [hitems1] at hmem
    have hcases : x = e ∨ x ∈ C ++ D := by
      simp only [List.mem_append, List.mem_cons] at hmem ⊢
      tauto
    rcases hcases with rfl | hmem
    · rw [he.not_sentinel] at hs
      cases hs
    · apply h.named x _ hs
      refine List.mem_filter.mpr ⟨?_, hf⟩
      rw [← heq] at hmem
      rw [hitems]
      simp only [List.mem_append, List.mem_cons] at hmem ⊢
      tauto

/-- A gap takes the edge, whether it is the place of the edge or not. -/
theorem open_gap (h : WellFormed s) (he : IsEdge s.get_n e) (hpos : 0 < p) (hgap : IsGap s p) :
    ∃ s1, s.put p e = .ok s1 ∧ Opened s s1 e p p p := by
  obtain ⟨x, hx, hf⟩ := isGap_iff.mp hgap
  have hlt := (List.getElem?_eq_some_iff.mp hx).1
  have hput := put_of_lt e hlt
  have hsplit := split_at hx
  have hlen : (s.items.take p).length = p := by
    rw [List.length_take]
    omega
  have hset : s.items.set p e = s.items.take p ++ e :: s.items.drop (p + 1) := by
    have hmid := set_mid (s.items.take p) (s.items.drop (p + 1)) x e
    rw [hlen, ← hsplit] at hmid
    exact hmid
  have hex : gapped.Exchange full s.items (s.items.set p e) p p e :=
    ⟨_, _, _, _, x, hsplit, hf, hset, rfl, hlen, hlen⟩
  have hframe := put_frame hput
  exact ⟨_, hput, hframe, movable_of_exchange h hframe he hex hpos, hex,
    .inl ⟨rfl, le_refl p, hgap, fun k h1 h2 => by omega⟩⟩

/-- Without a gap from `p` on: the slide to the right goes off the end and back, and the slide to
the left opens slot `p - 1`. -/
theorem open_left (h : WellFormed s) (he : IsEdge s.get_n e) (hlast : p < s.N - 1)
    (hfull : ∀ k, p ≤ k → ¬ IsGap s k) (hq : q + 1 < p) (hgap : IsGap s q) :
    ∃ sa s0 s1 q', slide_right s p = .ok (true, sa) ∧ slide_left sa (p - 1) = .ok s0 ∧
      s0.put (p - 1) e = .ok s1 ∧ Opened s s1 e p (p - 1) q' ∧ q ≤ q' := by
  have hN := h.sized.items
  have hlen : (s.items.take p).length = p := by
    rw [List.length_take]
    omega
  have hdropfull : ∀ y ∈ s.items.drop p, full y = true := by
    intro y hy
    obtain ⟨k, hk⟩ := List.mem_iff_getElem?.mp hy
    rw [List.getElem?_drop] at hk
    by_contra hf
    exact hfull (p + k) (by omega) (isGap_iff.mpr ⟨y, hk, by simpa using hf⟩)
  obtain ⟨Z, w, z, hdrop⟩ := two_at_end (show 2 ≤ (s.items.drop p).length by
    rw [List.length_drop]
    omega)
  have hsplit : s.items = s.items.take p ++ (Z ++ [w, z]) := by
    rw [← hdrop, List.take_append_drop]
  obtain ⟨sa, hright, hitemsa, hframea, htouch, -⟩ := slide_right_full h.agreed hN hsplit
    (by rw [← hdrop]; exact hdropfull)
  rw [hlen] at hright
  -- back to the left
  have hp1 : p - 1 < s.items.length := by omega
  have hget : s.items[p - 1]? = some s.items[p - 1] := List.getElem?_eq_getElem hp1
  generalize s.items[p - 1] = x at hget
  obtain ⟨A, g, Y, htake, hY, hg, hqA⟩ := gapped.last_hole
    (show gapped.Hole full (s.items.take (p - 1)) q by
      obtain ⟨y, hy, hyf⟩ := isGap_iff.mp hgap
      refine ⟨y, ?_, hyf⟩
      rw [List.getElem?_take, if_pos (by omega)]
      exact hy)
  have hAY : A.length + 1 + Y.length = p - 1 := by
    have hl := congrArg List.length htake
    simp only [List.length_take, List.length_append, List.length_cons] at hl
    omega
  have hcut := split_at hget
  rw [htake, show p - 1 + 1 = p by omega] at hcut
  have hitems : s.items = A ++ g :: (Y ++ x :: s.items.drop p) := by
    conv_lhs => rw [hcut]
    simp
  obtain ⟨s0, hleft, hframe0, hitems0⟩ := slide_left_moves (hitemsa.trans hitems) hg hY (by
    intro y hy hf
    rw [htouch.length]
    apply h.named.fixable _ hf
    rw [hitems]
    simp only [List.mem_append, List.mem_cons, List.not_mem_nil, or_false] at hy ⊢
    tauto)
  rw [hAY] at hleft
  have hlen0 : (A ++ (Y ++ [x])).length = p - 1 := by
    simp only [List.length_append, List.length_singleton]
    omega
  have hput := put_of_lt e (show p - 1 < s0.items.length by
    rw [hframe0.items, hitemsa]
    exact hp1)
  have hset : s0.items.set (p - 1) e = (A ++ (Y ++ [x])) ++ e :: s.items.drop p := by
    rw [hitems0, ← hlen0, ← set_mid (A ++ (Y ++ [x])) _ null_edge e]
    simp
  have hex : gapped.Exchange full s.items (s0.items.set (p - 1) e) A.length (p - 1) e :=
    ⟨A, Y ++ x :: s.items.drop p, _, _, g, hitems, hg, hset, by simp, rfl, hlen0⟩
  have hframe := (hframea.trans hframe0).trans (put_frame hput)
  refine ⟨sa, s0, _, A.length, hright, hleft, hput,
    ⟨hframe, movable_of_exchange h hframe he hex (by omega), hex, .inr ⟨by omega, by omega, hfull, ?_⟩⟩,
    hqA⟩
  intro k hk hkp hkgap
  obtain ⟨y, hy, hyf⟩ := isGap_iff.mp hkgap
  obtain ⟨m, rfl⟩ : ∃ m, k = A.length + 1 + m := ⟨k - (A.length + 1), by omega⟩
  rw [hitems, List.getElem?_append_right (by omega),
    show A.length + 1 + m - A.length = m + 1 by omega, List.getElem?_cons_succ,
    List.getElem?_append_left (by omega)] at hy
  rw [hY y (List.mem_of_getElem? hy)] at hyf
  cases hyf

/-- An item of another edge in the slot, and no gap from there on. -/
theorem insert_calls_turns (h : WellFormed s) (he : IsEdge s.get_n e) (hp : Place s e p)
    (hnot : ¬ Stores s e p) (hlast : p < s.N - 1) (hfull : ∀ k, p ≤ k → ¬ IsGap s k)
    (hq : q + 1 < p) (hgap : IsGap s q) :
    ∃ s0 s1 q', s0.put (p - 1) e = .ok s1 ∧ Opened s s1 e p (p - 1) q' ∧
      ∀ calls src info, insert_calls (calls + 1) s p e src info =
        insert_item s0 (p - 1) (find_leaf s.N p) e info := by
  have hpl : p < s.items.length := by
    rw [h.sized.items]
    exact hp.lt
  have hget : s.items[p]? = some s.items[p] := List.getElem?_eq_getElem hpl
  generalize s.items[p] = x at hget
  have hread : s.item p = .ok x := by
    unfold PCSR.item
    rw [hget]
  have hnull : x.is_null = false := by
    cases hx : x.is_null with
    | false => rfl
    | true => exact absurd ⟨x, hget, hx⟩ (hfull p (le_refl p))
  have hne : p ≠ s.N - 1 := by omega
  have hdest : (x.dest == e.dest) = false := by
    rcases hp.at_ x hget (by simp [full, hnull]) with hst | ⟨-, hd⟩
    · exact absurd hst hnot
    · simpa using hd
  obtain ⟨sa, s0, s1, q', hslide, hleft, hput, hop, -⟩ := open_left h he hlast hfull hq hgap
  refine ⟨s0, s1, q', hput, hop, ?_⟩
  intro calls src info
  conv_lhs => unfold insert_calls
  simp only [hread, bind, Except.bind, hnull, hdest, hne, hslide, hleft, Bool.and_false,
    Bool.false_eq_true, if_false, if_true]

/-- The slides, or the gap itself, open a slot for the edge: unless no slot is free that they reach. -/
theorem insert_calls_moves (h : WellFormed s) (he : IsEdge s.get_n e) (hpos : 0 < p)
    (hp : IsGap s p ∨ (Place s e p ∧ p < s.N - 1 ∧ ¬ Stores s e p))
    (hgaps : (∃ q, p ≤ q ∧ IsGap s q) ∨ ∃ q, q + 1 < p ∧ IsGap s q) :
    ∃ s0 s1 i q, s0.put i e = .ok s1 ∧ Opened s s1 e p i q ∧
      ∀ calls src info, insert_calls (calls + 1) s p e src info =
        insert_item s0 i (find_leaf s.N p) e info := by
  by_cases hgap : IsGap s p
  · obtain ⟨s1, hput, hop⟩ := open_gap h he hpos hgap
    refine ⟨s, s1, p, p, hput, hop, ?_⟩
    intro calls src info
    obtain ⟨x, hx, hnull⟩ := hgap
    have hread : s.item p = .ok x := by
      unfold PCSR.item
      rw [hx]
    unfold insert_calls
    simp only [hread, bind, Except.bind, hnull, if_true]
  obtain ⟨hplace, hlast, hnot⟩ := hp.resolve_left hgap
  by_cases hright : ∃ q, p ≤ q ∧ IsGap s q
  · obtain ⟨s0, s1, i, q, hput, hpl, hshift, hrun⟩ := insert_calls_opens h he hplace hnot (.inl hright)
      (fun hl => by omega)
    have hi : 0 < i := by
      rcases hshift with ⟨rfl, -⟩ | ⟨-, hqi, -⟩
      · exact hpos
      · omega
    exact ⟨s0, s1, i, q, hput, ⟨hpl.frame, movable_of_exchange h hpl.frame he hpl.exchange hi,
      hpl.exchange, hshift⟩, hrun⟩
  · obtain ⟨q, hq, hqgap⟩ := hgaps.resolve_left hright
    obtain ⟨s0, s1, q', hput, hop, hrun⟩ := insert_calls_turns h he hplace hnot hlast
      (fun k hk hkgap => hright ⟨k, hk, hkgap⟩) hq hqgap
    exact ⟨s0, s1, p - 1, q', hput, hop, hrun⟩

/-! ## The redistributions -/

/-- The insertion from the write on, with a window for its plan: it changes the leaf of slot `p`, or
the pair of leaves where that leaf is full, and the window. -/
theorem insert_item_moves {info : insertion_info} (hput : s0.put i e = .ok s1) (hm : Movable s1)
    (hpow : Pow s1.N) (hp : p < s1.N) (hsize : logN s1.N * 2 ≤ s1.N) (hd : info.double_list = false)
    {i0 : Nat} (hi0 : i0 < s1.N) (hwin : Window s1.N i0 info.max_len info.node_index_final) :
    ∃ s' len, insert_item s0 i (find_leaf s1.N p) e (some info) = .ok s' ∧ SameFrame s1 s' ∧
      (len = logN s1.N ∨
        (len = logN s1.N * 2 ∧ filled s1.items (find_leaf s1.N p) (logN s1.N) = logN s1.N)) ∧
      ∀ k, ¬ (find_node p len ≤ k ∧ k < find_node p len + len) →
        ¬ (info.node_index_final ≤ k ∧ k < info.node_index_final + info.max_len) →
        s'.items[k]? = s1.items[k]? := by
  have hN : s1.N = s0.N := (put_frame hput).N
  have hleaf := find_leaf_window hpow p
  rw [Nat.pow_zero, Nat.mul_one] at hleaf
  -- a redistribution, and the last one
  have hrest : ∀ len ni, Window s1.N p len ni → ∃ s2 s', redistribute s1 ni len = .ok s2 ∧
      insert_finish s2 ni (some info) = .ok s' ∧ SameFrame s1 s' ∧
      ∀ k, ¬ (ni ≤ k ∧ k < ni + len) →
        ¬ (info.node_index_final ≤ k ∧ k < info.node_index_final + info.max_len) →
        s'.items[k]? = s1.items[k]? := by
    intro len ni hw
    obtain ⟨s2, hred, hm2⟩ := redistribute_movable hm hw.len_pow.pos (hw.in_array hpow hp)
    have hframe2 := redistribute_frame hred
    have hN2 := hframe2.N
    have hout := (redistribute_shuffled hred).outside
    by_cases hlt : logN s1.N < info.max_len
    · obtain ⟨s', hred', -⟩ := redistribute_movable hm2 hwin.len_pow.pos
        (show info.node_index_final + info.max_len ≤ s2.N by rw [hN2]; exact hwin.in_array hpow hi0)
      refine ⟨s2, s', hred, ?_, hframe2.trans (redistribute_frame hred'), ?_⟩
      · unfold insert_finish
        simp only [hd, Bool.false_eq_true, if_false, hN2, hlt, if_true, pure_bind]
        exact hred'
      · intro k hk hk'
        rw [(redistribute_shuffled hred').outside k hk', hout k hk]
    · refine ⟨s2, s2, hred, ?_, hframe2, fun k hk _ => hout k hk⟩
      unfold insert_finish
      simp only [hd, Bool.false_eq_true, if_false, hN2, hlt, pure_bind]
      rfl
  obtain ⟨d, hdens⟩ := get_density_exists
    (show find_leaf s1.N p + logN s1.N ≤ s1.items.length by
      rw [hm.items]
      exact hleaf.in_array hpow hp)
  unfold insert_item
  rw [← hN]
  simp only [hput, hdens, bind, Except.bind]
  by_cases hd1 : d = 1
  · have hfull := (filled_full (logN_pos s1.N) hdens).mp hd1
    have hpair := hleaf.up hsize
    obtain ⟨s2, s', hred, hfin, hframe, hout⟩ := hrest _ _ hpair
    refine ⟨s', logN s1.N * 2, ?_, hframe, .inr ⟨rfl, hfull⟩, ?_⟩
    · rw [if_pos hd1]
      simp only [hred, hfin]
    · rw [← hpair.at_]
      exact hout
  · obtain ⟨s2, s', hred, hfin, hframe, hout⟩ := hrest _ _ hleaf
    refine ⟨s', logN s1.N, ?_, hframe, .inl rfl, ?_⟩
    · rw [if_neg hd1]
      simp only [hred, hfin]
    · rw [← hleaf.at_]
      exact hout

/-! ## The plan -/

theorem insert_first_locks_ok {lock_bsearch : Bool} {node_id mn : Nat}
    (h : exec (insert_first_locks lock_bsearch node_id none) s = .ok (mn, s')) : s' = s := by
  unfold insert_first_locks at h
  dsimp only at h
  split at h
  · obtain ⟨_, t1, h1, h⟩ := exec_bind_inv h
    obtain ⟨_, t2, h2, h⟩ := exec_bind_inv h
    cases h
    rw [exec_leaf_ok h2, exec_leaf_ok h1]
  · obtain ⟨_, t1, h1, h⟩ := exec_bind_inv h
    cases h
    exact exec_leaf_ok h1

/-- An item in the last slot: no leaves are held for an insertion there. -/
theorem no_range_at_end {lock_bsearch : Bool} {src v tries a b : Nat} {info : Option insertion_info}
    {x : Edge} (hx : s.items[s.N - 1]? = some x) (hf : full x = true) :
    exec (acquire_insert_locks s.N lock_bsearch (s.N - 1) e src v (tries + 1) none) s ≠
      .ok ((.range a b, info), s') := by
  intro h
  have hnull : x.is_null = false := by simpa [full] using hf
  have hread : s.item (s.N - 1) = .ok x := by
    unfold PCSR.item
    rw [hx]
  unfold acquire_insert_locks at h
  obtain ⟨r, t, htry, h⟩ := exec_bind_inv h
  have hspecial : ∃ c i, r = .inr (.special c, i) := by
    unfold insert_try at htry
    obtain ⟨mn, t1, hfirst, htry⟩ := exec_bind_inv htry
    obtain rfl := insert_first_locks_ok hfirst
    obtain ⟨version, -, htry⟩ := exec_look_inv htry
    rw [exec_bind_ok (exec_test _ _)] at htry
    split at htry
    · obtain ⟨_, t2, -, htry⟩ := exec_bind_inv htry
      cases htry
      exact ⟨_, _, rfl⟩
    · rw [exec_look_bind hread, if_pos (by simp [hnull])] at htry
      obtain ⟨_, t2, -, htry⟩ := exec_bind_inv htry
      cases htry
      exact ⟨_, _, rfl⟩
  obtain ⟨c, i, rfl⟩ := hspecial
  cases h

/-- Where the search leads: a free slot, the place of the edge, or an item in the last slot. -/
theorem search_slot (h : WellFormed s) (hN : 1 < s.N) (he : IsEdge s.get_n e) :
    ∃ p, find_in_node s e e.src = .ok p ∧ p < s.N ∧ 0 < p ∧
      (IsGap s p ∨ Place s e p ∨ PastEnd s e p) := by
  obtain ⟨node, p, v, hnode, hrun, -, b, en, hb, ha⟩ := search_region h he rfl
  refine ⟨p, find_in_node_of hnode hrun, ?_⟩
  have hcases : (0 < p ∧ IsGap s p) ∨ Place s e p ∨ PastEnd s e p := by
    rcases ha with ha | hpast
    · by_cases hgap : IsGap s p
      · exact .inl ⟨by have := ha.ge; omega, hgap⟩
      · exact .inr (ha.place_full h hgap he hb)
    · exact .inr (.inr hpast)
  rcases hcases with ⟨hpos, hgap⟩ | hp | hp
  · obtain ⟨x, hx, -⟩ := id hgap
    have hlt := (List.getElem?_eq_some_iff.mp hx).1
    rw [h.sized.items] at hlt
    exact ⟨hlt, hpos, .inl hgap⟩
  · exact ⟨hp.lt, hp.pos, .inr (.inl hp)⟩
  · have hl := hp.last
    exact ⟨by omega, by omega, .inr (.inr hp)⟩

theorem IsGap.lt (h : IsGap s q) (hs : Sized s) : q < s.N := by
  obtain ⟨x, hx, -⟩ := h
  rw [← hs.items]
  exact (List.getElem?_eq_some_iff.mp hx).1

theorem lt_mul_of_div_le {N k b : Nat} (h : k / logN N ≤ b) : k < (b + 1) * logN N :=
  (Nat.div_lt_iff_lt_mul (logN_pos N)).mp (Nat.lt_succ_of_le h)

section

variable {a b : Nat} {info : insertion_info}

/-- The window of the plan has two gaps: with no gap from `p` on, one of them is not next to `p`. -/
theorem Covers.gap_left (hc : Covers s s.N p a b info) (hs : Sized s) (hsize : logN s.N * 2 ≤ s.N)
    (hfull : ∀ k, p ≤ k → ¬ IsGap s k) : ∃ j, a * logN s.N ≤ j ∧ j + 1 < p ∧ IsGap s j := by
  have hL := logN_pos s.N
  have hheight : height s.N ≠ 0 := by
    intro hh
    have hN := height_eq hs.pow
    rw [hh, Nat.pow_zero, Nat.mul_one] at hN
    omega
  obtain ⟨hroom, -⟩ := hc.spill.resolve_left hheight
  obtain ⟨i0, hi0, hwin⟩ := hc.window
  obtain ⟨j, k, hj, hjk, -, hgapj, hgapk⟩ := two_gaps
    (by rw [hs.items]; exact hwin.in_array hs.pow hi0) hroom
  have hkp : k < p := by
    by_contra hge
    exact hfull k (Nat.le_of_not_lt hge) hgapk
  exact ⟨j, hc.window_left.trans hj, by omega, hgapj⟩

/-- The slides find a slot: from `p` on, or more than one slot left of it. -/
theorem Covers.gaps (hc : Covers s s.N p a b info) (hs : Sized s) (hsize : logN s.N * 2 ≤ s.N) :
    (∃ q, p ≤ q ∧ IsGap s q) ∨ ∃ q, q + 1 < p ∧ IsGap s q := by
  by_cases hright : ∃ q, p ≤ q ∧ IsGap s q
  · exact .inl hright
  · obtain ⟨j, -, hj, hgap⟩ := hc.gap_left hs hsize fun k hk hkgap => hright ⟨k, hk, hkgap⟩
    exact .inr ⟨j, hj, hgap⟩

/-- The slots that the slides touch lie in the leaves from `a` to `b`. -/
theorem Covers.shifted (hc : Covers s s.N p a b info) (hs : Sized s) (hsize : logN s.N * 2 ≤ s.N)
    (h : Shifted s p i q) :
    (a * logN s.N ≤ q ∧ a * logN s.N ≤ i) ∧ q < (b + 1) * logN s.N ∧ i < (b + 1) * logN s.N := by
  have hleft := mul_le_of_le_div hc.leaf_left
  have hright := lt_mul_of_div_le hc.leaf_right
  rcases h with ⟨rfl, hiq, hgap, hrun⟩ | ⟨hip, hqi, hfull, hrun⟩
  · -- the first gap from the slot on
    have hq : q < (b + 1) * logN s.N := by
      rcases hc.slides with hi | ⟨hi, hslide⟩ | ⟨hi, hslide, -⟩
      · rcases Nat.eq_or_lt_of_le hiq with rfl | hlt
        · exact hright
        · exact absurd hi (hrun i (le_refl i) hlt)
      · obtain ⟨m, him, -, hm, hmb, -⟩ := hslide
        refine Nat.lt_of_le_of_lt ?_ (lt_mul_of_div_le hmb)
        by_contra hlt
        exact hrun m (by omega) (by omega) hm
      · rcases Nat.eq_or_lt_of_le hiq with rfl | hlt
        · exact absurd hgap hi
        · exact absurd hgap (hslide q hlt (hgap.lt hs)).1
    exact ⟨⟨by omega, hleft⟩, hq, hright⟩
  · -- the last gap that is not next to the slot
    obtain ⟨j, haj, hj, hgap⟩ := hc.gap_left hs hsize hfull
    have hjq : j ≤ q := by
      by_contra hlt
      exact hrun j (by omega) (by omega) hgap
    exact ⟨⟨by omega, by omega⟩, by omega, by omega⟩

/-- The slots that the first redistribution touches lie in the leaves from `a` to `b`. -/
theorem Covers.spread {len : Nat} (hc : Covers s s.N p a b info) (hs : Sized s)
    (hsize : logN s.N * 2 ≤ s.N) (hlen : len = logN s.N ∨
      (len = logN s.N * 2 ∧ logN s.N ≤ filled s.items (find_leaf s.N p) (logN s.N) + 1)) :
    a * logN s.N ≤ find_node p len ∧ find_node p len + len ≤ (b + 1) * logN s.N := by
  have hL := logN_pos s.N
  rcases hlen with rfl | ⟨rfl, hfull⟩
  · rw [← find_leaf_eq, find_leaf_add]
    exact ⟨Nat.mul_le_mul_right _ hc.leaf_left, Nat.mul_le_mul_right _ (Nat.succ_le_succ hc.leaf_right)⟩
  · have hheight : height s.N ≠ 0 := by
      intro hh
      have hN := height_eq hs.pow
      rw [hh, Nat.pow_zero, Nat.mul_one] at hN
      omega
    exact (hc.spill.resolve_left hheight).2 hfull

end

theorem outside_leaves {N a b k : Nat} (h : ¬ (a ≤ k / logN N ∧ k / logN N ≤ b)) :
    k < a * logN N ∨ (b + 1) * logN N ≤ k := by
  by_contra hc
  push Not at hc
  exact h ⟨le_div_of_mul_le hc.1, Nat.le_of_lt_succ ((Nat.div_lt_iff_lt_mul (logN_pos N)).mpr hc.2)⟩

/-- With the leaves of its plan held, an insertion at a slot where the edge belongs, or at any gap,
changes no slot of another leaf, and it neither resizes the array nor touches a version. -/
theorem Covers.insert_stays {a b : Nat} {info : insertion_info} (hc : Covers s s.N p a b info)
    (h : WellFormed s) (hsize : logN s.N * 2 ≤ s.N) (he : IsEdge s.get_n e) (hpos : 0 < p)
    (hp : p < s.N) (hslot : IsGap s p ∨ Place s e p ∨ PastEnd s e p) (hend : p = s.N - 1 → IsGap s p) :
    ∃ s', insert s p e e.src (some info) = .ok s' ∧ SameFrame s s' ∧
      ∀ k, ¬ (a ≤ k / logN s.N ∧ k / logN s.N ≤ b) → s'.items[k]? = s.items[k]? := by
  by_cases hst : Stores s e p
  · -- the edge is stored, and gets its value
    obtain ⟨s', hins, -, rfl⟩ : ∃ s', insert_calls 3 s p e e.src (some info) = .ok s' ∧
        Inserted s s' e ∧ s' = { s with items := s.items.set p e } := insert_calls_stored h he hst
    refine ⟨_, hins, ⟨rfl, by simp, rfl, rfl, rfl⟩, fun k hk => ?_⟩
    have := outside_leaves hk
    have := mul_le_of_le_div hc.leaf_left
    have := lt_mul_of_div_le hc.leaf_right
    exact List.getElem?_set_ne (by omega)
  have hplace : IsGap s p ∨ (Place s e p ∧ p < s.N - 1 ∧ ¬ Stores s e p) := by
    by_cases hgap : IsGap s p
    · exact .inl hgap
    · have hne : p ≠ s.N - 1 := fun hl => hgap (hend hl)
      rcases hslot.resolve_left hgap with hpl | hpl
      · exact .inr ⟨hpl, by omega, hst⟩
      · exact absurd hpl.last hne
  obtain ⟨s0, s1, j, q, hput, hop, hcalls⟩ := insert_calls_moves h he hpos hplace (hc.gaps h.sized hsize)
  obtain ⟨i0, hi0, hwin⟩ := hc.window
  have hN := hop.frame.N
  have hcount := hop.exchange.count_le he.full (find_leaf s.N p) (logN s.N)
  obtain ⟨s', len, hins, hframe, hlen, hout⟩ := insert_item_moves (p := p) hput hop.movable
    (by rw [hN]; exact h.sized.pow) (by rw [hN]; exact hp) (by rw [hN]; exact hsize) hc.no_double
    (by rw [hN]; exact hi0) (by rw [hN]; exact hwin)
  rw [hN] at hins hlen
  refine ⟨s', (hcalls 2 e.src (some info)).trans hins, hop.frame.trans hframe, fun k hk => ?_⟩
  obtain ⟨hshift1, hshift2⟩ := hc.shifted h.sized hsize hop.shifted
  have hspread : a * logN s.N ≤ find_node p len ∧ find_node p len + len ≤ (b + 1) * logN s.N := by
    apply hc.spread h.sized hsize
    rcases hlen with hlen | ⟨hlen, hfull⟩
    · exact .inl hlen
    · refine .inr ⟨hlen, ?_⟩
      rw [filled_eq] at hfull ⊢
      omega
  have hwl := hc.window_left
  have hwr := hc.window_right
  have hk' := outside_leaves hk
  rw [hout k (by omega) (by omega)]
  apply hop.exchange.outside
  omega

/-- Leaves are held for an insertion in the last slot only where that slot is free. -/
theorem gap_of_range {lock_bsearch : Bool} {src v tries a b : Nat} {info : Option insertion_info}
    (hs : Sized s) (hp : p < s.N) (hrun : exec (acquire_insert_locks s.N lock_bsearch p e src v
      (tries + 1) none) s = .ok ((.range a b, info), s')) (hlast : p = s.N - 1) : IsGap s p := by
  subst hlast
  by_contra hgap
  obtain ⟨x, hx⟩ : ∃ x, s.items[s.N - 1]? = some x :=
    ⟨_, List.getElem?_eq_getElem (by rw [hs.items]; exact hp)⟩
  refine no_range_at_end hx ?_ hrun
  cases hf : full x with
  | true => rfl
  | false => exact absurd (gap_of_null hx hf) hgap

/-! ## The law -/

end

end packed_csr
