-- The insertion of an edge into a well-formed array: the slides that open a slot for it, the
-- write, and the redistributions behind it.
import PackedCsr.Regions
import PackedCsr.Settling

namespace packed_csr

open effects

/-! ## A new item -/

/-- The edge comes in at its place in the order. An edge with its destination goes out. -/
def Added (e : Edge) (c c' : List Edge) : Prop :=
  ∃ X Y, c' = X ++ e :: Y ∧ (∀ x ∈ X, Before x e) ∧ (∀ y ∈ Y, Before e y) ∧
    (c = X ++ Y ∨ ∃ x, is_sentinel x = false ∧ x.src = e.src ∧ x.dest = e.dest ∧ c = X ++ x :: Y)

/-- The edge stands in slot `i`, and the gap at `q` is used up. -/
structure Placed (s s1 : PCSR) (e : Edge) (i q : Nat) : Prop where
  wf : WellFormed s1
  frame : SameFrame s s1
  exchange : gapped.Exchange full s.items s1.items q i e
  added : Added e (s.items.filter full) (s1.items.filter full)

section

variable {s s0 s1 : PCSR} {e x : Edge} {p q : Nat}

theorem arranged_insert {n : Nat} {X Y : List Edge} (h : Arranged n (X ++ Y)) (he : IsItem n e)
    (hX : ∀ x ∈ X, Before x e) (hY : ∀ y ∈ Y, Before e y) : Arranged n (X ++ e :: Y) := by
  obtain ⟨hsX, hsY, hXY⟩ := List.pairwise_append.mp h.sorted
  refine ⟨?_, ?_, ?_⟩
  · rw [List.pairwise_append]
    refine ⟨hsX, List.pairwise_cons.mpr ⟨hY, hsY⟩, ?_⟩
    intro x hx y hy
    rcases List.mem_cons.mp hy with rfl | hy
    · exact hX x hx
    · exact hXY x hx y hy
  · intro x hx
    rcases List.mem_append.mp hx with hx | hx
    · exact h.items x (List.mem_append_left _ hx)
    · rcases List.mem_cons.mp hx with rfl | hx
      · exact he
      · exact h.items x (List.mem_append_right _ hx)
  · intro v hv
    rcases List.mem_append.mp (h.sentinels v hv) with hm | hm
    · exact List.mem_append_left _ hm
    · exact List.mem_append_right _ (List.mem_cons_of_mem _ hm)

/-- The write of an edge into a gap that the slides have opened behind `C`. -/
theorem put_edge {A B C D : List Edge} {g : Edge} (h : WellFormed s) (hframe : SameFrame s s0)
    (ht : Tidy s0) (hends : EndsAt s0.nodes s0.N) (he : IsEdge s.get_n e)
    (hitems : s.items = A ++ x :: B) (hx : full x = false) (hitems0 : s0.items = C ++ g :: D)
    (heq : A ++ B = C ++ D) (hC : ∀ y ∈ C, full y = true → Before y e)
    (hD : ∀ y ∈ D, full y = true → Before e y) (hpos : C ≠ []) :
    ∃ s1, s0.put C.length e = .ok s1 ∧ Placed s s1 e C.length A.length := by
  have hi : C.length < s0.items.length := by
    rw [hitems0]
    simp
  have hput := put_of_lt e hi
  generalize hs1 : ({ s0 with items := s0.items.set C.length e } : PCSR) = s1 at hput
  have hframe1 := hframe.trans (put_frame hput)
  have hitems1 : s1.items = C ++ e :: D := by
    rw [← hs1, hitems0]
    exact set_mid C D g e
  have hcontents : s.items.filter full = C.filter full ++ D.filter full := by
    rw [← List.filter_append, ← heq, hitems, List.filter_append, List.filter_append,
      List.filter_cons_of_neg (by simp [hx])]
  have hcontents1 : s1.items.filter full = C.filter full ++ e :: D.filter full := by
    rw [hitems1, List.filter_append, List.filter_cons_of_pos he.full]
  have hbefore : ∀ y ∈ C.filter full, Before y e := fun y hy => hC y (List.mem_filter.mp hy).1
    (List.mem_filter.mp hy).2
  have hbehind : ∀ y ∈ D.filter full, Before e y := fun y hy => hD y (List.mem_filter.mp hy).1
    (List.mem_filter.mp hy).2
  refine ⟨s1, hput, ⟨⟨?_, ?_, ?_⟩, ?_, ?_, ?_, ?_, ?_, ?_⟩, hframe1, ?_, ?_⟩
  · rw [hframe1.N]
    exact h.sized.pow
  · rw [hframe1.items, hframe1.N]
    exact h.sized.items
  · rw [hframe1.versions, hframe1.N]
    exact h.sized.versions
  · rw [hframe1.get_n]
    exact h.n_pos
  · rw [hframe1.get_n]
    exact h.n_le
  · rw [hcontents1, hframe1.get_n]
    have harr := h.arranged
    rw [hcontents] at harr
    exact arranged_insert harr (.inl he) hbefore hbehind
  · -- the first slot is not the one that is written
    have hfirst := h.first
    cases A with
    | nil =>
      rw [hitems] at hfirst
      simp only [List.nil_append, List.getElem?_cons_zero, Option.some.injEq] at hfirst
      rw [hfirst] at hx
      simp at hx
    | cons a A =>
      cases C with
      | nil => exact absurd rfl hpos
      | cons y C =>
        rw [hitems] at hfirst
        rw [hitems1]
        simp only [List.cons_append, List.cons.injEq] at heq
        simpa [heq.1] using hfirst
  · intro i v hv
    rw [hitems1] at hv
    have hnodes : s1.nodes = s0.nodes := by rw [← hs1]
    rw [hnodes]
    apply ht.linked i v
    rw [hitems0]
    rcases Nat.lt_trichotomy i C.length with hlt | rfl | hgt
    · rw [List.getElem?_append_left hlt] at hv ⊢
      exact hv
    · simp only [List.getElem?_append_right (le_refl _), Nat.sub_self, List.getElem?_cons_zero,
        Option.some.injEq] at hv
      have hns := he.not_sentinel
      simp [hv] at hns
    · rw [List.getElem?_append_right (by omega)] at hv ⊢
      rw [show i - C.length = i - C.length - 1 + 1 by omega, List.getElem?_cons_succ] at hv ⊢
      exact hv
  · rw [← hs1]
    exact hends
  · exact ⟨A, B, C, D, x, hitems, hx, hitems1, heq, rfl, rfl⟩
  · exact ⟨C.filter full, D.filter full, hcontents1, hbefore, hbehind, .inl hcontents⟩

/-! ## The slot for the edge -/

theorem Place.before_take (hp : Place s e p) :
    ∀ y ∈ s.items.take p, full y = true → Before y e := by
  intro y hy hf
  obtain ⟨i, hi⟩ := List.mem_iff_getElem?.mp hy
  rw [List.getElem?_take] at hi
  split at hi
  · rename_i hlt
    exact hp.before i y hlt hi hf
  · cases hi

theorem Place.after_drop (hp : Place s e p) :
    ∀ y ∈ s.items.drop (p + 1), full y = true → Before e y := by
  intro y hy hf
  obtain ⟨i, hi⟩ := List.mem_iff_getElem?.mp hy
  rw [List.getElem?_drop] at hi
  exact hp.after _ y (by omega) hi hf

theorem Place.at_before (hp : Place s e p) (hnot : ¬ Stores s e p) (hx : s.items[p]? = some x)
    (hf : full x = true) : Before e x := by
  rcases hp.at_ x hx hf with hst | ⟨hbefore, -⟩
  · exact absurd hst hnot
  · exact hbefore

theorem take_ne_nil (h : WellFormed s) (hp : 0 < p) : s.items.take p ≠ [] := by
  have hpos := h.sized.pow.pos
  rw [← h.sized.items] at hpos
  intro hnil
  have hlen := congrArg List.length hnil
  rw [List.length_take, List.length_nil] at hlen
  omega

theorem place_gap (h : WellFormed s) (he : IsEdge s.get_n e) (hp : Place s e p)
    (hgap : IsGap s p) : ∃ s1, s.put p e = .ok s1 ∧ Placed s s1 e p p := by
  obtain ⟨x, hx, hf⟩ := isGap_iff.mp hgap
  have hsplit := split_at hx
  have hlen : (s.items.take p).length = p := by
    have := (List.getElem?_eq_some_iff.mp hx).1
    simp
    omega
  obtain ⟨s1, hput, hplaced⟩ := put_edge h (SameFrame.refl s) h.tidy h.ends he hsplit hf hsplit rfl
    hp.before_take hp.after_drop (take_ne_nil h hp.pos)
  rw [hlen] at hput hplaced
  exact ⟨s1, hput, hplaced⟩

theorem place_right (h : WellFormed s) (he : IsEdge s.get_n e) (hp : Place s e p)
    (hnot : ¬ Stores s e p) (hfull : ¬ IsGap s p) (hq : p < q) (hgap : IsGap s q) :
    ∃ s0 s1 q', slide_right s p = .ok (false, s0) ∧ s0.put p e = .ok s1 ∧ Placed s s1 e p q' ∧
      p < q' ∧ q' ≤ q ∧ ∀ k, p ≤ k → k < q' → ¬ IsGap s k := by
  have hpl : p < s.items.length := by
    rw [h.sized.items]
    exact hp.lt
  have hget : s.items[p]? = some s.items[p] := List.getElem?_eq_getElem hpl
  generalize s.items[p] = x at hget
  have hx : full x = true := by
    cases hx : full x with
    | true => rfl
    | false => exact absurd (isGap_iff.mpr ⟨x, hget, hx⟩) hfull
  have hbefore := hp.at_before hnot hget hx
  have hsplit := split_at hget
  have hlen : (s.items.take p).length = p := by
    have := (List.getElem?_eq_some_iff.mp hget).1
    simp
    omega
  obtain ⟨Y, g, B, hdrop, hY, hg, hYq⟩ := gapped.first_hole
    (show gapped.Hole full (s.items.drop (p + 1)) (q - (p + 1)) by
      obtain ⟨z, hz, hzf⟩ := isGap_iff.mp hgap
      refine ⟨z, ?_, hzf⟩
      rw [List.getElem?_drop, ← hz]
      congr 1
      omega)
  have hafter := hp.after_drop
  rw [hdrop] at hsplit hafter
  obtain ⟨s0, hslide, hframe, hitems0, ht0, hends0⟩ := slide_right_spec 3 h.tidy h.sized.items hsplit
    hY hg (.inr (h.arranged.slot_item hget hx))
  have hcut : s.items = (s.items.take p ++ x :: Y) ++ g :: B := by
    conv_lhs => rw [hsplit]
    simp
  obtain ⟨s1, hput, hplaced⟩ := put_edge (D := x :: (Y ++ B)) h hframe ht0 (hends0 h.ends) he hcut hg
    hitems0 (by simp) hp.before_take (by
      intro y hy hf
      rcases List.mem_cons.mp hy with rfl | hy
      · exact hbefore
      · apply hafter y _ hf
        rcases List.mem_append.mp hy with hy | hy
        · exact List.mem_append_left _ hy
        · exact List.mem_append_right _ (List.mem_cons_of_mem _ hy)) (take_ne_nil h hp.pos)
  have hidx : (s.items.take p ++ x :: Y).length = p + 1 + Y.length := by
    rw [List.length_append, hlen, List.length_cons]
    omega
  rw [hlen] at hslide hput hplaced
  rw [hidx] at hplaced
  refine ⟨s0, s1, p + 1 + Y.length, hslide, hput, hplaced, by omega, by omega, ?_⟩
  intro k hk hkq hkgap
  rcases Nat.eq_or_lt_of_le hk with rfl | hlt
  · exact hfull hkgap
  · obtain ⟨z, hz, hzf⟩ := isGap_iff.mp hkgap
    obtain ⟨m, rfl⟩ : ∃ m, k = p + 1 + m := ⟨k - (p + 1), by omega⟩
    rw [← List.getElem?_drop, hdrop, List.getElem?_append_left (by omega)] at hz
    rw [hY z (List.mem_of_getElem? hz)] at hzf
    cases hzf

theorem two_at_end {xs : List Edge} (h : 2 ≤ xs.length) : ∃ Z w z, xs = Z ++ [w, z] := by
  rcases List.eq_nil_or_concat xs with rfl | ⟨ys, z, rfl⟩
  · simp at h
  rcases List.eq_nil_or_concat ys with rfl | ⟨Z, w, rfl⟩
  · simp at h
  exact ⟨Z, w, z, by simp⟩

theorem place_left (h : WellFormed s) (he : IsEdge s.get_n e) (hp : Place s e p)
    (hnot : ¬ Stores s e p) (hlast : p < s.N - 1) (hfull : ∀ k, p ≤ k → ¬ IsGap s k)
    (hedge : ∀ z, s.items[s.N - 1]? = some z → is_sentinel z = false) (hq : q + 1 < p)
    (hgap : IsGap s q) :
    ∃ sa s0 s1 q', slide_right s p = .ok (true, sa) ∧ slide_left sa (p - 1) = .ok s0 ∧
      s0.put (p - 1) e = .ok s1 ∧ Placed s s1 e (p - 1) q' ∧ q ≤ q' ∧ q' + 1 < p ∧
      ∀ k, q' < k → k < p - 1 → ¬ IsGap s k := by
  have hlen : (s.items.take p).length = p := by
    have := hp.lt
    rw [List.length_take, h.sized.items]
    omega
  have hdropfull : ∀ y ∈ s.items.drop p, full y = true := by
    intro y hy
    obtain ⟨i, hi⟩ := List.mem_iff_getElem?.mp hy
    rw [List.getElem?_drop] at hi
    by_contra hf
    exact hfull (p + i) (by omega) (isGap_iff.mpr ⟨y, hi, by simpa using hf⟩)
  obtain ⟨Z, w, z, hdrop⟩ := two_at_end (show 2 ≤ (s.items.drop p).length by
    rw [List.length_drop, h.sized.items]
    omega)
  have hsplit : s.items = s.items.take p ++ (Z ++ [w, z]) := by
    rw [← hdrop, List.take_append_drop]
  have hz : is_sentinel z = false := by
    apply hedge
    have hN := h.sized.items
    rw [hsplit] at hN ⊢
    simp only [List.length_append, List.length_cons, List.length_nil, hlen] at hN
    rw [List.getElem?_append_right (by omega), List.getElem?_append_right (by omega), hlen,
      show s.N - 1 - p - Z.length = 1 by omega]
    rfl
  obtain ⟨sa, hright, hframea, hitemsa, hta, hendsa⟩ := slide_right_off_end 2 h.tidy h.sized.items
    hsplit (by rw [← hdrop]; exact hdropfull) hz
  rw [hlen] at hright
  -- back to the left
  have hp1 : p - 1 < s.items.length := by
    have := hp.lt
    rw [h.sized.items]
    omega
  have hget : s.items[p - 1]? = some s.items[p - 1] := List.getElem?_eq_getElem hp1
  generalize s.items[p - 1] = x at hget
  obtain ⟨A, g, Y, htake, hY, hg, hqA⟩ := gapped.last_hole
    (show gapped.Hole full (s.items.take (p - 1)) q by
      obtain ⟨y, hy, hyf⟩ := isGap_iff.mp hgap
      refine ⟨y, ?_, hyf⟩
      rw [List.getElem?_take, if_pos (by omega)]
      exact hy)
  have hAY : A.length + 1 + Y.length = p - 1 := by
    have hl := congrArg List.length htake
    simp only [List.length_take, List.length_append, List.length_cons] at hl
    omega
  have hcut := split_at hget
  rw [htake, show p - 1 + 1 = p by omega] at hcut
  have hitems : s.items = A ++ g :: (Y ++ x :: s.items.drop p) := by
    conv_lhs => rw [hcut]
    simp
  have hin : InHand sa.get_n x := by
    rw [hframea.get_n]
    cases hx : full x with
    | false => exact .inl hx
    | true => exact .inr (h.arranged.slot_item hget hx)
  obtain ⟨s0, hleft, hframe0, hitems0, ht0, hends0⟩ := slide_left_spec 3 hta
    (hitemsa.trans hitems) hY hg hin
  rw [hAY] at hleft
  have hAmem : ∀ y ∈ A ++ Y ++ [x], y ∈ s.items.take p := by
    intro y hy
    have htakep : s.items.take p = A ++ g :: (Y ++ [x]) := by
      rw [show p = p - 1 + 1 by omega, List.take_add_one, hget, htake]
      simp
    rw [htakep]
    simp only [List.mem_append, List.mem_cons, List.not_mem_nil, or_false] at hy ⊢
    tauto
  obtain ⟨s1, hput, hplaced⟩ := put_edge (C := A ++ Y ++ [x]) (D := s.items.drop p) (g := null_edge) h
    (hframea.trans hframe0) ht0 (hends0 (hendsa h.ends)) he hitems hg (by rw [hitems0]; simp)
    (by simp) (fun y hy hf => hp.before_take y (hAmem y hy) hf) (by
      intro y hy hf
      obtain ⟨i, hi⟩ := List.mem_iff_getElem?.mp hy
      rw [List.getElem?_drop] at hi
      rcases Nat.eq_zero_or_pos i with rfl | hpos
      · exact hp.at_before hnot hi hf
      · exact hp.after _ y (by omega) hi hf) (by simp)
  have hidx : (A ++ Y ++ [x]).length = p - 1 := by
    simp only [List.length_append, List.length_singleton]
    omega
  rw [hidx] at hput hplaced
  refine ⟨sa, s0, s1, A.length, hright, hleft, hput, hplaced, hqA, by omega, ?_⟩
  intro k hk hkp hkgap
  obtain ⟨y, hy, hyf⟩ := isGap_iff.mp hkgap
  obtain ⟨m, rfl⟩ : ∃ m, k = A.length + 1 + m := ⟨k - (A.length + 1), by omega⟩
  rw [hitems, List.getElem?_append_right (by omega),
    show A.length + 1 + m - A.length = m + 1 by omega, List.getElem?_cons_succ,
    List.getElem?_append_left (by omega)] at hy
  rw [hY y (List.mem_of_getElem? hy)] at hyf
  cases hyf

/-! ## The slides, in one -/

/-- The slides open a slot for an insertion at `p`: there is a gap at `p` or behind it, or a
gap that a slide to the left can use. A sentinel in the last slot would lose its pointer when
it goes off the end and back. -/
def Slides (s : PCSR) (p : Nat) : Prop :=
  (∃ q, p ≤ q ∧ IsGap s q) ∨
    ((∀ z, s.items[s.N - 1]? = some z → is_sentinel z = false) ∧ ∃ q, q + 1 < p ∧ IsGap s q)

/-- The slots between the one of the new edge and the gap that is used up. -/
def Shifted (s : PCSR) (p i q : Nat) : Prop :=
  (i = p ∧ p ≤ q ∧ IsGap s q ∧ ∀ k, p ≤ k → k < q → ¬ IsGap s k) ∨
    (i + 1 = p ∧ q < i ∧ (∀ k, p ≤ k → ¬ IsGap s k) ∧ ∀ k, q < k → k < i → ¬ IsGap s k)

/-- Where the edge does not go into the last slot, that slot keeps its promise. -/
theorem Placed.end_full {i : Nat} (hpl : Placed s s1 e i q) (hs : Shifted s p i q) (hp : p < s.N - 1)
    (hend : EndFull s) : EndFull s1 := by
  intro hgap
  rw [hpl.frame.N] at hgap ⊢
  have hsame : ∀ k, (k < q ∧ k < i) ∨ (q < k ∧ i < k) → (IsGap s1 k ↔ IsGap s k) := by
    intro k hk
    unfold IsGap
    rw [hpl.exchange.outside hk]
  rcases hs with ⟨rfl, hpq, -, hrun⟩ | ⟨rfl, hqi, hrun, -⟩
  · rcases Nat.lt_or_ge q (s.N - 2) with hlt | hge
    · rw [hsame _ (by omega)] at hgap ⊢
      exact hend hgap
    · -- the slots from the edge to the gap are full now
      exfalso
      obtain ⟨x, hx, hf⟩ := isGap_iff.mp hgap
      rcases Nat.eq_or_lt_of_le (show i ≤ s.N - 2 by omega) with heq | hlt
      · rw [← heq, hpl.exchange.at_new] at hx
        obtain ⟨X, Y, hc, -⟩ := hpl.added
        have hmem : e ∈ s1.items.filter full := by
          rw [hc]
          simp
        rw [← Option.some.inj hx, (List.mem_filter.mp hmem).2] at hf
        cases hf
      · obtain ⟨k, hk⟩ : ∃ k, s.N - 2 = k + 1 := ⟨s.N - 3, by omega⟩
        rw [hk, hpl.exchange.right (by omega) (by omega)] at hx
        exact hrun k (by omega) (by omega) (isGap_iff.mpr ⟨x, hx, hf⟩)
  · rw [hsame _ (by omega)] at hgap
    exact absurd hgap (hrun _ (by omega))

theorem insert_calls_opens (h : WellFormed s) (he : IsEdge s.get_n e) (hp : Place s e p)
    (hnot : ¬ Stores s e p) (hslides : Slides s p) (hlast : p = s.N - 1 → IsGap s p) :
    ∃ s0 s1 i q, s0.put i e = .ok s1 ∧ Placed s s1 e i q ∧ Shifted s p i q ∧
      ∀ calls src info, insert_calls (calls + 1) s p e src info =
        insert_item s0 i (find_leaf s.N p) e info := by
  have hpl : p < s.items.length := by
    rw [h.sized.items]
    exact hp.lt
  have hget : s.items[p]? = some s.items[p] := List.getElem?_eq_getElem hpl
  generalize s.items[p] = x at hget
  have hread : s.item p = .ok x := by
    unfold PCSR.item
    rw [hget]
  by_cases hgap : IsGap s p
  · obtain ⟨s1, hput, hplaced⟩ := place_gap h he hp hgap
    refine ⟨s, s1, p, p, hput, hplaced, .inl ⟨rfl, le_refl p, hgap, fun k h1 h2 => by omega⟩, ?_⟩
    intro calls src info
    obtain ⟨y, hy, hnull⟩ := hgap
    rw [hget] at hy
    cases hy
    unfold insert_calls
    simp only [hread, bind, Except.bind, hnull, if_true]
  -- the slot holds an item of another edge
  have hnull : x.is_null = false := by
    cases hx : x.is_null with
    | false => rfl
    | true => exact absurd ⟨x, hget, hx⟩ hgap
  have hlt : p < s.N - 1 := by
    have := hp.lt
    by_contra hc
    exact hgap (hlast (by omega))
  have hne : p ≠ s.N - 1 := by omega
  have hdest : (x.dest == e.dest) = false := by
    rcases hp.at_ x hget (by simp [full, hnull]) with hst | ⟨-, hd⟩
    · exact absurd hst hnot
    · simpa using hd
  by_cases hright : ∃ q, p ≤ q ∧ IsGap s q
  · obtain ⟨q, hq, hqgap⟩ := hright
    have hpq : p < q := by
      rcases Nat.eq_or_lt_of_le hq with rfl | hlt
      · exact absurd hqgap hgap
      · exact hlt
    obtain ⟨s0, s1, q', hslide, hput, hplaced, hpq', -, hrun⟩ := place_right h he hp hnot hgap hpq hqgap
    refine ⟨s0, s1, p, q', hput, hplaced, .inl ⟨rfl, hpq'.le, ?_, hrun⟩, ?_⟩
    · obtain ⟨A, B, C, D, g, hitems, hg, -, -, rfl, -⟩ := hplaced.exchange
      exact isGap_iff.mpr ⟨g, by rw [hitems]; simp, hg⟩
    · intro calls src info
      conv_lhs => unfold insert_calls
      simp only [hread, bind, Except.bind, hnull, hdest, hne, hslide, Bool.and_false,
        Bool.false_eq_true, if_false]
  · have hfull : ∀ k, p ≤ k → ¬ IsGap s k := fun k hk hkgap => hright ⟨k, hk, hkgap⟩
    rcases hslides with hr | ⟨hedge, q, hq, hqgap⟩
    · exact absurd hr hright
    obtain ⟨sa, s0, s1, q', hslide, hleft, hput, hplaced, -, hqp, hrun⟩ :=
      place_left h he hp hnot hlt hfull hedge hq hqgap
    refine ⟨s0, s1, p - 1, q', hput, hplaced, .inr ⟨by omega, by omega, hfull, hrun⟩, ?_⟩
    intro calls src info
    conv_lhs => unfold insert_calls
    simp only [hread, bind, Except.bind, hnull, hdest, hne, hslide, hleft, Bool.and_false,
      Bool.false_eq_true, if_false, if_true]

end

/-! ## The insertion -/

/-- What an insertion gives: the edge is in, and the array is well formed. -/
structure Inserted (s s' : PCSR) (e : Edge) : Prop extends Kept s s' where
  added : Added e (s.items.filter full) (s'.items.filter full)
  size : s.N ≤ s'.N

section

variable {s s' s1 : PCSR} {e x : Edge} {p q src calls : Nat} {info : Option insertion_info}

/-- With the edge in it, the leaf of the slot has a neighbour to spill over to, or room. -/
def Room (s : PCSR) (p : Nat) : Prop :=
  logN s.N ≤ filled s.items (find_leaf s.N p) (logN s.N) + 1 → logN s.N * 2 ≤ s.N

/-- The array takes the edge at the slot: the edge is stored there, or an item stands there in the
last slot, so that the array is doubled first, or the slides open the slot. -/
def Takes (s : PCSR) (e : Edge) (p : Nat) : Prop :=
  Stores s e p ∨ (p = s.N - 1 ∧ ¬ IsGap s p) ∨ (Slides s p ∧ Room s p)

/-- With a second leaf, the slides decide. -/
theorem takes_of_slides (hsize : logN s.N * 2 ≤ s.N) (h : Stores s e p ∨ p = s.N - 1 ∨ Slides s p) :
    Takes s e p := by
  rcases h with h | h | h
  · exact .inl h
  · by_cases hgap : IsGap s p
    · exact .inr (.inr ⟨.inl ⟨p, le_refl p, hgap⟩, fun _ => hsize⟩)
    · exact .inr (.inl ⟨h, hgap⟩)
  · exact .inr (.inr ⟨h, fun _ => hsize⟩)

theorem Settled.size_le (h : Settled s s') : s.N ≤ s'.N := by
  rcases h.size with h | h <;> omega

/-- Where there is room for a slide, and where no item stands in the last slot. -/
theorem insert_calls_placed (h : WellFormed s) (he : IsEdge s.get_n e) (hp : Place s e p)
    (hnot : ¬ Stores s e p) (hslides : Slides s p) (hlast : p = s.N - 1 → IsGap s p)
    (hroom : Room s p) (hinfo : PlanOk s.N info) :
    ∃ s', insert_calls (calls + 1) s p e src info = .ok s' ∧ Inserted s s' e := by
  obtain ⟨s0, s1, i, q, hput, hpl, hshift, hrun⟩ := insert_calls_opens h he hp hnot hslides hlast
  have hN := hpl.frame.N
  have hcount := hpl.exchange.count_le he.full (find_leaf s.N p) (logN s.N)
  obtain ⟨len, ni, s2, s', hitem, hwin, -, hk, hred, hset, -⟩ := insert_item_spec hput
    hpl.wf.sized (show p < s1.N by rw [hN]; exact hp.lt)
    (fun len ni hwin => redistribute_window hpl.wf (by rw [hN]; exact hp.lt) hwin) (by
      intro hfull
      rw [hN] at hfull ⊢
      apply hroom
      rw [filled_eq] at hfull ⊢
      omega) (by rw [hN]; exact hinfo)
  rw [hN] at hitem
  refine ⟨s', (hrun calls src info).trans hitem, ⟨hset.wf, ?_, ?_, ?_⟩, ?_, ?_⟩
  · rw [hset.n, hk.n, hpl.frame.get_n]
  · rw [hset.lock_bsearch, hk.lock_bsearch, hpl.frame.lock_bsearch]
  · intro hend
    apply hset.end_full
    have hplt := hp.lt
    rcases Nat.lt_or_ge p (s.N - 1) with hlt | hge
    · exact hk.end_full (hpl.end_full hshift hlt hend)
    · -- the window over the last slot ends with the array
      apply hred.end_full hpl.wf.sized (by rw [hN]; exact hp.lt) hwin
      intro hlt
      have := lt_find_node_add p hwin.len_pow.pos
      rw [← hwin.at_] at this
      omega
  · rw [hset.contents, hred.contents]
    exact hpl.added
  · rw [← hN, ← hred.frame.N]
    exact hset.size_le

/-- A stored edge is overwritten. -/
theorem insert_calls_stored (h : WellFormed s) (he : IsEdge s.get_n e) (hst : Stores s e p) :
    ∃ s', insert_calls (calls + 1) s p e src info = .ok s' ∧ Inserted s s' e ∧
      s' = { s with items := s.items.set p e } := by
  obtain ⟨x, hx, hf, hs, hsrc, hdest⟩ := id hst
  have hpl : p < s.items.length := (List.getElem?_eq_some_iff.mp hx).1
  have hread : s.item p = .ok x := by
    unfold PCSR.item
    rw [hx]
  have hnull : x.is_null = false := by simpa [full] using hf
  have hput := put_of_lt e hpl
  have hsplit := split_at hx
  have hlen : (s.items.take p).length = p := by
    rw [List.length_take]
    omega
  have hset : s.items.set p e = s.items.take p ++ e :: s.items.drop (p + 1) := by
    have hmid := set_mid (s.items.take p) (s.items.drop (p + 1)) x e
    rw [hlen, ← hsplit] at hmid
    exact hmid
  generalize hX : (s.items.take p).filter full = X
  generalize hY : (s.items.drop (p + 1)).filter full = Y
  have hcontents : s.items.filter full = X ++ x :: Y := by
    conv_lhs => rw [hsplit]
    rw [List.filter_append, List.filter_cons_of_pos hf, hX, hY]
  have hcontents1 : (s.items.set p e).filter full = X ++ e :: Y := by
    rw [hset, List.filter_append, List.filter_cons_of_pos he.full, hX, hY]
  have hkey : key x = key e := key_of_edges hs he.not_sentinel hsrc hdest
  have harr := h.arranged
  rw [hcontents] at harr
  have hbefore : ∀ y ∈ X, Before y e := by
    intro y hy
    have := (List.pairwise_append.mp harr.sorted).2.2 y hy x (List.mem_cons_self ..)
    unfold Before at this ⊢
    rwa [← hkey]
  have hbehind : ∀ y ∈ Y, Before e y := by
    intro y hy
    have := (List.pairwise_cons.mp (List.pairwise_append.mp harr.sorted).2.1).1 y hy
    unfold Before at this ⊢
    rwa [← hkey]
  have hdrop : Arranged s.get_n (X ++ Y) := by
    refine ⟨?_, ?_, ?_⟩
    · apply List.Pairwise.sublist _ harr.sorted
      simp
    · intro y hy
      apply harr.items y
      simp only [List.mem_append, List.mem_cons] at hy ⊢
      tauto
    · intro v hv
      have hmem := harr.sentinels v hv
      simp only [List.mem_append, List.mem_cons] at hmem ⊢
      rcases hmem with hm | hm | hm
      · exact .inl hm
      · rw [← hm] at hs
        simp at hs
      · exact .inr hm
  have hslots : ∀ i, i ≠ p → (s.items.set p e)[i]? = s.items[i]? :=
    fun i hi => List.getElem?_set_ne (Ne.symm hi)
  have hnot : ∀ v, (s.items.set p e)[p]? ≠ some (sentinel v) := by
    intro v hv
    rw [List.getElem?_set_self hpl] at hv
    have hns := he.not_sentinel
    simp [Option.some.inj hv] at hns
  have hwf : WellFormed { s with items := s.items.set p e } := by
    refine ⟨⟨h.sized.pow, by simpa using h.sized.items, h.sized.versions⟩, h.n_pos, h.n_le, ?_, ?_, ?_,
      h.ends⟩
    · rw [hcontents1]
      exact arranged_insert hdrop (.inl he) hbefore hbehind
    · show (s.items.set p e)[0]? = some (sentinel 0)
      rw [hslots 0]
      · exact h.first
      · rintro rfl
        rw [h.first] at hx
        rw [← Option.some.inj hx] at hs
        simp at hs
    · intro i v hv
      by_cases hip : i = p
      · rw [hip] at hv
        exact absurd hv (hnot v)
      · exact h.linked i v ((hslots i hip).symm.trans hv)
  have hgaps : ∀ i, IsGap { s with items := s.items.set p e } i ↔ IsGap s i := by
    intro i
    rw [isGap_iff, isGap_iff]
    show (∃ z, (s.items.set p e)[i]? = some z ∧ _) ↔ _
    by_cases hip : i = p
    · rw [hip, List.getElem?_set_self hpl, hx]
      simp [he.full, hf]
    · rw [hslots i hip]
  refine ⟨{ s with items := s.items.set p e }, ?_, ⟨⟨hwf, rfl, rfl, ?_⟩, ?_, le_refl _⟩, rfl⟩
  · unfold insert_calls
    simp only [hread, bind, Except.bind, hnull, he.not_sentinel, hsrc, hdest, Bool.not_false,
      Bool.true_and, beq_self_eq_true, Bool.false_eq_true, if_false, if_true]
    exact hput
  · intro hend hgap
    rw [hgaps] at hgap ⊢
    exact hend hgap
  · exact ⟨X, Y, hcontents1, hbefore, hbehind, .inr ⟨x, hs, hsrc, hdest, hcontents⟩⟩

theorem PastEnd.not_gap (hp : PastEnd s e p) : ¬ IsGap s p := by
  obtain ⟨x, hx, hf, -⟩ := hp.full
  exact fun hgap => packed_csr.not_gap hgap hx hf

/-- An item in the last slot: the array is doubled, and the edge looks for its place again. -/
theorem insert_calls_doubles (h : WellFormed s) (he : IsEdge s.get_n e) (h4 : 4 ≤ s.N)
    (hp : Place s e p ∨ PastEnd s e p) (hnot : ¬ Stores s e p) (hlast : p = s.N - 1)
    (hfull : ¬ IsGap s p) :
    ∃ s', insert_calls (calls + 2) s p e e.src info = .ok s' ∧ Inserted s s' e := by
  have hpl : p < s.items.length := by
    rw [h.sized.items]
    omega
  have hget : s.items[p]? = some s.items[p] := List.getElem?_eq_getElem hpl
  generalize s.items[p] = x at hget
  have hread : s.item p = .ok x := by
    unfold PCSR.item
    rw [hget]
  have hnull : x.is_null = false := by
    cases hx : x.is_null with
    | false => rfl
    | true => exact absurd ⟨x, hget, hx⟩ hfull
  have hdest : (x.dest == e.dest) = false := by
    rcases hp with hp | ⟨-, y, hy, -, -, hd⟩
    · rcases hp.at_ x hget (by simp [full, hnull]) with hst | ⟨-, hd⟩
      · exact absurd hst hnot
      · simpa using hd
    · rw [hget] at hy
      cases hy
      simpa using hd
  have hnone : ∀ q, ¬ Stores s e q := by
    intro q hq
    rcases hp with hp | hp
    · obtain rfl := hp.stores he.not_sentinel hq
      exact hnot hq
    · exact hp.not_stores h he.not_sentinel hq
  obtain ⟨s2, hdouble, hres, hgap⟩ := double_list_spec h
  have hget_n : s2.get_n = s.get_n := hres.nodes
  have he2 : IsEdge s2.get_n e := by
    rw [hget_n]
    exact he
  have hgap2 : IsGap s2 (s2.N - 1) := by
    rw [hres.N]
    exact hgap
  obtain ⟨node, p2, v, hnode, hsearch, -, hp2⟩ := search_place hres.wf
    (.inr (endFree_of_gap hgap2)) he2 rfl
  have hplace : Place s2 e p2 := by
    rcases hp2 with hp2 | hp2
    · exact hp2
    · have hl := hp2.last
      have hg := hp2.not_gap
      rw [hl] at hg
      exact absurd hgap2 hg
  have hnot2 : ¬ Stores s2 e p2 := by
    rintro ⟨y, hy, hfy, hsy, hsrc, hd⟩
    have hmem := mem_filter_of_slot hy hfy
    rw [hres.contents] at hmem
    obtain ⟨q, -, hq⟩ := stores_of_mem hmem hsy hsrc hd
    exact hnone q hq
  have hle2 : p2 ≤ s2.N - 1 := by
    have := hplace.lt
    omega
  obtain ⟨s', hrun, hins⟩ : ∃ s', insert_calls (calls + 1) s2 p2 e e.src none = .ok s' ∧
      Inserted s2 s' e :=
    insert_calls_placed hres.wf he2 hplace hnot2 (.inl ⟨_, hle2, hgap2⟩)
      (fun hl => by rw [hl]; exact hgap2)
      (fun _ => two_leaves hres.wf.sized.pow (by rw [hres.N]; omega)) (fun i hi => by cases hi)
  refine ⟨s', ?_, ⟨(hres.kept hgap).trans hins.toKept, ?_, ?_⟩⟩
  · conv_lhs => unfold insert_calls
    simp only [hread, bind, Except.bind, hnull, hdest, Bool.and_false, Bool.false_eq_true, if_false]
    rw [if_pos hlast]
    simp only [hdouble, find_in_node_of hnode hsearch]
    exact hrun
  · rw [← hres.contents]
    exact hins.added
  · have hsize := hins.size
    rw [hres.N] at hsize
    omega

/-- The insertion of an edge at the slot that the search gives for it. -/
theorem insert_spec (h : WellFormed s) (he : IsEdge s.get_n e) (h4 : 4 ≤ s.N)
    (hp : Place s e p ∨ PastEnd s e p) (hfit : Takes s e p) (hinfo : PlanOk s.N info) :
    ∃ s', insert s p e e.src info = .ok s' ∧ Inserted s s' e := by
  unfold insert
  by_cases hst : Stores s e p
  · obtain ⟨s', hrun, hins, -⟩ := insert_calls_stored h he hst
    exact ⟨s', hrun, hins⟩
  by_cases hdouble : p = s.N - 1 ∧ ¬ IsGap s p
  · exact insert_calls_doubles h he h4 hp hst hdouble.1 hdouble.2
  obtain ⟨hslides, hroom⟩ := (hfit.resolve_left hst).resolve_left hdouble
  have hgap : p = s.N - 1 → IsGap s p := by
    intro hl
    by_contra hg
    exact hdouble ⟨hl, hg⟩
  have hplace : Place s e p := by
    rcases hp with hp | hp
    · exact hp
    · exact absurd (hgap hp.last) hp.not_gap
  exact insert_calls_placed h he hplace hst hslides hgap hroom hinfo

end

end packed_csr
