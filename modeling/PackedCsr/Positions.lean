-- The validation of a slot: what it reads to the left and to the right, which slots it
-- accepts, and the one kind of slot that it accepts without being right.
import PackedCsr.Regions
import PackedCsr.Runs

namespace packed_csr

open effects

section

variable {s : PCSR} {p src d : Nat} {e x y z : Edge}

/-! ## The items around a slot -/

/-- The last item before slot `p` is `y`, in slot `j`. -/
structure Prev (s : PCSR) (p j : Nat) (y : Edge) : Prop where
  lt : j < p
  item : s.items[j]? = some y
  full : full y = true
  gap : ∀ (i : Nat) (x : Edge), j < i → i < p → s.items[i]? = some x → packed_csr.full x = false

/-- The first item from slot `p` on is `z`, in slot `k`. -/
structure Next (s : PCSR) (p k : Nat) (z : Edge) : Prop where
  ge : p ≤ k
  item : s.items[k]? = some z
  full : full z = true
  gap : ∀ (i : Nat) (x : Edge), p ≤ i → i < k → s.items[i]? = some x → packed_csr.full x = false

theorem prev_item_spec (hp : p ≤ s.items.length) (h : prev_item s p = some y) : ∃ j, Prev s p j y := by
  induction p with
  | zero =>
    rw [prev_item_zero] at h
    cases h
  | succ p ih =>
    have hget := List.getElem?_eq_getElem (show p < s.items.length by omega)
    rw [prev_item_succ hget] at h
    split at h
    · rename_i hnull
      obtain ⟨j, hj⟩ := ih (by omega) h
      refine ⟨j, by have := hj.lt; omega, hj.item, hj.full, ?_⟩
      intro i x hji hip hx
      rcases Nat.eq_or_lt_of_le (Nat.le_of_lt_succ hip) with rfl | hlt
      · rw [hget] at hx
        cases hx
        simp [full, hnull]
      · exact hj.gap i x hji hlt hx
    · rename_i hnull
      cases h
      refine ⟨p, Nat.lt_succ_self p, hget, by simpa [full] using hnull, ?_⟩
      intro i x hji hip
      omega

theorem prev_item_exists {j : Nat} (hp : p ≤ s.items.length) (hj : j < p) (hx : s.items[j]? = some x)
    (hf : full x = true) : ∃ y, prev_item s p = some y := by
  induction p with
  | zero => omega
  | succ p ih =>
    have hget := List.getElem?_eq_getElem (show p < s.items.length by omega)
    rw [prev_item_succ hget]
    split
    · rename_i hnull
      rcases Nat.eq_or_lt_of_le (Nat.le_of_lt_succ hj) with rfl | hlt
      · rw [hget] at hx
        cases hx
        simp [full, hnull] at hf
      · exact ih (by omega) hlt
    · exact ⟨_, rfl⟩

theorem next_item_spec (h : next_item s p = some z) : ∃ k, Next s p k z := by
  unfold next_item at h
  rw [List.find?_eq_some_iff_getElem] at h
  obtain ⟨hf, i, hi, hget, hbefore⟩ := h
  refine ⟨p + i, by omega, ?_, hf, ?_⟩
  · rw [← List.getElem?_drop, List.getElem?_eq_getElem hi, hget]
  · intro j x hpj hjk hx
    have hji : j - p < i := by omega
    have hx' : (s.items.drop p)[j - p]? = some x := by
      rw [List.getElem?_drop, show p + (j - p) = j by omega]
      exact hx
    rw [List.getElem?_eq_getElem (by omega), Option.some.injEq] at hx'
    have := hbefore (j - p) hji
    rw [hx'] at this
    simpa [full] using this

theorem next_item_none (h : next_item s p = none) {i : Nat} (hi : p ≤ i) (hx : s.items[i]? = some x) :
    full x = false := by
  unfold next_item at h
  rw [List.find?_eq_none] at h
  have hmem : x ∈ s.items.drop p := by
    apply List.mem_of_getElem? (i := i - p)
    rw [List.getElem?_drop, show p + (i - p) = i by omega]
    exact hx
  have := h x hmem
  simpa [full] using this

theorem Next.unique {k k' : Nat} {z' : Edge} (h : Next s p k z) (h' : Next s p k' z') :
    k = k' ∧ z = z' := by
  rcases Nat.lt_trichotomy k k' with hlt | rfl | hgt
  · have := h'.gap k z h.ge hlt h.item
    rw [h.full] at this
    cases this
  · have := h'.item
    rw [h.item] at this
    exact ⟨rfl, Option.some.inj this⟩
  · have := h.gap k' z' h'.ge hgt h'.item
    rw [h'.full] at this
    cases this

theorem next_item_of {k : Nat} (h : Next s p k z) : next_item s p = some z := by
  cases hz : next_item s p with
  | none =>
    have := next_item_none hz h.ge h.item
    rw [h.full] at this
    cases this
  | some z' =>
    obtain ⟨k', hk'⟩ := next_item_spec hz
    rw [(h.unique hk').2]

theorem Next.of_gap {k : Nat} (hgap : IsGap s p) (h : Next s p k z) : Next s (p + 1) k z := by
  refine ⟨?_, h.item, h.full, fun i x hi hik hx => h.gap i x (by omega) hik hx⟩
  rcases Nat.eq_or_lt_of_le h.ge with rfl | hlt
  · exact not_gap hgap h.item h.full
  · exact hlt

theorem Next.to_gap {k : Nat} (hgap : IsGap s p) (h : Next s (p + 1) k z) : Next s p k z := by
  refine ⟨by have := h.ge; omega, h.item, h.full, fun i x hi hik hx => ?_⟩
  rcases Nat.eq_or_lt_of_le hi with rfl | hlt
  · cases hf : packed_csr.full x with
    | false => rfl
    | true => exact not_gap hgap hx hf
  · exact h.gap i x hlt hik hx

/-! ## Arrays that the validation reads -/

/-- An array with its items in order, whatever the node table says. -/
structure LaidOut (s : PCSR) : Prop where
  sized : Sized s
  n_le : s.get_n ≤ UINT32_MAX
  arranged : Arranged s.get_n (s.items.filter full)
  first : s.items[0]? = some (sentinel 0)

theorem WellFormed.laid_out (h : WellFormed s) : LaidOut s := ⟨h.sized, h.n_le, h.arranged, h.first⟩

/-- Between two neighbours `y` and `z` there is no item. -/
theorem no_item_between (h : LaidOut s) {j k : Nat} (hy : s.items[j]? = some y)
    (hz : s.items[k]? = some z) (hfy : full y = true) (hfz : full z = true)
    (hgap : ∀ (i : Nat) (x : Edge), j < i → i < k → s.items[i]? = some x → full x = false)
    (hx : x ∈ s.items.filter full) (hyx : Before y x) : ¬ Before x z := by
  intro hxz
  obtain ⟨hmem, hf⟩ := List.mem_filter.mp hx
  obtain ⟨i, hi⟩ := List.mem_iff_getElem?.mp hmem
  have h1 := slot_lt_of_before h.arranged.sorted hy hi hfy hf hyx
  have h2 := slot_lt_of_before h.arranged.sorted hi hz hf hfz hxz
  rw [hgap i x h1 h2 hi] at hf
  cases hf

/-- The first item behind the place of an edge is an edge of the same vertex, or the next
sentinel. -/
theorem first_after (h : LaidOut s) {k : Nat} (hk : Next s p k z)
    (hbefore : ∀ (i : Nat) (x : Edge), i < p → s.items[i]? = some x → full x = true → Before x e)
    (hez : Before e z) :
    (is_sentinel z = false ∧ z.src = e.src) ∨ (z = sentinel (e.src + 1) ∧ e.src + 1 < s.get_n) := by
  have hitem := h.arranged.slot_item hk.item hk.full
  have hsrc := before_src hez
  -- no sentinel stands between the place and the item
  have hnone : ∀ v, v < s.get_n → e.src < v → ¬ Before (sentinel v) z := by
    intro v hv hev hvz
    obtain ⟨i, hi⟩ := h.arranged.sentinel_slot hv
    have hik := slot_lt_of_before h.arranged.sorted hi hk.item (by simp) hk.full hvz
    rcases Nat.lt_or_ge i p with hlt | hge
    · have := before_src (hbefore i _ hlt hi (by simp))
      simp at this
      omega
    · have := hk.gap i _ hge hik hi
      simp at this
  rcases hitem.cases with hs | hs
  · left
    refine ⟨hs, ?_⟩
    by_contra hc
    exact hnone z.src hitem.src_lt (by omega) (sentinel_before hs (le_refl _))
  · right
    rw [hs] at hez
    have hlt := before_sentinel hez
    have hzn := hitem.src_lt
    have heq : z.src = e.src + 1 := by
      by_contra hc
      apply hnone (e.src + 1) (by omega) (by omega)
      rw [hs]
      exact before_of_src (by simp; omega)
    rw [heq] at hs hzn
    exact ⟨hs, hzn⟩

/-- The last item before the place of an edge is the sentinel of its vertex, or an edge of it
with a smaller destination. -/
theorem last_before (h : LaidOut s) (he : is_sentinel e = false) (hn : e.src < s.get_n) {j : Nat}
    (hj : Prev s p j y) (hye : Before y e)
    (hafter : ∀ (i : Nat) (x : Edge), p ≤ i → s.items[i]? = some x → full x = true → ¬ Before x e) :
    y = sentinel e.src ∨ (is_sentinel y = false ∧ y.src = e.src ∧ y.dest < e.dest) := by
  have hitem := h.arranged.slot_item hj.item hj.full
  obtain ⟨b, hb⟩ := h.arranged.sentinel_slot hn
  have hse : Before (sentinel e.src) e := sentinel_before he (le_refl _)
  have hbj : b ≤ j := by
    rcases Nat.lt_or_ge b p with hlt | hge
    · by_contra hc
      have := hj.gap b _ (by omega) hlt hb
      simp at this
    · exact absurd hse (hafter b _ hge hb (by simp))
  rcases Nat.eq_or_lt_of_le hbj with rfl | hlt
  · left
    rw [hj.item] at hb
    exact Option.some.inj hb
  · right
    have hsy := sorted_slots h.arranged.sorted hb hj.item (by simp) hj.full hlt
    have hle : (sentinel e.src).src ≤ y.src := before_src hsy
    have hsrc : y.src = e.src := Nat.le_antisymm (before_src hye) hle
    have hs : is_sentinel y = false := by
      rcases hitem.cases with hs | hs
      · exact hs
      · rw [hs, hsrc] at hsy
        exact absurd hsy (before_irrefl _)
    exact ⟨hs, hsrc, (before_edges hs he hsrc).mp hye⟩

/-! ## The tests of the validation -/

section

variable {n : Nat}

theorem sentinel_value (hv : 0 < p) : (sentinel p).value = p := if_neg (Nat.ne_of_gt hv)

theorem foreign_item_edge (hz : is_sentinel z = false) : foreign_item n src z = true ↔
    full z = true ∧ z.src ≠ src := by
  simp [foreign_item, hz, full]

theorem foreign_item_next (h : src + 1 < n) : foreign_item n src (sentinel (src + 1)) = false := by
  simp [foreign_item, h.ne]

theorem wrong_right_edge (hz : is_sentinel z = false) : wrong_right n src d z = true ↔
    full z = true ∧ z.src = src ∧ z.dest < d := by
  simp [wrong_right, hz, full, and_assoc]

theorem wrong_right_next (h : src + 1 < n) : wrong_right n src d (sentinel (src + 1)) = false := by
  simp [wrong_right, h.ne, sentinel_value (Nat.succ_pos src)]

theorem wrong_left_edge (hz : is_sentinel z = false) : wrong_left src d z = true ↔
    full z = true ∧ z.src = src ∧ d ≤ z.dest := by
  simp [wrong_left, hz, full, and_assoc]

theorem wrong_left_own : wrong_left src d (sentinel src) = false := by
  rcases Nat.eq_zero_or_pos src with rfl | hpos
  · simp [wrong_left, show (sentinel 0).value = UINT32_MAX from rfl]
  · simp [wrong_left, sentinel_value hpos, Nat.ne_of_gt hpos]

end

/-- The place of an edge is accepted. -/
theorem Place.accepted (h : LaidOut s) (he : IsEdge s.get_n e) (hp : Place s e p) :
    correct_position s e.src p e.dest = true := by
  have hns := he.not_sentinel
  have hlen : p < s.items.length := by
    rw [h.sized.items]
    exact hp.lt
  have hget := List.getElem?_eq_getElem hlen
  have hD : s.items.getD p null_edge = s.items[p] := by
    rw [List.getD_eq_getElem?_getD, hget]
    rfl
  have hnot : ∀ (i : Nat) (x : Edge), p ≤ i → s.items[i]? = some x → full x = true → ¬ Before x e := by
    intro i x hi hx hf hxe
    rcases Nat.eq_or_lt_of_le hi with rfl | hlt
    · rcases hp.at_ x hx hf with hst | ⟨hex, -⟩
      · exact (hst.not_before hns hx).1 hxe
      · exact before_irrefl _ (hex.trans hxe)
    · exact before_irrefl _ ((hp.after i x hlt hx hf).trans hxe)
  -- the item before the slot
  have hleft : (prev_item s p).any (wrong_left e.src e.dest) = false := by
    obtain ⟨y, hy⟩ := prev_item_exists (j := 0) hlen.le hp.pos h.first (by simp)
    obtain ⟨j, hj⟩ := prev_item_spec hlen.le hy
    rw [hy, Option.any_some]
    rcases last_before h hns he.src hj (hp.before j y hj.lt hj.item hj.full) hnot with rfl | ⟨hs, hsrc, hd⟩
    · exact wrong_left_own
    · rw [Bool.eq_false_iff, Ne, wrong_left_edge hs]
      omega
  have hitem : full s.items[p] = true → foreign_item s.get_n e.src s.items[p] = false ∧
      (is_sentinel s.items[p] = false → e.dest ≤ s.items[p].dest) := by
    intro hf
    rcases hp.at_ _ hget hf with ⟨x, hx, -, hs, hsrc, hdest⟩ | ⟨hex, -⟩
    · rw [hget] at hx
      obtain rfl := Option.some.inj hx
      refine ⟨?_, fun _ => hdest.ge⟩
      rw [Bool.eq_false_iff, Ne, foreign_item_edge hs]
      exact fun hc => hc.2 hsrc
    · have hnext : Next s p p s.items[p] := ⟨le_refl p, hget, hf, fun i x h1 h2 => by omega⟩
      rcases first_after h hnext hp.before hex with ⟨hs, hsrc⟩ | ⟨hs, hlt⟩
      · refine ⟨?_, fun _ => ((before_edges hns hs hsrc.symm).mp hex).le⟩
        rw [Bool.eq_false_iff, Ne, foreign_item_edge hs]
        exact fun hc => hc.2 hsrc
      · rw [hs]
        exact ⟨foreign_item_next hlt, fun hc => by simp at hc⟩
  have hright : full s.items[p] = false →
      (next_item s (p + 1)).any (wrong_right s.get_n e.src e.dest) = false := by
    intro hf
    cases hz : next_item s (p + 1) with
    | none => rfl
    | some z =>
      obtain ⟨k, hk⟩ := next_item_spec hz
      have hez := hp.after k z hk.ge hk.item hk.full
      have hk' : Next s p k z := hk.to_gap (gap_of_null hget hf)
      rw [Option.any_some]
      rcases first_after h hk' hp.before hez with ⟨hs, hsrc⟩ | ⟨rfl, hlt⟩
      · rw [Bool.eq_false_iff, Ne, wrong_right_edge hs]
        have := (before_edges hns hs hsrc.symm).mp hez
        omega
      · exact wrong_right_next hlt
  unfold correct_position
  simp only [hD, hleft]
  cases hf : full s.items[p] with
  | true =>
    obtain ⟨h1, h2⟩ := hitem hf
    have hnull : s.items[p].is_null = false := by simpa [full] using hf
    simp only [h1, hnull]
    cases hs : is_sentinel s.items[p] with
    | true => simp
    | false => simpa using h2 hs
  | false =>
    have hnull : s.items[p].is_null = true := by simpa [full] using hf
    have h1 : foreign_item s.get_n e.src s.items[p] = false := by simp [foreign_item, hnull]
    simp [h1, hnull, hright hf]

/-! ## What an accepted slot is -/

/-- A correct slot for the edge of `src` to `d`: behind the sentinel of `src`, not behind the next
one, and between the smaller and the other edges of `src`. -/
structure CorrectPlace (s : PCSR) (src d p : Nat) : Prop where
  own : ∃ b, b < p ∧ s.items[b]? = some (sentinel src)
  next : ∀ q : Nat, s.items[q]? = some (sentinel (src + 1)) → p ≤ q
  low : ∀ (i : Nat) (x : Edge), i < p → s.items[i]? = some x → full x = true → is_sentinel x = false →
    x.src = src → x.dest < d
  high : ∀ (i : Nat) (x : Edge), p ≤ i → s.items[i]? = some x → full x = true → is_sentinel x = false →
    x.src = src → d ≤ x.dest

/-- The slot is a gap behind an edge of another vertex, and the next item does not show that: it
is no sentinel, or `src` is the last vertex. -/
def ForeignGap (s : PCSR) (src p : Nat) : Prop :=
  IsGap s p ∧ (∃ y, prev_item s p = some y ∧ is_sentinel y = false ∧ y.src ≠ src) ∧
    ∀ z, next_item s (p + 1) = some z → is_sentinel z = true → src + 1 = s.get_n

theorem correct_position_iff (hget : s.items[p]? = some x) : correct_position s src p d = true ↔
    foreign_item s.get_n src x = false ∧
      (full x = true → is_sentinel x = false → d ≤ x.dest) ∧
      (full x = false → ∀ z, next_item s (p + 1) = some z → wrong_right s.get_n src d z = false) ∧
      ∀ y, prev_item s p = some y → wrong_left src d y = false := by
  have hD : s.items.getD p null_edge = x := by
    rw [List.getD_eq_getElem?_getD, hget]
    rfl
  have hany : ∀ (o : Option Edge) (f : Edge → Bool), o.any f = false ↔ ∀ y, o = some y → f y = false := by
    intro o f
    cases o <;> simp
  rw [← hany, ← hany]
  unfold correct_position
  simp only [hD, full]
  generalize foreign_item s.get_n src x = a
  generalize (prev_item s p).any (wrong_left src d) = b
  generalize (next_item s (p + 1)).any (wrong_right s.get_n src d) = c
  cases a <;> cases b <;> cases c <;> cases x.is_null <;> cases is_sentinel x <;> simp

/-- An edge as the operations look for it is no sentinel. -/
theorem sought_not_sentinel (src : Nat) (hd : d < UINT32_MAX) : is_sentinel ⟨src, d, 1⟩ = false := by
  have h1 : (1 : Nat) ≠ UINT32_MAX := by decide
  simp [is_sentinel, hd.ne, h1]

/-- A slot that has what comes before the edge on its left, and nothing else, is correct. -/
theorem correct_of_divides (h : LaidOut s) (hd : d < UINT32_MAX) (hsrc : src < s.get_n)
    (hdiv : ∀ (i : Nat) (x : Edge), s.items[i]? = some x → full x = true →
      (i < p ↔ Before x ⟨src, d, 1⟩)) : CorrectPlace s src d p := by
  have he := sought_not_sentinel src hd
  refine ⟨?_, ?_, ?_, ?_⟩
  · obtain ⟨b, hb⟩ := h.arranged.sentinel_slot hsrc
    exact ⟨b, (hdiv b _ hb (by simp)).mpr (sentinel_before he (le_refl src)), hb⟩
  · intro q hq
    by_contra hc
    have := before_src ((hdiv q _ hq (by simp)).mp (by omega))
    simp at this
  · intro i x hi hx hf hs hxs
    exact (before_edges hs he hxs).mp ((hdiv i x hx hf).mp hi)
  · intro i x hi hx hf hs hxs
    by_contra hc
    have := (hdiv i x hx hf).mpr ((before_edges hs he hxs).mpr (Nat.lt_of_not_le hc))
    omega

/-- It is enough to look at the two items around the slot. -/
theorem divides_of_neighbours (h : LaidOut s) {j : Nat} (hj : Prev s p j y) (hye : Before y e)
    (hnext : ∀ k z, Next s p k z → ¬ Before z e) (i : Nat) (x : Edge) (hx : s.items[i]? = some x)
    (hf : full x = true) : i < p ↔ Before x e := by
  constructor
  · intro hi
    rcases Nat.lt_trichotomy i j with hlt | rfl | hgt
    · exact (sorted_slots h.arranged.sorted hx hj.item hf hj.full hlt).trans hye
    · rw [hj.item] at hx
      cases hx
      exact hye
    · rw [hj.gap i x hgt hi hx] at hf
      cases hf
  · intro hxe
    by_contra hc
    -- the first item from the slot on
    obtain ⟨z, hz⟩ : ∃ z, next_item s p = some z := by
      cases hz : next_item s p with
      | none =>
        rw [next_item_none hz (by omega) hx] at hf
        cases hf
      | some z => exact ⟨z, rfl⟩
    obtain ⟨k, hk⟩ := next_item_spec hz
    apply hnext k z hk
    rcases Nat.lt_trichotomy i k with hlt | rfl | hgt
    · rw [hk.gap i x (by omega) hlt hx] at hf
      cases hf
    · rw [hk.item] at hx
      cases hx
      exact hxe
    · exact (sorted_slots h.arranged.sorted hk.item hx hk.full hf hgt).trans hxe

theorem own_of_not_wrong_left {v : Nat} (hv : v < UINT32_MAX) (hsrc : src < UINT32_MAX)
    (h : wrong_left src d (sentinel v) = false) : v = src := by
  have hnull : (sentinel v).is_null = false := by
    have := full_sentinel v
    simpa [full] using this
  simp only [wrong_left, hnull, is_sentinel_sentinel] at h
  rcases Nat.eq_zero_or_pos v with rfl | hpos
  · rw [show (sentinel 0).value = UINT32_MAX from rfl] at h
    simp at h
    by_contra hc
    exact hsrc.ne (h (Ne.symm hc)).symm
  · rw [sentinel_value hpos] at h
    simp at h
    by_contra hc
    rcases Nat.eq_zero_or_pos src with rfl | hs
    · exact hv.ne (h.1 rfl)
    · exact hc (h.2 (Nat.ne_of_gt hs))

theorem next_of_not_wrong_right {n v : Nat} (hv : v < UINT32_MAX) (hn : src + 1 ≠ n)
    (hsrc : src + 1 < UINT32_MAX) (h : wrong_right n src d (sentinel v) = false) : v = src + 1 := by
  have hnull : (sentinel v).is_null = false := by
    have := full_sentinel v
    simpa [full] using this
  simp only [wrong_right, hnull, is_sentinel_sentinel] at h
  rcases Nat.eq_zero_or_pos v with rfl | hpos
  · rw [show (sentinel 0).value = UINT32_MAX from rfl] at h
    simp [hn] at h
    omega
  · rw [sentinel_value hpos] at h
    simp [hn] at h
    exact h

/-! ## The law -/

theorem vertex_lt (h : LaidOut s) (hs : is_sentinel x = true) {i : Nat} (hx : s.items[i]? = some x)
    (hf : full x = true) : x = sentinel x.src ∧ x.src < UINT32_MAX := by
  have hitem := h.arranged.slot_item hx hf
  exact ⟨hitem.sentinel_iff.mp hs, hitem.src_lt.trans_le h.n_le⟩

/-- A slot that is accepted, and is no gap in the region of another vertex, is correct. -/
theorem accepted_correct (h : LaidOut s) (hsrc : src < s.get_n) (hd : d < UINT32_MAX) (hp : 1 ≤ p)
    (hpN : p < s.N) (hacc : correct_position s src p d = true) (hno : ¬ ForeignGap s src p) :
    CorrectPlace s src d p := by
  have he := sought_not_sentinel src hd
  have hmax : src < UINT32_MAX := hsrc.trans_le h.n_le
  have hlen : p < s.items.length := by
    rw [h.sized.items]
    exact hpN
  have hget := List.getElem?_eq_getElem hlen
  obtain ⟨hforeign, hdest, hright, hleft⟩ := (correct_position_iff hget).mp hacc
  obtain ⟨y, hy⟩ := prev_item_exists (j := 0) hlen.le hp h.first (by simp)
  obtain ⟨j, hj⟩ := prev_item_spec hlen.le hy
  have hyleft := hleft y hy
  apply correct_of_divides h hd hsrc
  -- the first item from the slot on, where it belongs to the vertex
  have hzdest : ∀ k z, Next s p k z → is_sentinel z = false → z.src = src → d ≤ z.dest := by
    intro k z hk hs hzs
    cases hf : full s.items[p] with
    | true =>
      have hnow : Next s p p s.items[p] := ⟨le_refl p, hget, hf, fun i x h1 h2 => by omega⟩
      obtain ⟨rfl, rfl⟩ := hk.unique hnow
      exact hdest hf hs
    | false =>
      have hwrong := hright hf z (next_item_of (hk.of_gap (gap_of_null hget hf)))
      rw [Bool.eq_false_iff, Ne, wrong_right_edge hs] at hwrong
      by_contra hc
      exact hwrong ⟨hk.full, hzs, by omega⟩
  -- behind an item of the vertex nothing comes before the edge
  have hbig : src ≤ y.src → ∀ k z, Next s p k z → ¬ Before z ⟨src, d, 1⟩ := by
    intro hys k z hk hze
    have hyz := sorted_slots h.arranged.sorted hj.item hk.item hj.full hk.full
      (hj.lt.trans_le hk.ge)
    have h1 := before_src hyz
    have h2 : z.src ≤ src := before_src hze
    cases hs : is_sentinel z with
    | false =>
      have hzs : z.src = src := by omega
      have hlt : z.dest < d := (before_edges hs he hzs).mp hze
      have := hzdest k z hk hs hzs
      omega
    | true =>
      rw [(vertex_lt h hs hk.item hk.full).1] at hyz
      have := before_sentinel hyz
      omega
  cases hs : is_sentinel y with
  | true =>
    obtain ⟨heq, hlt⟩ := vertex_lt h hs hj.item hj.full
    rw [heq] at hyleft
    have hysrc := own_of_not_wrong_left hlt hmax hyleft
    apply divides_of_neighbours h hj _ (hbig hysrc.ge)
    rw [heq, hysrc]
    exact sentinel_before he (le_refl src)
  | false =>
    by_cases hysrc : y.src = src
    · apply divides_of_neighbours h hj _ (hbig hysrc.ge)
      rw [before_edges hs he hysrc]
      by_contra hc
      rw [Bool.eq_false_iff, Ne, wrong_left_edge hs] at hyleft
      exact hyleft ⟨hj.full, hysrc, Nat.le_of_not_lt hc⟩
    · -- an edge of another vertex: the next item shows whose region begins or ends here
      obtain ⟨k, z, hk, hzsrc, hyz⟩ : ∃ k z, Next s p k z ∧
          ((is_sentinel z = false ∧ z.src = src) ∨ z = sentinel (src + 1)) ∧ Before y z := by
        cases hf : full s.items[p] with
        | true =>
          have hyw := sorted_slots h.arranged.sorted hj.item hget hj.full hf hj.lt
          refine ⟨p, s.items[p], ⟨le_refl p, hget, hf, fun i x h1 h2 => by omega⟩, ?_, hyw⟩
          cases hws : is_sentinel s.items[p] with
          | false =>
            rw [Bool.eq_false_iff, Ne, foreign_item_edge hws] at hforeign
            left
            refine ⟨rfl, ?_⟩
            by_contra hc
            exact hforeign ⟨hf, hc⟩
          | true =>
            obtain ⟨hweq, hwlt⟩ := vertex_lt h hws hget hf
            generalize s.items[p] = w at hweq hwlt hyw hforeign hf
            rw [hweq] at hyw
            have hpos : 0 < w.src := by
              have := before_sentinel hyw
              omega
            right
            rw [hweq]
            have hnull : w.is_null = false := by simpa [full] using hf
            have hvalue : w.value = w.src := by
              rw [hweq]
              exact sentinel_value hpos
            have hws : is_sentinel w = true := by
              rw [hweq]
              exact is_sentinel_sentinel _
            have := hwlt.ne
            simp [foreign_item, hnull, hws, hvalue, this] at hforeign
            rw [hforeign.1 hforeign.2]
        | false =>
          have hgap := gap_of_null hget hf
          obtain ⟨z, hz, hzs, hlast⟩ : ∃ z, next_item s (p + 1) = some z ∧ is_sentinel z = true ∧
              src + 1 ≠ s.get_n := by
            by_contra hc
            push Not at hc
            exact hno ⟨hgap, ⟨y, hy, hs, hysrc⟩, hc⟩
          obtain ⟨k, hk⟩ := next_item_spec hz
          have hk' := hk.to_gap hgap
          obtain ⟨hzeq, hzlt⟩ := vertex_lt h hzs hk.item hk.full
          have hwrong := hright hf z hz
          rw [hzeq] at hwrong
          have hzsrc := next_of_not_wrong_right hzlt hlast (by have := h.n_le; omega) hwrong
          refine ⟨k, z, hk', .inr (by rw [hzeq, hzsrc]), ?_⟩
          exact sorted_slots h.arranged.sorted hj.item hk.item hj.full hk.full
            (by have := hj.lt; have := hk.ge; omega)
      have hyle : y.src < src := by
        rcases hzsrc with ⟨-, hzsrc⟩ | rfl
        · have := before_src hyz
          omega
        · have := before_sentinel hyz
          omega
      apply divides_of_neighbours h hj (before_of_src hyle)
      intro k' z' hk'
      obtain ⟨rfl, rfl⟩ := hk.unique hk'
      rcases hzsrc with ⟨hzs, hzsrc⟩ | rfl
      · rw [before_edges hzs he hzsrc]
        have := hzdest k z hk hzs hzsrc
        exact Nat.not_lt.mpr this
      · intro hc
        have := before_src hc
        simp at this

/-- A gap in the region of another vertex is accepted. -/
theorem ForeignGap.accepted (h : LaidOut s) (hsrc : src < s.get_n) (hno : ForeignGap s src p) :
    correct_position s src p d = true := by
  obtain ⟨hgap, ⟨y, hy, hs, hysrc⟩, hlast⟩ := hno
  obtain ⟨x, hget, hnull⟩ := id hgap
  have hxfull : full x = false := by simp [full, hnull]
  have hlen := (List.getElem?_eq_some_iff.mp hget).1
  obtain ⟨j, hj⟩ := prev_item_spec hlen.le hy
  rw [correct_position_iff hget]
  refine ⟨by simp [foreign_item, hnull], fun hf => ?_, fun _ z hz => ?_, fun y' hy' => ?_⟩
  · rw [hxfull] at hf
    cases hf
  · obtain ⟨k, hk⟩ := next_item_spec hz
    have hkz := hk.to_gap hgap
    have hjk : j < k := hj.lt.trans_le hkz.ge
    have hyz := sorted_slots h.arranged.sorted hj.item hk.item hj.full hk.full hjk
    cases hzs : is_sentinel z with
    | false =>
      rw [Bool.eq_false_iff, Ne, wrong_right_edge hzs]
      rintro ⟨-, hzsrc, -⟩
      -- the sentinel of `src` would stand between the two
      have hle := before_src hyz
      apply no_item_between h hj.item hk.item hj.full hk.full ?_
        (h.arranged.sentinels src hsrc) (before_of_src (by simp; omega))
        (sentinel_before hzs (le_of_eq hzsrc.symm))
      intro i w hji hik hw
      rcases Nat.lt_or_ge i p with hlt | hge
      · exact hj.gap i w hji hlt hw
      · exact hkz.gap i w hge hik hw
    | true =>
      have hn := hlast z hz hzs
      obtain ⟨hzeq, hzlt⟩ := vertex_lt h hzs hk.item hk.full
      rw [hzeq] at hyz ⊢
      have hpos := before_sentinel hyz
      rw [show wrong_right s.get_n src d (sentinel z.src) = false from by
        simp [wrong_right, hn, sentinel_value (show 0 < z.src by omega), hzlt.ne]]
  · rw [hy] at hy'
    cases hy'
    rw [Bool.eq_false_iff, Ne, wrong_left_edge hs]
    exact fun hc => hysrc hc.2.1

theorem ForeignGap.not_correct (h : LaidOut s) (hno : ForeignGap s src p) :
    ¬ CorrectPlace s src d p := by
  intro hc
  obtain ⟨hgap, ⟨y, hy, hs, hysrc⟩, -⟩ := hno
  obtain ⟨x, hget, -⟩ := hgap
  have hlen := (List.getElem?_eq_some_iff.mp hget).1
  obtain ⟨j, hj⟩ := prev_item_spec hlen.le hy
  obtain ⟨b, hbp, hb⟩ := hc.own
  have hbj : b ≤ j := by
    by_contra hcon
    have := hj.gap b _ (by omega) hbp hb
    simp at this
  have hlt : b < j := by
    rcases Nat.eq_or_lt_of_le hbj with rfl | hlt
    · rw [hj.item] at hb
      rw [Option.some.inj hb] at hs
      simp at hs
    · exact hlt
  have hle : (sentinel src).src ≤ y.src :=
    before_src (sorted_slots h.arranged.sorted hb hj.item (by simp) hj.full hlt)
  rw [sentinel_src] at hle
  -- so the next sentinel stands before `y`
  have hyn := (h.arranged.slot_item hj.item hj.full).src_lt
  obtain ⟨q, hq⟩ := h.arranged.sentinel_slot (show src + 1 < s.get_n by omega)
  have hqj := slot_lt_of_before h.arranged.sorted hq hj.item (by simp) hj.full
    (sentinel_before hs (show src + 1 ≤ y.src by omega))
  have := hc.next q hq
  have := hj.lt
  omega

/-- The validation of a slot, under the lock of its leaf. -/
theorem exec_got_correct (h : LaidOut s) (elem : Edge) (hp : 1 ≤ p) (hget : s.items[p]? = some x) :
    ∃ m, exec (got_correct_insertion_index s.N x src p elem (find_leaf s.N p)
      (get_node_id s.N (find_leaf s.N p))) s = .ok ((correct_position s src p elem.dest, m), s) := by
  have hlen := (List.getElem?_eq_some_iff.mp hget).1
  have hpN : p < s.N := by
    rw [← h.sized.items]
    exact hlen
  rw [get_node_id_find_leaf]
  have hfree : Free .sound s.N ⟨s, no_locks⟩ := ⟨⟨rfl, h.sized.pow, fun _ => h.sized⟩, rfl⟩
  have hheld : Held .sound s.N ⟨s, range .exclusive (p / logN s.N) (p / logN s.N + 1)⟩
      (p / logN s.N) (p / logN s.N) := held_of_range hfree (le_refl _) (slot_in_table h.sized.pow hpN)
  have hmeets : Prog.Meets (locking .sound true) _ _ _ :=
    meets_got_correct x src p elem (find_leaf s.N p) hheld (fun _ => ⟨le_refl _, hpN, hget⟩)
      fun _ => .inr (prev_item_exists (j := 0) hlen.le hp h.first (by simp))
  obtain ⟨⟨b, m⟩, u, hrun, -, hk, -, hb⟩ := meets_exec hmeets
  have hu : u.s = s := hk.2 (by decide)
  rw [hu] at hrun
  exact ⟨m, by rw [← (hb (by decide)).1]; exact hrun⟩

/-- A slot that the validation accepts is correct, unless it is a gap in the region of another
vertex: such a gap is accepted and is wrong. -/
theorem an_accepted_slot_is_correct (s : PCSR) (h : LaidOut s) (src index : Nat) (elem x : Edge)
    (hsrc : src < s.get_n) (hd : elem.dest < UINT32_MAX) (hp : 1 ≤ index)
    (hget : s.items[index]? = some x) :
    ∃ b m, exec (got_correct_insertion_index s.N x src index elem (find_leaf s.N index)
        (get_node_id s.N (find_leaf s.N index))) s = .ok ((b, m), s) ∧
      ((b = true → CorrectPlace s src elem.dest index) ↔ ¬ ForeignGap s src index) := by
  obtain ⟨m, hrun⟩ := exec_got_correct h elem hp hget
  refine ⟨_, m, hrun, ?_⟩
  have hpN : index < s.N := by
    rw [← h.sized.items]
    exact (List.getElem?_eq_some_iff.mp hget).1
  constructor
  · intro hok hno
    exact hno.not_correct h (hok (hno.accepted h hsrc))
  · intro hno hacc
    exact accepted_correct h hsrc hd hp hpN hacc hno

end

/-- Two edges of vertex 0 with a gap between them, and vertex 1 without edges. -/
def two_regions : PCSR where
  N := 8
  items := [sentinel 0, ⟨0, 3, 7⟩, null_edge, ⟨0, 5, 8⟩, sentinel 1, null_edge, null_edge, null_edge]
  nodes := [⟨0, 4, 2⟩, ⟨4, 7, 0⟩]
  versions := [0, 0]
  lock_bsearch := false

theorem two_regions_laid_out : LaidOut two_regions := by
  have hcontents : two_regions.items.filter full = [sentinel 0, ⟨0, 3, 7⟩, ⟨0, 5, 8⟩, sentinel 1] := rfl
  refine ⟨⟨⟨3, rfl⟩, rfl, by decide +kernel⟩, by decide, ?_, rfl⟩
  rw [hcontents]
  refine ⟨?_, ?_, ?_⟩
  · simp [before_iff, is_sentinel, sentinel, UINT32_MAX]
  · intro e he
    simp only [List.mem_cons, List.not_mem_nil, or_false] at he
    rcases he with rfl | rfl | rfl | rfl
    · exact .inr ⟨0, by decide, rfl⟩
    · exact .inl ⟨by decide, by decide, by decide, by decide⟩
    · exact .inl ⟨by decide, by decide, by decide, by decide⟩
    · exact .inr ⟨1, by decide, rfl⟩
  · intro v hv
    change v < 2 at hv
    interval_cases v <;> simp

theorem an_accepted_slot_is_correct_between_two :
    ∃ b m, exec (got_correct_insertion_index 8 null_edge 0 2 ⟨0, 4, 9⟩ 0 0) two_regions =
      .ok ((b, m), two_regions) ∧ (b = true → CorrectPlace two_regions 0 4 2) := by
  obtain ⟨b, m, hrun, hiff⟩ := an_accepted_slot_is_correct two_regions two_regions_laid_out 0 2
    ⟨0, 4, 9⟩ null_edge (by decide) (by decide) (by decide) rfl
  refine ⟨b, m, hrun, hiff.mpr ?_⟩
  rintro ⟨-, ⟨y, hy, -, hsrc⟩, -⟩
  cases hy
  exact hsrc rfl

/-- Slot 2 lies between two edges of vertex 0, and is accepted for an edge of vertex 1. -/
theorem a_foreign_gap_is_accepted : ¬ ∀ (s : PCSR) (src index m : Nat) (elem x : Edge), LaidOut s →
    src < s.get_n → elem.dest < UINT32_MAX → 1 ≤ index → s.items[index]? = some x →
    exec (got_correct_insertion_index s.N x src index elem (find_leaf s.N index)
        (get_node_id s.N (find_leaf s.N index))) s = .ok ((true, m), s) →
      CorrectPlace s src elem.dest index := by
  intro hall
  have hno : ForeignGap two_regions 1 2 := by
    refine ⟨⟨null_edge, rfl, rfl⟩, ⟨⟨0, 3, 7⟩, rfl, by decide, by decide⟩, fun z hz hs => ?_⟩
    cases hz
    exact absurd hs (by decide)
  obtain ⟨m, hrun⟩ := exec_got_correct (p := 2) (x := null_edge) two_regions_laid_out
    ⟨1, 7, 1⟩ (by decide) rfl
  rw [hno.accepted two_regions_laid_out (by decide)] at hrun
  exact hno.not_correct two_regions_laid_out (hall two_regions 1 2 m ⟨1, 7, 1⟩ null_edge
    two_regions_laid_out (by decide) (by decide) (by decide) rfl hrun)

end packed_csr
