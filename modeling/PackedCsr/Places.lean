-- The binary search over a range with gaps: it ends, it reads inside the array,
-- and it finds the place of a destination.
import PackedCsr.Layout

namespace packed_csr

open effects

section

variable {s : PCSR} {start end_ mid d : Nat}

/-! ## From a midpoint to an item -/

/-- What the inner loop finds: an item of the range, the only one when it stands at the left
end, or it has seen that the range holds none. -/
def Found (s : PCSR) (start end_ : Nat) (item : Edge) (check : Nat) : Prop :=
  (full item = true ∧ s.items[check]? = some item ∧ start ≤ check ∧ check < end_ ∧
    (check = start → ∀ j, start < j → j < end_ → IsGap s j)) ∨
  (full item = false ∧ check + 1 = start ∧ ∀ j, start ≤ j → j < end_ → IsGap s j)

theorem gap_of_null {i : Nat} {e : Edge} (h : s.items[i]? = some e) (he : full e = false) :
    IsGap s i := ⟨e, h, by simpa [full] using he⟩

/-- The loop has looked at all slots closer to the midpoint than `change`. -/
theorem fan_loop_spec {rest change check : Nat} {item : Edge} (hs : Sized s) (h1 : 1 ≤ start)
    (hend : end_ < s.N) (hmid : start < mid) (hmid' : mid < end_) (hhalf : start + end_ ≤ mid * 2 + 1)
    (hitem : full item = false) (hpos : 0 < change) (hchange : change ≤ mid - start + 1)
    (hseen : ∀ j, start ≤ j → j < end_ → mid < j + change → j < mid + change → IsGap s j)
    (hrest : mid - start + 3 ≤ rest + change) :
    ∃ item' check', exec (fan_loop start end_ mid rest change item check true) s =
      .ok ((item', check'), s) ∧ Found s start end_ item' check' := by
  induction rest generalizing change item check with
  | zero => omega
  | succ rest ih =>
    have hnull : item.is_null = true := by simpa [full] using hitem
    obtain ⟨r, rfl⟩ : ∃ r, rest = r + 1 := ⟨rest - 1, by omega⟩
    -- the slot to the left of the midpoint
    have hleft : ∀ right, full right = false →
        (mid + change < end_ → IsGap s (mid + change)) → change ≤ mid - start →
        ∃ item' check', exec (do
            let left ← look (·.item (mid - change))
            fan_loop start end_ mid (r + 1) (change + 1) left (mid - change) true) s =
          .ok ((item', check'), s) ∧ Found s start end_ item' check' := by
      intro right hright hgap hle
      have hlt : mid - change < s.items.length := by
        rw [hs.items]
        omega
      rw [exec_look_bind (item_of_lt hlt)]
      have hget := List.getElem?_eq_getElem hlt
      cases hf : full s.items[mid - change] with
      | false =>
        apply ih hf (by omega) (by omega) _ (by omega)
        intro j hj hj' hlo hhi
        rcases Nat.lt_or_ge j (mid + change) with hj1 | hj1
        · rcases Nat.lt_or_ge mid (j + change) with hj2 | hj2
          · exact hseen j hj hj' hj2 hj1
          · obtain rfl : j = mid - change := by omega
            exact gap_of_null hget hf
        · obtain rfl : j = mid + change := by omega
          exact hgap hj'
      | true =>
        refine ⟨s.items[mid - change], mid - change, ?_, .inl ⟨hf, hget, by omega, by omega, ?_⟩⟩
        · unfold fan_loop
          rw [if_pos (by simpa [full] using hf)]
          rfl
        · -- the right side is as long as the left side
          intro hstart j hj hj'
          rcases Nat.lt_or_ge j (mid + change) with hj1 | hj1
          · exact hseen j (by omega) hj' (by omega) hj1
          · obtain rfl : j = mid + change := by omega
            exact hgap hj'
    have hsub : change ≤ mid → sub32 mid change = mid - change := fun h => if_pos h
    unfold fan_loop
    rw [if_neg (by simp [hnull])]
    by_cases hr : mid + change < end_
    · have hlt : mid + change < s.items.length := by
        rw [hs.items]
        omega
      have hget := List.getElem?_eq_getElem hlt
      rw [if_pos hr, exec_look_bind (item_of_lt hlt)]
      cases hf : full s.items[mid + change] with
      | true =>
        rw [if_pos (by simpa [full] using hf)]
        exact ⟨_, _, rfl, .inl ⟨hf, hget, by omega, hr, by omega⟩⟩
      | false =>
        rw [if_neg (by simpa [full] using hf)]
        dsimp only
        rw [hsub (by omega), if_pos (by omega)]
        exact hleft _ hf (fun _ => gap_of_null hget hf) (by omega)
    · rw [if_neg hr]
      dsimp only
      rw [hsub (by omega)]
      by_cases hl : start ≤ mid - change
      · rw [if_pos hl]
        exact hleft item hitem (fun h => absurd h hr) (by omega)
      · rw [if_neg hl]
        refine ⟨item, mid - change, ?_, .inr ⟨hitem, by omega, ?_⟩⟩
        · unfold fan_loop
          rw [if_pos (by simp)]
          rfl
        · intro j hj hj'
          exact hseen j hj hj' (by omega) (by omega)

theorem fan_spec {item : Edge} (hs : Sized s) (h1 : 1 ≤ start) (hend : end_ < s.N)
    (hwide : start + 1 < end_) (hmid : mid = (start + end_) / 2) (hget : s.items[mid]? = some item) :
    ∃ item' check', exec (fan_loop start end_ mid (end_ - start + 1) 1 item mid true) s =
      .ok ((item', check'), s) ∧ Found s start end_ item' check' := by
  cases hf : full item with
  | false =>
    apply fan_loop_spec hs h1 hend (by omega) (by omega) (by omega) hf (by omega) (by omega) _
      (by omega)
    intro j _ _ hlo hhi
    obtain rfl : j = mid := by omega
    exact gap_of_null hget hf
  | true =>
    refine ⟨item, mid, ?_, .inl ⟨hf, hget, by omega, by omega, by omega⟩⟩
    unfold fan_loop
    rw [if_pos (by simpa [full] using hf)]
    rfl

/-! ## The range that is left -/

/-- The items of a range are strictly ascending. -/
def Ascending (s : PCSR) (start end_ : Nat) : Prop :=
  ∀ (i j : Nat) (a b : Edge), start ≤ i → i < j → j < end_ → s.items[i]? = some a →
    s.items[j]? = some b → full a = true → full b = true → a.dest < b.dest

/-- `p` is the place of destination `d` in `[start, end_)`. -/
structure Answer (s : PCSR) (d start end_ p : Nat) : Prop where
  ge : start ≤ p
  le : p ≤ end_
  before : ∀ (i : Nat) (e : Edge), start ≤ i → i < p → s.items[i]? = some e → full e = true → e.dest < d
  at_ : ∀ e, p < end_ → s.items[p]? = some e → full e = true → d ≤ e.dest
  after : ∀ (i : Nat) (e : Edge), p < i → i < end_ → s.items[i]? = some e → full e = true → d < e.dest

/-- The outer loop has narrowed `[s0, e0)` to `[start, end_)`. -/
structure Narrowed (s : PCSR) (d s0 e0 start end_ : Nat) : Prop where
  ge : s0 ≤ start
  lt : start ≤ end_
  le : end_ ≤ e0
  before : ∀ (i : Nat) (e : Edge), s0 ≤ i → i < start → s.items[i]? = some e → full e = true → e.dest < d
  after : ∀ (i : Nat) (e : Edge), end_ ≤ i → i < e0 → s.items[i]? = some e → full e = true → d < e.dest

variable {s0 e0 : Nat}

theorem not_gap {i : Nat} {e : Edge} {A : Prop} (h : IsGap s i) (hi : s.items[i]? = some e)
    (he : full e = true) : A := by
  obtain ⟨e', he', hn⟩ := h
  rw [hi] at he'
  cases he'
  simp [full, hn] at he

theorem Narrowed.inside (h : Narrowed s d s0 e0 start end_) {p : Nat} (hp : start ≤ p) (hp' : p ≤ end_)
    (hbefore : ∀ (i : Nat) (e : Edge), start ≤ i → i < p → s.items[i]? = some e → full e = true →
      e.dest < d)
    (hat : ∀ e, p < end_ → s.items[p]? = some e → full e = true → d ≤ e.dest)
    (hafter : ∀ (i : Nat) (e : Edge), p < i → i < end_ → s.items[i]? = some e → full e = true →
      d < e.dest) : Answer s d s0 e0 p := by
  refine ⟨h.ge.trans hp, hp'.trans h.le, ?_, ?_, ?_⟩
  · intro i e hi hip hget hf
    rcases Nat.lt_or_ge i start with hlt | hge
    · exact h.before i e hi hlt hget hf
    · exact hbefore i e hge hip hget hf
  · intro e hpe hget hf
    rcases Nat.lt_or_ge p end_ with hlt | hge
    · exact hat e hlt hget hf
    · exact (h.after p e hge hpe hget hf).le
  · intro i e hi hie hget hf
    rcases Nat.lt_or_ge i end_ with hlt | hge
    · exact hafter i e hi hlt hget hf
    · exact h.after i e hge hie hget hf

theorem load_leaf (hs : Sized s) {i : Nat} (hi : i < s.N) :
    ∃ v, s.load (i / logN s.N) = .ok v ∧
      s.load (get_node_id s.N (find_leaf s.N i)) = .ok v := by
  have hlt : i / logN s.N < s.versions.length := by
    rw [hs.versions, Nat.div_lt_iff_lt_mul (logN_pos _), Nat.div_mul_cancel (logN_dvd hs.pow)]
    exact hi
  refine ⟨s.versions[i / logN s.N], ?_, ?_⟩
  · unfold PCSR.load
    rw [List.getElem?_eq_getElem hlt]
  · unfold PCSR.load
    rw [get_node_id_find_leaf, List.getElem?_eq_getElem hlt]

theorem search_loop_spec {rest : Nat} (hs : Sized s) (h1 : 1 ≤ s0) (he0 : e0 < s.N)
    (hasc : Ascending s s0 e0) (hn : Narrowed s d s0 e0 start end_) (hrest : end_ < start + rest) :
    (∃ p v, exec (search_loop s.N d rest start end_) s = .ok (.inl (p, v), s) ∧
      s.load (p / logN s.N) = .ok v ∧ Answer s d s0 e0 p) ∨
    ∃ start' end', exec (search_loop s.N d rest start end_) s = .ok (.inr (start', end'), s) ∧
      Narrowed s d s0 e0 start' end' ∧ end' ≤ start' + 1 := by
  induction rest generalizing start end_ with
  | zero => exact absurd hrest (by have := hn.lt; omega)
  | succ rest ih =>
    have hge := hn.ge
    have hle := hn.le
    unfold search_loop
    by_cases hwide : start + 1 < end_
    · rw [if_pos hwide]
      dsimp only
      generalize hmid : (start + end_) / 2 = mid
      have hlt : mid < s.items.length := by
        rw [hs.items]
        omega
      obtain ⟨item, check, hfan, hfound⟩ := fan_spec hs (by omega) (by omega) hwide hmid.symm
        (List.getElem?_eq_getElem hlt)
      have hcheck : check < s.N := by
        rcases hfound with ⟨-, -, -, hc, -⟩ | ⟨-, hc, -⟩ <;> omega
      obtain ⟨v, hv, hload⟩ := load_leaf hs hcheck
      obtain ⟨v2, hv2, hload2⟩ := load_leaf (i := mid) hs (by omega)
      rw [exec_look_bind (item_of_lt hlt), exec_bind_ok hfan]
      dsimp only
      rw [exec_look_bind hload, exec_look_bind hload2]
      rcases hfound with ⟨hf, hget, hc1, hc2, hstart⟩ | ⟨hf, hc, hgaps⟩
      · have hnull : item.is_null = false := by simpa [full] using hf
        have hne : (end_ == check) = false := by simpa using by omega
        rw [hnull, hne]
        by_cases hs' : check = start
        · -- the only item of the range stands at its left end
          subst hs'
          have hgap := hstart rfl
          simp only [beq_self_eq_true, Bool.or_true, Bool.or_false, if_true, Bool.not_false,
            Bool.true_and, decide_eq_true_eq]
          by_cases hd : d ≤ item.dest
          · rw [if_pos hd]
            refine .inl ⟨check, v, rfl, hv, hn.inside (le_refl _) hn.lt ?_ ?_ ?_⟩
            · intro i e hi hi'
              omega
            · intro e _ he hfe
              rw [hget] at he
              cases he
              exact hd
            · intro i e hi hi' he hfe
              exact not_gap (hgap i hi hi') he hfe
          · rw [if_neg hd]
            refine .inl ⟨mid, v2, rfl, hv2, hn.inside (by omega) (by omega) ?_ ?_ ?_⟩
            · intro i e hi hi' he hfe
              rcases Nat.eq_or_lt_of_le hi with rfl | hlt'
              · rw [hget] at he
                cases he
                omega
              · exact not_gap (hgap i hlt' (by omega)) he hfe
            · intro e hm he hfe
              exact not_gap (hgap mid (by omega) hm) he hfe
            · intro i e hi hi' he hfe
              exact not_gap (hgap i (by omega) hi') he hfe
        · have hne' : (start == check) = false := by simpa using Ne.symm hs'
          rw [hne']
          simp only [Bool.or_false, Bool.false_eq_true, if_false]
          rw [exec_look_bind hload]
          have hbelow : ∀ (i : Nat) (e : Edge), s0 ≤ i → i < check → s.items[i]? = some e →
              full e = true → e.dest < item.dest := fun i e hi hi' he hfe =>
            hasc i check e item hi hi' (by omega) he hget hfe hf
          have habove : ∀ (i : Nat) (e : Edge), check < i → i < e0 → s.items[i]? = some e →
              full e = true → item.dest < e.dest := fun i e hi hi' he hfe =>
            hasc check i item e (by omega) hi hi' hget he hf hfe
          by_cases heq : d = item.dest
          · rw [if_pos heq]
            refine .inl ⟨check, v, rfl, hv, ⟨by omega, by omega, ?_, ?_, ?_⟩⟩
            · intro i e hi hi' he hfe
              rw [heq]
              exact hbelow i e hi hi' he hfe
            · intro e _ he _
              rw [hget] at he
              cases he
              omega
            · intro i e hi hi' he hfe
              rw [heq]
              exact habove i e hi hi' he hfe
          · rw [if_neg heq]
            by_cases hd : d < item.dest
            · rw [if_pos hd]
              apply ih _ (by omega)
              refine ⟨hge, hc1, by omega, hn.before, ?_⟩
              intro i e hi hi' he hfe
              rcases Nat.eq_or_lt_of_le hi with rfl | hlt'
              · rw [hget] at he
                cases he
                exact hd
              · exact hd.trans (habove i e hlt' hi' he hfe)
            · rw [if_neg hd]
              apply ih _ (by omega)
              refine ⟨by omega, by omega, hle, ?_, hn.after⟩
              intro i e hi hi' he hfe
              have := hbelow i e hi hi' he hfe
              omega
      · have hnull : item.is_null = true := by simpa [full] using hf
        rw [hnull]
        simp only [Bool.true_or, if_true, Bool.not_true, Bool.false_and, Bool.false_eq_true, if_false]
        refine .inl ⟨mid, v2, rfl, hv2, hn.inside (by omega) (by omega) ?_ ?_ ?_⟩
        · intro i e hi hi' he hfe
          exact not_gap (hgaps i hi (by omega)) he hfe
        · intro e hm he hfe
          exact not_gap (hgaps mid (by omega) hm) he hfe
        · intro i e hi hi' he hfe
          exact not_gap (hgaps i (by omega) hi') he hfe
    · rw [if_neg hwide]
      exact .inr ⟨start, end_, rfl, hn, by omega⟩

/-- The end of the search, where at most one slot is left. -/
theorem search_end_spec (elem : Edge) (start end_ : Nat) {start' end' : Nat} (hs : Sized s) (hstart : start' < s.N)
    (hend : end' < s.N) :
    ∃ p v, exec (do
        let ins_v ← look (·.load (get_node_id s.N (find_leaf s.N start')))
        let item ← look (·.item start')
        if elem.dest ≤ item.dest && !item.is_null then
          nodes_unlock_shared false (get_node_id s.N (find_leaf s.N start)) (get_node_id s.N (find_leaf s.N end_))
          pure (start', ins_v)
        else
          let ins_v ← look (·.load (get_node_id s.N (find_leaf s.N end')))
          nodes_unlock_shared false (get_node_id s.N (find_leaf s.N start)) (get_node_id s.N (find_leaf s.N end_))
          pure (end', ins_v)) s = .ok ((p, v), s) ∧ s.load (p / logN s.N) = .ok v ∧
      ((p = start' ∧ ∃ e, s.items[start']? = some e ∧ full e = true ∧ elem.dest ≤ e.dest) ∨
        (p = end' ∧ ∀ e, s.items[start']? = some e → full e = true → e.dest < elem.dest)) := by
  obtain ⟨v, hv, hload⟩ := load_leaf hs hstart
  obtain ⟨v2, hv2, hload2⟩ := load_leaf hs hend
  have hlt : start' < s.items.length := by
    rw [hs.items]
    exact hstart
  have hget := List.getElem?_eq_getElem hlt
  rw [exec_look_bind hload, exec_look_bind (item_of_lt hlt)]
  by_cases hd : (decide (elem.dest ≤ s.items[start'].dest) && !s.items[start'].is_null) = true
  · rw [if_pos hd]
    simp only [Bool.and_eq_true, decide_eq_true_eq] at hd
    exact ⟨start', v, rfl, hv, .inl ⟨rfl, _, hget, hd.2, hd.1⟩⟩
  · rw [if_neg hd, exec_look_bind hload2]
    refine ⟨end', v2, rfl, hv2, .inr ⟨rfl, fun e he hf => ?_⟩⟩
    rw [hget] at he
    cases he
    by_contra hc
    apply hd
    simp only [Bool.and_eq_true, decide_eq_true_eq]
    exact ⟨by omega, hf⟩

/-- The binary search ends and reads inside the array. It gives the place of the destination,
with the version of the leaf of that slot. -/
theorem binary_search_spec (elem : Edge) (hs : Sized s) (h1 : 1 ≤ start) (hend : end_ < s.N)
    (hasc : Ascending s start end_) :
    ∃ p v, exec (binary_search s.N elem start end_ false) s = .ok ((p, v), s) ∧
      s.load (p / logN s.N) = .ok v ∧ (end_ ≤ start → p = end_) ∧
      (start ≤ end_ → Answer s elem.dest start end_ p) := by
  unfold binary_search
  dsimp only
  rcases Nat.lt_or_ge end_ start with hback | hle
  · -- nothing to search: the loop does not start, and the left end moves to the right end
    have hloop : exec (search_loop s.N elem.dest (end_ - start + 1) start end_) s =
        .ok (.inr (start, end_), s) := by
      unfold search_loop
      rw [if_neg (by omega)]
      rfl
    obtain ⟨p, v, hrun, hv, hp⟩ := search_end_spec elem start end_ hs hend hend
    rw [exec_bind_ok hloop]
    dsimp only
    rw [if_pos hback]
    refine ⟨p, v, hrun, hv, fun _ => ?_, fun h => absurd h (by omega)⟩
    rcases hp with ⟨rfl, -⟩ | ⟨rfl, -⟩ <;> rfl
  · have hn : Narrowed s elem.dest start end_ start end_ := by
      refine ⟨le_refl _, hle, le_refl _, ?_, ?_⟩
      · intro i e hi hi'
        omega
      · intro i e hi hi'
        omega
    have hends : ∀ p, Answer s elem.dest start end_ p → end_ ≤ start → p = end_ := by
      intro p hp hse
      have := hp.ge
      have := hp.le
      omega
    have hrest : end_ < start + (end_ - start + 1) := by omega
    rcases search_loop_spec hs h1 hend hasc hn hrest with
      ⟨p, v, hloop, hv, hp⟩ | ⟨start', end', hloop, hn', hlast⟩
    · rw [exec_bind_ok hloop]
      exact ⟨p, v, rfl, hv, hends p hp, fun _ => hp⟩
    · have hlt := hn'.lt
      have hle' := hn'.le
      obtain ⟨p, v, hrun, hv, hp⟩ := search_end_spec elem start end_ hs
        (show start' < s.N by omega) (show end' < s.N by omega)
      rw [exec_bind_ok hloop]
      dsimp only
      rw [if_neg (by omega)]
      have hanswer : Answer s elem.dest start end_ p := by
        rcases hp with ⟨rfl, x, hx, hfx, hdx⟩ | ⟨rfl, hlow⟩
        · refine hn'.inside (le_refl _) hlt ?_ ?_ ?_
          · intro i e hi hi'
            omega
          · intro e _ he _
            rw [hx] at he
            cases he
            exact hdx
          · intro i e hi hi'
            omega
        · refine hn'.inside hlt (le_refl _) ?_ ?_ ?_
          · intro i e hi hi' he hfe
            obtain rfl : i = start' := by omega
            exact hlow e he hfe
          · intro e he
            omega
          · intro i e hi hi'
            omega
      exact ⟨p, v, hrun, hv, hends p hanswer, fun _ => hanswer⟩

end

/-! ## The law -/

/-- The binary search ends, whatever the gaps of the range are, and all its reads are inside the
array. It finds the slot that divides the range, the slot of the destination where it has one,
and the version of the leaf of that slot. -/
theorem binary_search_divides_the_range (s : PCSR) (hs : Sized s) (elem : Edge) (start end_ : Nat)
    (h1 : 1 ≤ start) (hend : end_ < s.N) (hasc : Ascending s start end_) :
    ∃ p v, exec (binary_search s.N elem start end_ false) s = .ok ((p, v), s) ∧
      s.load (p / logN s.N) = .ok v ∧ (end_ ≤ start → p = end_) ∧
      (start ≤ end_ → start ≤ p ∧ p ≤ end_ ∧
        (∀ (i : Nat) (e : Edge), start ≤ i → i < p → s.items[i]? = some e → full e = true →
          e.dest < elem.dest) ∧
        (∀ (i : Nat) (e : Edge), p ≤ i → i < end_ → s.items[i]? = some e → full e = true →
          elem.dest ≤ e.dest) ∧
        ∀ (q : Nat) (e : Edge), start ≤ q → q < end_ → s.items[q]? = some e → full e = true →
          e.dest = elem.dest → p = q) := by
  obtain ⟨p, v, hrun, hv, hback, hplace⟩ := binary_search_spec elem hs h1 hend hasc
  refine ⟨p, v, hrun, hv, hback, fun hle => ?_⟩
  have h := hplace hle
  refine ⟨h.ge, h.le, h.before, ?_, ?_⟩
  · intro i e hi hi' he hf
    rcases Nat.eq_or_lt_of_le hi with rfl | hlt
    · exact h.at_ e hi' he hf
    · exact (h.after i e hlt hi' he hf).le
  · intro q e hq hq' he hf hd
    rcases Nat.lt_trichotomy q p with hlt | heq | hgt
    · have := h.before q e hq hlt he hf
      omega
    · exact heq.symm
    · have := h.after q e hgt hq' he hf
      omega

/-- Two edges of vertex 0, with gaps around them. -/
def two_edges : PCSR where
  N := 8
  items := [sentinel 0, ⟨0, 3, 7⟩, null_edge, null_edge, ⟨0, 6, 8⟩, null_edge, null_edge, null_edge]
  nodes := [⟨0, 7, 2⟩]
  versions := [4, 5]
  lock_bsearch := true

theorem two_edges_sized : Sized two_edges := ⟨⟨3, rfl⟩, rfl, by decide +kernel⟩

theorem two_edges_ascending : Ascending two_edges 1 7 := by
  have h : ∀ i < 7, ∀ j < 7, ∀ a ∈ two_edges.items[i]?, ∀ b ∈ two_edges.items[j]?, 1 ≤ i → i < j →
      full a = true → full b = true → a.dest < b.dest := by decide +kernel
  intro i j a b hi hij hj ha hb hfa hfb
  exact h i (by omega) j hj a ha b hb hi hij hfa hfb

theorem binary_search_divides_two_edges :
    ∃ p v, exec (binary_search 8 ⟨0, 6, 1⟩ 1 7 false) two_edges = .ok ((p, v), two_edges) ∧
      two_edges.load (p / logN 8) = .ok v ∧ p = 4 := by
  obtain ⟨p, v, hrun, hv, -, h⟩ := binary_search_divides_the_range two_edges two_edges_sized ⟨0, 6, 1⟩
    1 7 (by decide) (by decide) two_edges_ascending
  obtain ⟨-, -, -, -, hq⟩ := h (by decide)
  exact ⟨p, v, hrun, hv, hq 4 ⟨0, 6, 8⟩ (by decide) (by decide) rfl rfl rfl⟩

end packed_csr
