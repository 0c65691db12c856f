-- The binary search while other threads change the array. It takes no lock, so each of its
-- reads may see other contents. What it relies on is the size of the array alone.
import PackedCsr.Places

namespace packed_csr

open effects

/-! ## The rule

`seen` lists the arrays that the reads found, the last one first. Only their size is known. -/

/-- The arrays agree in the slots from `a` to `b`, and in the versions of these slots and of the
slot in front. -/
structure Agree (a b : Nat) (s s' : PCSR) : Prop where
  item : ∀ i, a ≤ i → i ≤ b → s.item i = s'.item i
  load : ∀ i, a ≤ i + 1 → i ≤ b → s.load (i / logN s.N) = s'.load (i / logN s.N)

/-- An array of `N` slots, with any contents. -/
def OfSize (N : Nat) (s : PCSR) : Prop := Sized s ∧ s.N = N

/-- An access is a read of the slots from `a` to `b` that no contents make fail. A leaf lock is
only released, with `unlock` set and from `first` to `last`. -/
def reading.ask (N a b first last : Nat) (unlock : Bool) : ∀ {β : Type}, Instr β → List PCSR → Prop
  | _, .act f, _ => (∀ s, OfSize N s → ∃ r, f s = .ok (r, s)) ∧
      ∀ s s' r r', OfSize N s → OfSize N s' → Agree a b s s' → f s = .ok (r, s) →
        f s' = .ok (r', s') → r = r'
  | _, .leaf c i, _ => unlock = true ∧ c = .unlock_shared ∧ first ≤ i ∧ i ≤ last
  | _, .test _ _, _ | _, .global _, _ => False

def reading.can (N : Nat) : ∀ {β : Type}, Instr β → List PCSR → β → List PCSR → Prop
  | _, .act f, seen, r, seen' => ∃ s, OfSize N s ∧ f s = .ok (r, s) ∧ seen' = s :: seen
  | _, .test _ _, seen, _, seen' | _, .leaf _ _, seen, _, seen' | _, .global _, seen, _, seen' => seen' = seen

def reading (N a b first last : Nat) (unlock : Bool) : Prog.Rule Instr (List PCSR) :=
  ⟨reading.ask N a b first last unlock, reading.can N⟩

/-- A read found item `e` in slot `i`. -/
def Saw (seen : List PCSR) (i : Nat) (e : Edge) : Prop := ∃ s ∈ seen, s.item i = .ok e

/-- A read found version `v` at the leaf of slot `i`. -/
def SawVersion (N : Nat) (seen : List PCSR) (i v : Nat) : Prop := ∃ s ∈ seen, s.load (i / logN N) = .ok v

section

variable {N a b first last start end_ mid d i : Nat} {seen seen' : List PCSR} {e : Edge} {unlock : Bool}

theorem Saw.mono (h : Saw seen i e) (hsub : seen ⊆ seen') : Saw seen' i e := by
  obtain ⟨s, hs, hi⟩ := h
  exact ⟨s, hsub hs, hi⟩

theorem SawVersion.mono {v : Nat} (h : SawVersion N seen i v) (hsub : seen ⊆ seen') : SawVersion N seen' i v := by
  obtain ⟨s, hs, hi⟩ := h
  exact ⟨s, hsub hs, hi⟩

/-! ## Single reads -/

theorem meets_read {β : Type} {f : PCSR → Res β} {P : β → List PCSR → Prop}
    (hf : ∀ s, OfSize N s → ∃ r, f s = .ok r)
    (hlocal : ∀ s s', OfSize N s → Agree a b s s' → f s = f s')
    (hP : ∀ s r, f s = .ok r → P r (s :: seen)) :
    Prog.Meets (reading N a b first last unlock) (look f) P seen := by
  refine ⟨⟨fun s hs => ?_, fun s s' r r' hs _ hagree hr hr' => ?_⟩, fun r seen' hc => ?_⟩
  · obtain ⟨r, hr⟩ := hf s hs
    exact ⟨r, by simp only [hr]; rfl⟩
  · obtain ⟨r1, h1, h2⟩ := map_ok hr
    obtain ⟨r2, h3, h4⟩ := map_ok hr'
    cases h2
    cases h4
    exact Except.ok.inj (h1.symm.trans ((hlocal s s' hs hagree).trans h3))
  · obtain ⟨s, -, hr, rfl⟩ := hc
    obtain ⟨r1, h1, h2⟩ := map_ok hr
    cases h2
    exact hP s r h1

theorem meets_read_item (h1 : a ≤ i) (h2 : i ≤ b) (hb : b < N) :
    Prog.Meets (reading N a b first last unlock) (look (·.item i))
      (fun e seen' => seen ⊆ seen' ∧ Saw seen' i e) seen := by
  apply meets_read
  · intro s hs
    exact ⟨_, item_of_lt (by rw [hs.1.items, hs.2]; omega)⟩
  · intro s s' _ hagree
    exact hagree.item i h1 h2
  · intro s e he
    exact ⟨List.subset_cons_self s seen, s, List.mem_cons_self, he⟩

theorem meets_read_version (h1 : a ≤ i + 1) (h2 : i ≤ b) (hb : b < N) :
    Prog.Meets (reading N a b first last unlock) (look (·.load (get_node_id N (find_leaf N i))))
      (fun v seen' => seen ⊆ seen' ∧ SawVersion N seen' i v) seen := by
  rw [get_node_id_find_leaf]
  apply meets_read
  · rintro s ⟨hs, rfl⟩
    obtain ⟨v, hv, -⟩ := load_leaf hs (show i < s.N by omega)
    exact ⟨v, hv⟩
  · rintro s s' ⟨-, rfl⟩ hagree
    exact hagree.load i h1 h2
  · intro s v hv
    exact ⟨List.subset_cons_self s seen, s, List.mem_cons_self, hv⟩

/-! ## From a midpoint to an item -/

/-- At some read, slot `i` was free. -/
def SawFree (seen : List PCSR) (i : Nat) : Prop := ∃ e, Saw seen i e ∧ e.is_null = true

theorem SawFree.mono (h : SawFree seen i) (hsub : seen ⊆ seen') : SawFree seen' i := by
  obtain ⟨e, he, hnull⟩ := h
  exact ⟨e, he.mono hsub, hnull⟩

/-- What the inner loop comes back with: an item that it saw in a slot of the range, or nothing
and a slot of the range or the one in front. It left the midpoint only where that was free. -/
structure Fanned (start end_ mid : Nat) (seen : List PCSR) (item : Edge) (check : Nat) : Prop where
  ge : start ≤ check + 1
  lt : check < end_
  saw : item.is_null = false → start ≤ check ∧ Saw seen check item
  mid : item.is_null = false ∧ check = mid ∨ SawFree seen mid

theorem fan_loop_meets {rest change check : Nat} {item : Edge} (h1 : 1 ≤ start) (ha : a ≤ start)
    (hend : end_ ≤ b) (hb : b < N) (hmid : start < mid) (hmid' : mid < end_)
    (hhalf : start + end_ ≤ mid * 2 + 1) (hitem : Fanned start end_ mid seen item check)
    (hchange : item.is_null = true → change ≤ mid - start + 1) (hpos : 0 < change)
    (hrest : mid - start + 3 ≤ rest + change) (hone : 0 < rest) :
    Prog.Meets (reading N a b first last unlock) (fan_loop start end_ mid rest change item check true)
      (fun r seen' => seen ⊆ seen' ∧ Fanned start end_ mid seen' r.1 r.2) seen := by
  induction rest generalizing change item check seen with
  | zero => exact absurd hone (Nat.lt_irrefl 0)
  | succ rest ih =>
    unfold fan_loop
    cases hnull : item.is_null with
    | false => exact ⟨List.Subset.refl seen, hitem⟩
    | true =>
      have hle := hchange hnull
      have hfree : SawFree seen mid := hitem.mid.resolve_left fun h => by
        rw [hnull] at h
        cases h.1
      -- the slot to the left of the midpoint
      have hleft : ∀ seen1, seen ⊆ seen1 → change ≤ mid - start →
          Prog.Meets (reading N a b first last unlock) (do
              let left ← look (·.item (mid - change))
              fan_loop start end_ mid rest (change + 1) left (mid - change) true)
            (fun r seen' => seen ⊆ seen' ∧ Fanned start end_ mid seen' r.1 r.2) seen1 := by
        intro seen1 hsub hlt
        refine Prog.meets_seq (meets_read_item (by omega) (by omega) hb) ?_
        rintro left seen2 ⟨hsub2, hsaw⟩
        have hfan : Fanned start end_ mid seen2 left (mid - change) :=
          ⟨by omega, by omega, fun _ => ⟨by omega, hsaw⟩, .inr (hfree.mono (List.Subset.trans hsub hsub2))⟩
        refine Prog.meets_mono (ih hfan (fun _ => by omega) (by omega) (by omega) (by omega)) ?_
        rintro r seen3 ⟨hsub3, hr⟩
        exact ⟨List.Subset.trans hsub (List.Subset.trans hsub2 hsub3), hr⟩
      have hsub32 : sub32 mid change = mid - change := if_pos (by omega)
      rw [if_neg (by simp)]
      dsimp only
      rw [hsub32]
      by_cases hr : mid + change < end_
      · rw [if_pos hr]
        refine Prog.meets_seq (meets_read_item (by omega) (by omega) hb) ?_
        rintro right seen1 ⟨hsub, hsaw⟩
        cases hright : right.is_null with
        | false => exact ⟨hsub, by omega, hr, fun _ => ⟨by omega, hsaw⟩, .inr (hfree.mono hsub)⟩
        | true =>
          rw [if_neg (by simp), if_pos (by omega)]
          exact hleft seen1 hsub (by omega)
      · rw [if_neg hr]
        by_cases hl : start ≤ mid - change
        · rw [if_pos hl]
          exact hleft seen (List.Subset.refl seen) (by omega)
        · -- both sides are used up
          obtain ⟨r, rfl⟩ : ∃ r, rest = r + 1 := ⟨rest - 1, by omega⟩
          rw [if_neg hl]
          unfold fan_loop
          rw [if_pos (by simp)]
          refine ⟨List.Subset.refl seen, by omega, by omega, fun h => ?_, .inr hfree⟩
          rw [hnull] at h
          cases h

/-! ## The range that is left -/

/-- At some read, slot `p` was free or held an item that is not smaller. -/
def SawPlace (d : Nat) (seen : List PCSR) (p : Nat) : Prop :=
  ∃ e, Saw seen p e ∧ (e.is_null = true ∨ d ≤ e.dest)

theorem SawPlace.mono (h : SawPlace d seen i) (hsub : seen ⊆ seen') : SawPlace d seen' i := by
  obtain ⟨e, he, hd⟩ := h
  exact ⟨e, he.mono hsub, hd⟩

/-- A slot with which the search may end, and the version that goes with it. -/
structure Outcome (N d a b : Nat) (seen : List PCSR) (r : Nat × Nat) : Prop where
  ge : a ≤ r.1
  le : r.1 ≤ b
  version : SawVersion N seen r.1 r.2
  place : r.1 = b ∨ SawPlace d seen r.1

/-- The outer loop ends with an outcome, or with a range that it narrowed at items it saw. -/
def Left (N d a b : Nat) (seen : List PCSR) : (Nat × Nat) ⊕ (Nat × Nat) → Prop
  | .inl r => Outcome N d a b seen r
  | .inr (start, end_) => a ≤ start ∧ start ≤ end_ ∧ end_ ≤ b ∧ (end_ = b ∨ SawPlace d seen end_)

theorem search_loop_meets {rest : Nat} (h1 : 1 ≤ start) (ha : a ≤ start) (hle : start ≤ end_)
    (hend : end_ ≤ b) (hb : b < N) (hplace : end_ = b ∨ SawPlace d seen end_) (hrest : end_ < start + rest) :
    Prog.Meets (reading N a b first last unlock) (search_loop N d rest start end_)
      (fun r seen' => seen ⊆ seen' ∧ Left N d a b seen' r) seen := by
  induction rest generalizing start end_ seen with
  | zero => omega
  | succ rest ih =>
    unfold search_loop
    by_cases hwide : start + 1 < end_
    · rw [if_pos hwide]
      dsimp only
      generalize hmid : (start + end_) / 2 = mid
      refine Prog.meets_seq (meets_read_item (by omega) (by omega) hb) ?_
      rintro first_item seen1 ⟨hsub1, hsaw1⟩
      have hfirst : Fanned start end_ mid seen1 first_item mid := by
        refine ⟨by omega, by omega, fun _ => ⟨by omega, hsaw1⟩, ?_⟩
        cases hnull : first_item.is_null with
        | false => exact .inl ⟨rfl, rfl⟩
        | true => exact .inr ⟨first_item, hsaw1, hnull⟩
      refine Prog.meets_seq (fan_loop_meets h1 ha hend hb (by omega) (by omega) (by omega) hfirst
        (fun _ => by omega) (by omega) (by omega) (by omega)) ?_
      rintro ⟨item, check⟩ seen2 ⟨hsub2, hfan⟩
      dsimp only at hfan ⊢
      have hge := hfan.ge
      have hlt := hfan.lt
      refine Prog.meets_seq (meets_read_version (by omega) (by omega) hb) ?_
      rintro ins_v seen3 ⟨hsub3, hv⟩
      refine Prog.meets_seq (meets_read_version (by omega) (by omega) hb) ?_
      rintro ins2 seen4 ⟨hsub4, hv2⟩
      have h24 := List.Subset.trans hsub3 hsub4
      have h04 := List.Subset.trans hsub1 (List.Subset.trans hsub2 h24)
      by_cases hstop : (item.is_null || start == check || end_ == check) = true
      · rw [if_pos hstop]
        by_cases hfirst : (!item.is_null && start == check && decide (d ≤ item.dest)) = true
        · -- the item at the left end is not smaller
          rw [if_pos hfirst]
          simp only [Bool.and_eq_true, Bool.not_eq_true', decide_eq_true_eq] at hfirst
          obtain ⟨⟨hfull, -⟩, hd⟩ := hfirst
          obtain ⟨hc, hsaw⟩ := hfan.saw hfull
          exact ⟨h04, by omega, by omega, hv.mono hsub4, .inr ⟨item, hsaw.mono h24, .inr hd⟩⟩
        · rw [if_neg hfirst]
          have hfree : SawFree seen2 mid := hfan.mid.resolve_left fun h => by
            rw [h.1, h.2] at hstop
            simp only [Bool.false_or, Bool.or_eq_true, beq_iff_eq] at hstop
            omega
          obtain ⟨e, he, hnull⟩ := hfree
          exact ⟨h04, by omega, by omega, hv2, .inr ⟨e, he.mono h24, .inl hnull⟩⟩
      · rw [if_neg hstop]
        simp only [Bool.or_eq_true, beq_iff_eq, not_or, Bool.not_eq_true] at hstop
        obtain ⟨⟨hfull, hstart⟩, -⟩ := hstop
        obtain ⟨hc, hsaw⟩ := hfan.saw hfull
        refine Prog.meets_seq (meets_read_version (by omega) (by omega) hb) ?_
        rintro ins_v' seen5 ⟨hsub5, hv5⟩
        have h05 := List.Subset.trans h04 hsub5
        have hsaw5 := hsaw.mono (List.Subset.trans h24 hsub5)
        by_cases heq : d = item.dest
        · rw [if_pos heq]
          exact ⟨h05, by omega, by omega, hv5, .inr ⟨item, hsaw5, .inr heq.le⟩⟩
        rw [if_neg heq]
        by_cases hd : d < item.dest
        · rw [if_pos hd]
          refine Prog.meets_mono (ih h1 ha hc (by omega) (.inr ⟨item, hsaw5, .inr hd.le⟩) (by omega)) ?_
          rintro r seen6 ⟨hsub6, hr⟩
          exact ⟨List.Subset.trans h05 hsub6, hr⟩
        · rw [if_neg hd]
          refine Prog.meets_mono (ih (by omega) (by omega) (by omega) hend
            (hplace.imp_right fun h => h.mono h05) (by omega)) ?_
          rintro r seen6 ⟨hsub6, hr⟩
          exact ⟨List.Subset.trans h05 hsub6, hr⟩
    · rw [if_neg hwide]
      exact ⟨List.Subset.refl seen, ha, hle, hend, hplace⟩

/-! ## The search -/

theorem leaf_loop_meets (i n : Nat) (h1 : first ≤ i) (h2 : n ≤ last + 1 - i) :
    Prog.Meets (reading N a b first last true) (leaf_loop .unlock_shared i n) (fun _ seen' => seen' = seen) seen := by
  induction n generalizing i with
  | zero => exact rfl
  | succ n ih =>
    unfold leaf_loop
    refine ⟨⟨rfl, rfl, h1, by omega⟩, ?_⟩
    rintro - seen' rfl
    exact ih (i + 1) (by omega) (by omega)

theorem nodes_unlock_shared_meets :
    Prog.Meets (reading N a b first last unlock) (nodes_unlock_shared unlock first last)
      (fun _ seen' => seen' = seen) seen := by
  unfold nodes_unlock_shared
  cases unlock with
  | false => exact rfl
  | true => exact leaf_loop_meets first (last + 1 - first) (le_refl _) (le_refl _)

end

end packed_csr
