-- The layout of the array: the sentinel of a vertex, then its edges in order,
-- then the next vertex; and the node table, which points at the sentinels.
import PackedCsr.Counters
import PackedCsr.Gapped

namespace packed_csr

/-! ## Items -/

/-- The slot holds an item. -/
def full (e : Edge) : Bool := !e.is_null

@[simp] theorem full_null_edge : full null_edge = false := rfl

theorem full_iff {e : Edge} : full e = true ↔ e.value ≠ 0 := by
  simp [full, Edge.is_null]

/-- The sentinel of a vertex, as the constructor writes it. -/
def sentinel (v : Nat) : Edge := ⟨v, UINT32_MAX, if v = 0 then UINT32_MAX else v⟩

/-- What a call may store: an edge of a vertex below `n`. -/
structure IsEdge (n : Nat) (e : Edge) : Prop where
  src : e.src < n
  dest : e.dest < UINT32_MAX
  value_pos : 0 < e.value
  value_lt : e.value < UINT32_MAX

def IsItem (n : Nat) (e : Edge) : Prop := IsEdge n e ∨ ∃ v < n, e = sentinel v

section

variable {n v : Nat} {e : Edge}

@[simp] theorem is_sentinel_sentinel (v : Nat) : is_sentinel (sentinel v) = true := by
  simp [is_sentinel, sentinel]

@[simp] theorem sentinel_src (v : Nat) : (sentinel v).src = v := rfl

@[simp] theorem sentinel_dest (v : Nat) : (sentinel v).dest = UINT32_MAX := rfl

theorem sentinel_value_ne (v : Nat) : (sentinel v).value ≠ 0 := by
  unfold sentinel
  split
  · simp [UINT32_MAX]
  · simpa using ‹_›

@[simp] theorem full_sentinel (v : Nat) : full (sentinel v) = true :=
  full_iff.mpr (sentinel_value_ne v)

theorem sentinel_vertex_sentinel (h : v < UINT32_MAX) : sentinel_vertex (sentinel v) = v := by
  unfold sentinel_vertex sentinel
  by_cases hv : v = 0
  · simp [hv]
  · simp [hv, h.ne]

theorem sentinel_first (h : v < UINT32_MAX) : (sentinel v).value = UINT32_MAX ↔ v = 0 := by
  unfold sentinel
  by_cases hv : v = 0
  · simp [hv]
  · simp [hv, h.ne]

theorem IsEdge.full (h : IsEdge n e) : full e = true := full_iff.mpr (Nat.ne_of_gt h.value_pos)

theorem IsEdge.not_sentinel (h : IsEdge n e) : is_sentinel e = false := by
  have hd := h.dest.ne
  have hv := h.value_lt.ne
  simp [is_sentinel, hd, hv]

theorem IsItem.full (h : IsItem n e) : full e = true := by
  rcases h with h | ⟨v, -, rfl⟩
  · exact h.full
  · exact full_sentinel v

/-- An item is a sentinel exactly when it is the sentinel of its source. -/
theorem IsItem.sentinel_iff (h : IsItem n e) : is_sentinel e = true ↔ e = sentinel e.src := by
  rcases h with h | ⟨v, -, rfl⟩
  · rw [h.not_sentinel]
    constructor
    · intro hf
      cases hf
    · intro he
      have hd := h.dest
      rw [he] at hd
      exact absurd hd (lt_irrefl _)
  · simp

theorem IsItem.src_lt (h : IsItem n e) : e.src < n := by
  rcases h with h | ⟨v, hv, rfl⟩
  · exact h.src
  · exact hv

theorem IsItem.edge (h : IsItem n e) (hs : is_sentinel e = false) : IsEdge n e := by
  rcases h with h | ⟨v, hv, rfl⟩
  · exact h
  · simp at hs

end

/-! ## The order of the items -/

/-- The place of an item in the order: the sentinel of a vertex comes before its edges. -/
def key (e : Edge) : Nat ×ₗ Nat := toLex (e.src, if is_sentinel e then 0 else e.dest + 1)

def Before (a b : Edge) : Prop := key a < key b

theorem before_iff {a b : Edge} : Before a b ↔ a.src < b.src ∨ a.src = b.src ∧
    (if is_sentinel a then 0 else a.dest + 1) < if is_sentinel b then 0 else b.dest + 1 := by
  simp [Before, key, Prod.Lex.toLex_lt_toLex]

theorem before_irrefl (a : Edge) : ¬ Before a a := lt_irrefl _

theorem before_ne {a b : Edge} (h : Before a b) : a ≠ b := by
  intro hab
  rw [hab] at h
  exact before_irrefl b h

theorem Before.trans {a b c : Edge} (h : Before a b) (h' : Before b c) : Before a c :=
  lt_trans h h'

/-- The items of vertices below `n`, with no sentinel twice. -/
structure Itemized (n : Nat) (c : List Edge) : Prop where
  items : ∀ e ∈ c, IsItem n e
  once : c.Pairwise fun a b => is_sentinel a = true → a ≠ b

/-- The order of the vertices alone: a sentinel, and somewhere behind it the edges of its vertex. -/
def VertexBefore (a b : Edge) : Prop := a.src < b.src ∨ (a.src = b.src ∧ is_sentinel b = false)

/-- The items of an array vertex by vertex, the edges of a vertex in any order. -/
structure Grouped (n : Nat) (c : List Edge) : Prop where
  grouped : c.Pairwise VertexBefore
  items : ∀ e ∈ c, IsItem n e
  sentinels : ∀ v < n, sentinel v ∈ c

/-- The items of an array in order: those of the vertices below `n`, with all the sentinels. -/
structure Arranged (n : Nat) (c : List Edge) : Prop where
  sorted : c.Pairwise Before
  items : ∀ e ∈ c, IsItem n e
  sentinels : ∀ v < n, sentinel v ∈ c

section

variable {n : Nat} {c xs : List Edge}

/-- What holds of each two items in order holds of each two slots in order. -/
theorem slots_pairwise {R : Edge → Edge → Prop} (h : (xs.filter full).Pairwise R) {i j : Nat}
    {a b : Edge} (hi : xs[i]? = some a) (hj : xs[j]? = some b) (ha : full a = true)
    (hb : full b = true) (hij : i < j) : R a b := by
  rw [List.pairwise_filter, List.pairwise_iff_getElem] at h
  obtain ⟨hi', rfl⟩ := List.getElem?_eq_some_iff.mp hi
  obtain ⟨hj', rfl⟩ := List.getElem?_eq_some_iff.mp hj
  exact h i j hi' hj' hij ha hb

/-- Items in order stand in slots in order. -/
theorem sorted_slots (h : (xs.filter full).Pairwise Before) {i j : Nat} {a b : Edge}
    (hi : xs[i]? = some a) (hj : xs[j]? = some b) (ha : full a = true) (hb : full b = true)
    (hij : i < j) : Before a b := slots_pairwise h hi hj ha hb hij

theorem slot_lt_of_before (h : (xs.filter full).Pairwise Before) {i j : Nat} {a b : Edge}
    (hi : xs[i]? = some a) (hj : xs[j]? = some b) (ha : full a = true) (hb : full b = true)
    (hab : Before a b) : i < j := by
  rcases Nat.lt_trichotomy i j with hlt | heq | hgt
  · exact hlt
  · subst heq
    rw [hi] at hj
    cases hj
    exact absurd hab (before_irrefl a)
  · exact absurd (hab.trans (sorted_slots h hj hi hb ha hgt)) (before_irrefl a)

theorem split_at {p : Nat} {x : Edge} (hx : xs[p]? = some x) :
    xs = xs.take p ++ x :: xs.drop (p + 1) := by
  obtain ⟨hp, rfl⟩ := List.getElem?_eq_some_iff.mp hx
  rw [List.getElem_cons_drop, List.take_append_drop]

theorem mem_filter_of_slot {i : Nat} {e : Edge} (hi : xs[i]? = some e) (he : full e = true) :
    e ∈ xs.filter full := List.mem_filter.mpr ⟨List.mem_of_getElem? hi, he⟩

/-- No vertex has a sentinel in two slots. -/
def Distinct (xs : List Edge) : Prop :=
  ∀ i j v : Nat, xs[i]? = some (sentinel v) → xs[j]? = some (sentinel v) → i = j

theorem distinct_of_once (h : (xs.filter full).Pairwise fun a b => is_sentinel a = true → a ≠ b) :
    Distinct xs := by
  intro i j v hi hj
  rcases Nat.lt_trichotomy i j with hlt | heq | hgt
  · exact absurd rfl (slots_pairwise h hi hj (by simp) (by simp) hlt (by simp))
  · exact heq
  · exact absurd rfl (slots_pairwise h hj hi (by simp) (by simp) hgt (by simp))

theorem once_of_sorted (h : c.Pairwise Before) :
    c.Pairwise fun a b => is_sentinel a = true → a ≠ b := by
  apply List.Pairwise.imp _ h
  intro a b hab _
  exact before_ne hab

theorem sorted_distinct (h : (xs.filter full).Pairwise Before) : Distinct xs :=
  distinct_of_once (once_of_sorted h)

theorem Itemized.distinct (h : Itemized n (xs.filter full)) : Distinct xs := distinct_of_once h.once

theorem Itemized.slot_item (h : Itemized n (xs.filter full)) {i : Nat} {e : Edge}
    (hi : xs[i]? = some e) (he : full e = true) : IsItem n e :=
  h.items e (mem_filter_of_slot hi he)

theorem Grouped.itemized (h : Grouped n c) : Itemized n c := by
  refine ⟨h.items, List.Pairwise.imp ?_ h.grouped⟩
  intro a b hab ha heq
  rw [heq] at hab ha
  rcases hab with hab | ⟨-, hb⟩
  · exact lt_irrefl _ hab
  · rw [ha] at hb
    cases hb

theorem Arranged.grouped (h : Arranged n c) : Grouped n c := by
  refine ⟨List.Pairwise.imp ?_ h.sorted, h.items, h.sentinels⟩
  intro a b hab
  rcases before_iff.mp hab with hlt | ⟨heq, hkey⟩
  · exact .inl hlt
  · right
    refine ⟨heq, ?_⟩
    cases hb : is_sentinel b with
    | false => rfl
    | true =>
      rw [hb] at hkey
      simp at hkey

/-- The sentinel of the first vertex is the first item. -/
theorem Grouped.head (h : Grouped n c) (hn : 0 < n) : c.head? = some (sentinel 0) := by
  have hmem := h.sentinels 0 hn
  have hpair := h.grouped
  cases c with
  | nil => cases hmem
  | cons x c =>
    rcases List.mem_cons.mp hmem with h0 | h0
    · rw [h0]
      rfl
    · rcases (List.pairwise_cons.mp hpair).1 _ h0 with hlt | ⟨-, hs⟩
      · exact absurd hlt (Nat.not_lt_zero _)
      · simp at hs

theorem Arranged.itemized (h : Arranged n c) : Itemized n c := ⟨h.items, once_of_sorted h.sorted⟩

theorem Arranged.slot_item (h : Arranged n (xs.filter full)) {i : Nat} {e : Edge}
    (hi : xs[i]? = some e) (he : full e = true) : IsItem n e :=
  h.items e (mem_filter_of_slot hi he)

theorem Arranged.sentinel_slot (h : Arranged n (xs.filter full)) {v : Nat} (hv : v < n) :
    ∃ i : Nat, xs[i]? = some (sentinel v) := by
  have hmem := (List.mem_filter.mp (h.sentinels v hv)).1
  exact List.mem_iff_getElem?.mp hmem

end

/-! ## The pointers of the node table -/

/-- The node of `v` begins at the slot, and the node before it ends there. -/
def PointsTo (nodes : List Node) (v slot : Nat) : Prop :=
  nodes[v]?.map Node.beginning = some slot ∧ (0 < v → nodes[v - 1]?.map Node.end_ = some slot)

/-- The last node ends at the last slot. -/
def EndsAt (nodes : List Node) (N : Nat) : Prop :=
  nodes[nodes.length - 1]?.map Node.end_ = some (N - 1)

section

variable {nodes : List Node} {N v w slot i : Nat}

theorem point_to_beginning (nodes : List Node) (N v slot : Nat) (first : Bool) (w : Nat) :
    (point_to nodes N v slot first)[w]?.map Node.beginning =
      if w = v then nodes[w]?.map fun _ => slot else nodes[w]?.map Node.beginning := by
  unfold point_to
  cases first with
  | true => by_cases hl : v + 1 = nodes.length <;> grind
  | false => by_cases hl : v + 1 = nodes.length <;> grind

theorem point_to_end (nodes : List Node) (N v slot : Nat) (first : Bool) (w : Nat) :
    (point_to nodes N v slot first)[w]?.map Node.end_ =
      if w = v ∧ v + 1 = nodes.length then nodes[w]?.map fun _ => N - 1
      else if first = false ∧ w = v - 1 then nodes[w]?.map fun _ => slot
      else nodes[w]?.map Node.end_ := by
  unfold point_to
  cases first with
  | true => by_cases hl : v + 1 = nodes.length <;> grind
  | false => by_cases hl : v + 1 = nodes.length <;> grind

theorem point_to_self (hv : v < nodes.length) (first : Bool) (h : first = true ↔ v = 0) :
    PointsTo (point_to nodes N v slot first) v slot := by
  constructor
  · simp [point_to_beginning, hv]
  · intro hpos
    have hf : first = false := by
      cases first with
      | true => exact absurd (h.mp rfl) (Nat.ne_of_gt hpos)
      | false => rfl
    rw [point_to_end, if_neg (by omega), if_pos ⟨hf, rfl⟩, List.getElem?_eq_getElem (by omega)]
    rfl

theorem point_to_other (hne : w ≠ v) (first : Bool)
    (h : first = true ↔ v = 0) (hw : PointsTo nodes w i) :
    PointsTo (point_to nodes N v slot first) w i := by
  have hwlt : w < nodes.length := by
    by_contra hc
    have hnone := hw.1
    rw [List.getElem?_eq_none (by omega)] at hnone
    cases hnone
  constructor
  · rw [point_to_beginning, if_neg hne]
    exact hw.1
  · intro hpos
    rw [point_to_end, if_neg (by omega), if_neg]
    · exact hw.2 hpos
    · intro hc
      have hv0 : v ≠ 0 := by
        intro hv0
        rw [h.mpr hv0] at hc
        cases hc.1
      omega

theorem point_to_ends (first : Bool) (hv : v < nodes.length)
    (h : EndsAt nodes N ∨ v + 1 = nodes.length) :
    EndsAt (point_to nodes N v slot first) N := by
  unfold EndsAt at *
  rw [point_to_length, point_to_end]
  split
  · rw [List.getElem?_eq_getElem (by omega)]
    rfl
  · split
    · omega
    · rcases h with h | h
      · exact h
      · omega

end

/-! ## A sentinel that moves -/

/-- The node table knows the sentinel in the slot, where there is one. -/
def LinkedAt (s : PCSR) (i : Nat) : Prop :=
  ∀ v, s.items[i]? = some (sentinel v) → PointsTo s.nodes v i

/-- `fix_sentinel` on the item that stands in `slot`: the table knows that slot, and forgets
no other. -/
theorem fix_sentinel_spec {s : PCSR} {e : Edge} {slot : Nat} (hn : s.get_n ≤ UINT32_MAX)
    (hitem : IsItem s.get_n e) (hslot : s.items[slot]? = some e) (hd : Distinct s.items) :
    ∃ s', fix_sentinel s e slot = .ok s' ∧ SameFrame s s' ∧ s'.items = s.items ∧
      LinkedAt s' slot ∧ (∀ i, LinkedAt s i → LinkedAt s' i) ∧
      (EndsAt s.nodes s.N ∨ e = sentinel (s.get_n - 1) → EndsAt s'.nodes s'.N) := by
  rcases hitem with hedge | ⟨v, hv, rfl⟩
  · refine ⟨s, ?_, SameFrame.refl s, rfl, ?_, fun i hi => hi, ?_⟩
    · simp [fix_sentinel, hedge.not_sentinel]
    · intro v hv
      rw [hslot] at hv
      cases hv
      exact absurd hedge.not_sentinel (by simp)
    · intro h
      rcases h with h | h
      · exact h
      · have hs := hedge.not_sentinel
        simp [h] at hs
  · have hvn : v < s.nodes.length := hv
    have hvm : v < UINT32_MAX := hv.trans_le hn
    have hfirst := sentinel_first hvm
    have hrun : fix_sentinel s (sentinel v) slot =
        .ok { s with nodes := point_to s.nodes s.N v slot ((sentinel v).value == UINT32_MAX) } := by
      simp [fix_sentinel, sentinel_vertex_sentinel hvm, hvn, sentinel_value_ne]
    have hbool : ((sentinel v).value == UINT32_MAX) = true ↔ v = 0 := by simp [hfirst]
    refine ⟨_, hrun, fix_sentinel_frame hrun, rfl, ?_, ?_, ?_⟩
    · intro w hw
      simp only [hslot, Option.some.injEq] at hw
      have hwv : v = w := congrArg Edge.src hw
      subst hwv
      exact point_to_self hvn _ hbool
    · intro i hi w hw
      by_cases hwv : w = v
      · subst hwv
        have his : i = slot := hd i slot w hw hslot
        subst his
        exact point_to_self hvn _ hbool
      · exact point_to_other hwv _ hbool (hi w hw)
    · intro h
      apply point_to_ends _ hvn
      rcases h with h | h
      · exact .inl h
      · right
        have hvn' : v = s.nodes.length - 1 := congrArg Edge.src h
        omega

/-! ## The invariant -/

/-- Items in order, and a node table that knows their slots. -/
structure Tidy (s : PCSR) : Prop where
  n_le : s.get_n ≤ UINT32_MAX
  sorted : (s.items.filter full).Pairwise Before
  items : ∀ e ∈ s.items, full e = true → IsItem s.get_n e
  linked : ∀ i, LinkedAt s i

/-- A well-formed array: it holds the sentinels of all vertices and their edges in order, and
the node table knows where the vertices begin and end. -/
structure WellFormed (s : PCSR) : Prop where
  sized : Sized s
  n_pos : 0 < s.get_n
  n_le : s.get_n ≤ UINT32_MAX
  arranged : Arranged s.get_n (s.items.filter full)
  first : s.items[0]? = some (sentinel 0)
  linked : ∀ i, LinkedAt s i
  ends : EndsAt s.nodes s.N

theorem WellFormed.tidy {s : PCSR} (h : WellFormed s) : Tidy s :=
  ⟨h.n_le, h.arranged.sorted, fun e he hf => h.arranged.items e (List.mem_filter.mpr ⟨he, hf⟩),
    h.linked⟩

end packed_csr
