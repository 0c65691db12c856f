-- The partitioned graph: its vertices are split over several graphs, and each
-- operation goes to the one that holds its source. The law: it answers as one
-- graph would.
import Mathlib

namespace pppcsr

/-! ## A partition

A partition is a graph of any type. What the operations of the partitioned graph ask of it is
that it is a map from a source and a destination to a value, over a number of vertices that grows. -/

/-- The operations of a graph. -/
structure Graph (σ : Type) where
  new : (init_n : Nat) → σ
  get_n : σ → Nat
  edge_exists : σ → (src dest : Nat) → Bool
  get_neighbourhood : σ → (src : Nat) → List Nat
  add_node : σ → σ
  add_edge : σ → (src dest value : Nat) → σ
  remove_edge : σ → (src dest : Nat) → σ

/-- The graph behaves as the map `value`. -/
structure IsMap {σ : Type} (g : Graph σ) (value : σ → Nat → Nat → Option Nat) : Prop where
  new_n : ∀ n, g.get_n (g.new n) = n
  new_value : ∀ n u v, value (g.new n) u v = none
  outside : ∀ s u v, g.get_n s ≤ u → value s u v = none
  add_node_n : ∀ s, g.get_n (g.add_node s) = g.get_n s + 1
  add_node_value : ∀ s u v, value (g.add_node s) u v = value s u v
  add_edge_n : ∀ s u v w, g.get_n (g.add_edge s u v w) = g.get_n s
  add_edge_value : ∀ s u v w a b, value (g.add_edge s u v w) a b =
    if u < g.get_n s ∧ w ≠ 0 ∧ a = u ∧ b = v then some w else value s a b
  add_edge_outside : ∀ s u v w, g.get_n s ≤ u → g.add_edge s u v w = s
  remove_edge_n : ∀ s u v, u < g.get_n s → g.get_n (g.remove_edge s u v) = g.get_n s
  remove_edge_value : ∀ s u v a b, u < g.get_n s → value (g.remove_edge s u v) a b =
    if a = u ∧ b = v then none else value s a b
  edge_exists : ∀ s u v, u < g.get_n s → (g.edge_exists s u v = true ↔ value s u v ≠ none)
  sorted : ∀ s u, u < g.get_n s → (g.get_neighbourhood s u).Pairwise (· < ·)
  neighbours : ∀ s u v, u < g.get_n s → (v ∈ g.get_neighbourhood s u ↔ value s u v ≠ none)
  neighbours_outside : ∀ s u, g.get_n s ≤ u → g.get_neighbourhood s u = []

/-! ## The partitioned graph -/

structure PPPCSR (σ : Type) where
  partitions : List σ
  /-- The first vertex of each partition. -/
  distribution : List Nat
  partitionsPerDomain : Nat

namespace PPPCSR

variable {σ : Type} (g : Graph σ)

/-- What the loops of the constructor write: the vector of the starts, the size that the next
partition gets, and the partitions. -/
structure Build (σ : Type) where
  distribution : List Nat
  partitionSize : Nat
  partitions : List σ

/-- One round of the inner loop. -/
def build_step (init_n numDomains partitionsPerDomain i : Nat) (b : Build σ) (p : Nat) : Build σ :=
  let distribution :=
    if 0 < i ∨ 0 < p then b.distribution ++ [b.distribution.getLastD 0 + b.partitionSize]
    else b.distribution
  let partitionSize :=
    if i = numDomains - 1 ∧ p = partitionsPerDomain - 1 then
      init_n - (i * partitionsPerDomain + p) * b.partitionSize
    else b.partitionSize
  ⟨distribution, partitionSize, b.partitions ++ [g.new partitionSize]⟩

/-- The constructor. The quotient is one of integers, so `ceil` finds nothing to round. -/
def new (init_n numDomain partitionsPerDomain : Nat) : PPPCSR σ :=
  let start : Build σ := ⟨[0], init_n / (numDomain * partitionsPerDomain), []⟩
  let b := (List.range numDomain).foldl (fun b i => (List.range partitionsPerDomain).foldl
    (build_step g init_n numDomain partitionsPerDomain i) b) start
  ⟨b.partitions, b.distribution, partitionsPerDomain⟩

/-- The loop of `get_partiton` from entry `i` on. -/
def partiton_loop (distribution : List Nat) (vertex_id : Nat) : (rest i : Nat) → Nat
  | 0, _ => distribution.length - 1
  | rest + 1, i =>
    if vertex_id < distribution.getD i 0 then i - 1 else partiton_loop distribution vertex_id rest (i + 1)

variable (p : PPPCSR σ)

def get_partiton (vertex_id : Nat) : Nat :=
  partiton_loop p.distribution vertex_id (p.distribution.length - 1) 1

/-- The partition of a vertex, and the number that the vertex has there. -/
def route (src : Nat) : Option (σ × Nat) := do
  let k := p.get_partiton src
  let part ← p.partitions[k]?
  let start ← p.distribution[k]?
  return (part, src - start)

def edge_exists (src dest : Nat) : Option Bool := do
  let (part, v) ← p.route src
  return g.edge_exists part v dest

def get_neighbourhood (src : Nat) : Option (List Nat) := do
  let (part, v) ← p.route src
  return g.get_neighbourhood part v

def add_node : Option (PPPCSR σ) := do
  let back ← p.partitions.getLast?
  return { p with partitions := p.partitions.set (p.partitions.length - 1) (g.add_node back) }

def add_edge (src dest value : Nat) : Option (PPPCSR σ) := do
  let (part, v) ← p.route src
  return { p with partitions := p.partitions.set (p.get_partiton src) (g.add_edge part v dest value) }

def remove_edge (src dest : Nat) : Option (PPPCSR σ) := do
  let (part, v) ← p.route src
  return { p with partitions := p.partitions.set (p.get_partiton src) (g.remove_edge part v dest) }

def get_n : Nat := p.partitions.foldl (fun n part => n + g.get_n part) 0

end PPPCSR

/-! ## Calls -/

inductive Call
  | add_node
  | add_edge (src dest value : Nat)
  | remove_edge (src dest : Nat)
deriving DecidableEq, Repr

section

variable {σ : Type} (g : Graph σ)

/-- The call on one graph. -/
def Call.on : Call → σ → σ
  | .add_node, s => g.add_node s
  | .add_edge u v w, s => g.add_edge s u v w
  | .remove_edge u v, s => g.remove_edge s u v

/-- The call on the partitioned graph. -/
def Call.on_parts : Call → PPPCSR σ → Option (PPPCSR σ)
  | .add_node, p => p.add_node g
  | .add_edge u v w, p => p.add_edge g u v w
  | .remove_edge u v, p => p.remove_edge g u v

/-- An edge is removed from a vertex of the graph. -/
def Call.Valid (s : σ) : Call → Prop
  | .remove_edge u _ => u < g.get_n s
  | _ => True

def run : List Call → σ → σ
  | [], s => s
  | c :: cs, s => run cs (c.on g s)

def run_parts : List Call → PPPCSR σ → Option (PPPCSR σ)
  | [], p => some p
  | c :: cs, p => do run_parts cs (← c.on_parts g p)

/-- Each call of the sequence is valid where it comes. -/
def Valid : List Call → σ → Prop
  | [], _ => True
  | c :: cs, s => c.Valid g s ∧ Valid cs (c.on g s)

end

/-! ## The split

`m` partitions of `size` vertices each, where the last one has all that are left. -/

section

variable {σ : Type} {g : Graph σ} {value : σ → Nat → Nat → Option Nat} {p p' : PPPCSR σ} {s : σ}
  {m size : Nat}

structure Split (g : Graph σ) (value : σ → Nat → Nat → Option Nat) (m size : Nat) (p : PPPCSR σ)
    (s : σ) : Prop where
  pos : 0 < m
  starts : p.distribution = (List.range m).map (· * size)
  length : p.partitions.length = m
  inner : ∀ (k : Nat) q, k + 1 < m → p.partitions[k]? = some q → g.get_n q = size
  last : ∀ q, p.partitions[m - 1]? = some q → (m - 1) * size + g.get_n q = g.get_n s
  value : ∀ (k : Nat) q, p.partitions[k]? = some q → ∀ l, l < g.get_n q →
    ∀ v, value q l v = value s (k * size + l) v

/-- The partition that the starts give for a vertex. -/
def part_of (m size u : Nat) : Nat := if size = 0 then m - 1 else min (u / size) (m - 1)

theorem partiton_loop_spec {u : Nat} (hm : 0 < m) {rest i : Nat} (hi : i + rest = m)
    (hpos : 0 < i) (hle : (i - 1) * size ≤ u) :
    PPPCSR.partiton_loop ((List.range m).map (· * size)) u rest i = part_of m size u := by
  have hsucc : ∀ j, 0 < j → j * size = (j - 1) * size + size := by
    intro j hj
    obtain ⟨j, rfl⟩ : ∃ k, j = k + 1 := ⟨j - 1, by omega⟩
    exact Nat.succ_mul j size
  induction rest generalizing i with
  | zero =>
    obtain rfl : i = m := by omega
    unfold PPPCSR.partiton_loop part_of
    rw [List.length_map, List.length_range]
    split
    · rfl
    · rename_i hsize
      rw [Nat.min_eq_right]
      exact (Nat.le_div_iff_mul_le (by omega)).mpr hle
  | succ rest ih =>
    have hget : ((List.range m).map (· * size)).getD i 0 = i * size := by
      rw [List.getD_eq_getElem?_getD, List.getElem?_map, List.getElem?_range (by omega)]
      rfl
    unfold PPPCSR.partiton_loop
    rw [hget]
    split
    · rename_i hlt
      have hsz : 0 < size := by
        rcases Nat.eq_zero_or_pos size with rfl | h
        · simp at hlt
        · exact h
      unfold part_of
      rw [if_neg (by omega)]
      have hdiv : u / size = i - 1 := by
        apply Nat.div_eq_of_lt_le hle
        rw [Nat.sub_add_cancel hpos]
        exact hlt
      rw [hdiv]
      omega
    · rename_i hge
      exact ih (by omega) (by omega) (by rw [Nat.add_sub_cancel]; omega)

namespace Split

theorem get_partiton (h : Split g value m size p s) (u : Nat) :
    p.get_partiton u = part_of m size u := by
  unfold PPPCSR.get_partiton
  rw [h.starts, List.length_map, List.length_range]
  have := h.pos
  exact partiton_loop_spec h.pos (by omega) (by decide) (by simp)

theorem part_of_lt (hm : 0 < m) (size u : Nat) : part_of m size u < m := by
  unfold part_of
  split <;> omega

theorem part_of_start (m size u : Nat) : part_of m size u * size ≤ u := by
  unfold part_of
  split
  · rename_i hz
    rw [hz]
    simp
  · exact (Nat.mul_le_mul_right size (Nat.min_le_left _ _)).trans (Nat.div_mul_le_self u size)

/-- The vertex `l` of partition `k`. -/
theorem part_of_add {k l : Nat} (hk : (k + 1 < m ∧ l < size) ∨ k + 1 = m) :
    part_of m size (k * size + l) = k := by
  unfold part_of
  rcases hk with ⟨hk, hl⟩ | rfl
  · have hdiv : (k * size + l) / size = k := by
      rw [Nat.mul_comm, Nat.mul_add_div (by omega), Nat.div_eq_of_lt hl, Nat.add_zero]
    rw [if_neg (by omega), hdiv]
    omega
  · split
    · omega
    · rename_i hz
      rw [Nat.add_sub_cancel, Nat.min_eq_right]
      exact (Nat.le_div_iff_mul_le (by omega)).mpr (Nat.le_add_right _ _)

theorem start (h : Split g value m size p s) {k : Nat} (hk : k < m) :
    p.distribution[k]? = some (k * size) := by
  rw [h.starts, List.getElem?_map, List.getElem?_range hk]
  rfl

theorem part (h : Split g value m size p s) {k : Nat} (hk : k < m) :
    ∃ q, p.partitions[k]? = some q :=
  ⟨_, List.getElem?_eq_getElem (by rw [h.length]; exact hk)⟩

/-- A vertex of the graph is a vertex of its partition, and no other is. -/
theorem vertex (h : Split g value m size p s) {u : Nat} {q : σ}
    (hq : p.partitions[part_of m size u]? = some q) :
    u < g.get_n s ↔ u - part_of m size u * size < g.get_n q := by
  have hle := part_of_start m size u
  have hk := part_of_lt h.pos size u
  rcases Nat.eq_or_lt_of_le (Nat.succ_le_of_lt hk) with heq | hlt
  · have hk1 : part_of m size u = m - 1 := by omega
    have hlast := h.last q (by rw [← hk1]; exact hq)
    rw [hk1] at hle ⊢
    omega
  · -- an inner partition is full
    obtain ⟨q', hq'⟩ := h.part (show m - 1 < m by omega)
    have hlast := h.last q' hq'
    have hn := h.inner _ q hlt hq
    have hsize : size ≠ 0 := by
      intro hz
      unfold part_of at hlt
      rw [if_pos hz] at hlt
      omega
    have hdiv : part_of m size u = u / size := by
      unfold part_of at hlt ⊢
      rw [if_neg hsize] at hlt ⊢
      omega
    have hmod : u - u / size * size < size := by
      have := Nat.mod_lt u (Nat.pos_of_ne_zero hsize)
      have := Nat.div_add_mod u size
      rw [Nat.mul_comm] at this
      omega
    have hup : (u / size + 1) * size ≤ (m - 1) * size := by
      apply Nat.mul_le_mul_right
      omega
    rw [Nat.succ_mul] at hup
    rw [hdiv, hn]
    omega

theorem route (h : Split g value m size p s) (u : Nat) :
    ∃ q, p.partitions[part_of m size u]? = some q ∧
      p.route u = some (q, u - part_of m size u * size) := by
  have hk := part_of_lt h.pos size u
  obtain ⟨q, hq⟩ := h.part hk
  refine ⟨q, hq, ?_⟩
  unfold PPPCSR.route
  simp only [h.get_partiton, hq, h.start hk, bind, Option.bind]
  rfl

theorem size_lt (h : Split g value m size p s) {k l : Nat} {q : σ} (hq : p.partitions[k]? = some q)
    (hl : l < g.get_n q) : (k + 1 < m ∧ l < size) ∨ k + 1 = m := by
  have hk : k < m := by
    rw [← h.length]
    exact (List.getElem?_eq_some_iff.mp hq).1
  rcases Nat.eq_or_lt_of_le (Nat.succ_le_of_lt hk) with heq | hlt
  · exact .inr heq
  · rw [h.inner k q hlt hq] at hl
    exact .inl ⟨hlt, hl⟩

/-- A change in one partition. Only the last one may get another vertex. -/
theorem set (h : Split g value m size p s) {k d : Nat} {q q' s' : σ}
    (hq : p.partitions[k]? = some q) (hn : g.get_n q' = g.get_n q + d)
    (hs : g.get_n s' = g.get_n s + d) (hd : k + 1 < m → d = 0)
    (hin : ∀ l, l < g.get_n q' → ∀ v, value q' l v = value s' (k * size + l) v)
    (hout : ∀ u v, part_of m size u ≠ k → value s' u v = value s u v) :
    Split g value m size { p with partitions := p.partitions.set k q' } s' := by
  have hk := (List.getElem?_eq_some_iff.mp hq).1
  have hget : ∀ (j : Nat) r, (p.partitions.set k q')[j]? = some r →
      (j = k ∧ r = q') ∨ (j ≠ k ∧ p.partitions[j]? = some r) := by
    intro j r hr
    by_cases hj : j = k
    · rw [hj, List.getElem?_set_self hk] at hr
      exact .inl ⟨hj, (Option.some.inj hr).symm⟩
    · rw [List.getElem?_set_ne (Ne.symm hj)] at hr
      exact .inr ⟨hj, hr⟩
  refine ⟨h.pos, h.starts, by simpa using h.length, ?_, ?_, ?_⟩
  · intro j r hj hr
    rcases hget j r hr with ⟨rfl, rfl⟩ | ⟨-, hr⟩
    · rw [hn, hd hj, h.inner _ q hj hq, Nat.add_zero]
    · exact h.inner j r hj hr
  · intro r hr
    rcases hget _ r hr with ⟨hj, rfl⟩ | ⟨hj, hr⟩
    · have := h.last q (by rw [hj]; exact hq)
      omega
    · have hkm : k + 1 < m := by
        rw [h.length] at hk
        omega
      have := h.last r hr
      have := hd hkm
      omega
  · intro j r hr l hl v
    rcases hget j r hr with ⟨rfl, rfl⟩ | ⟨hj, hr⟩
    · exact hin l hl v
    · rw [h.value j r hr l hl v]
      symm
      apply hout
      rw [part_of_add (h.size_lt hr hl)]
      exact hj

end Split

/-! ## The operations keep the split -/

section

variable (hg : IsMap g value)

include hg

theorem add_node_spec (h : Split g value m size p s) :
    ∃ p', p.add_node g = some p' ∧ Split g value m size p' (g.add_node s) := by
  have hpos := h.pos
  obtain ⟨q, hq⟩ := h.part (show m - 1 < m by omega)
  have hback : p.partitions.getLast? = some q := by
    rw [List.getLast?_eq_getElem?, h.length, hq]
  refine ⟨_, by simp only [PPPCSR.add_node, hback, bind, Option.bind]; rfl, ?_⟩
  rw [h.length]
  apply h.set hq (hg.add_node_n q) (hg.add_node_n s) (fun hk => by omega)
  · intro l hl v
    rw [hg.add_node_value, hg.add_node_value]
    have hlast := h.last q hq
    rcases Nat.lt_or_ge l (g.get_n q) with hlt | hge
    · exact h.value _ q hq l hlt v
    · rw [hg.outside q l v hge, hg.outside s _ v (by omega)]
  · intro u v _
    exact hg.add_node_value s u v

theorem add_edge_spec (h : Split g value m size p s) (u v w : Nat) :
    ∃ p', p.add_edge g u v w = some p' ∧ Split g value m size p' (g.add_edge s u v w) ∧
      (g.get_n s ≤ u → p' = p) := by
  obtain ⟨q, hq, hroute⟩ := h.route u
  have hle := Split.part_of_start m size u
  have hvertex := h.vertex hq
  refine ⟨_, by simp only [PPPCSR.add_edge, hroute, bind, Option.bind, h.get_partiton]; rfl, ?_, ?_⟩
  · apply h.set (d := 0) hq (hg.add_edge_n ..) (hg.add_edge_n ..) (fun _ => rfl)
    · intro l hl v'
      rw [hg.add_edge_n] at hl
      rw [hg.add_edge_value, hg.add_edge_value, h.value _ q hq l hl v']
      congr 1
      simp only [eq_iff_iff]
      constructor
      · rintro ⟨h1, h2, h3, h4⟩
        exact ⟨hvertex.mpr h1, h2, by omega, h4⟩
      · rintro ⟨h1, h2, h3, h4⟩
        exact ⟨hvertex.mp h1, h2, by omega, h4⟩
    · intro a b ha
      rw [hg.add_edge_value, if_neg]
      rintro ⟨-, -, rfl, -⟩
      exact ha rfl
  · intro hu
    rw [hg.add_edge_outside q _ v w (by omega)]
    obtain ⟨hk, hget⟩ := List.getElem?_eq_some_iff.mp hq
    rw [← hget, List.set_getElem_self]

theorem remove_edge_spec (h : Split g value m size p s) {u : Nat} (hu : u < g.get_n s) (v : Nat) :
    ∃ p', p.remove_edge g u v = some p' ∧ Split g value m size p' (g.remove_edge s u v) := by
  obtain ⟨q, hq, hroute⟩ := h.route u
  have hle := Split.part_of_start m size u
  have hvertex := (h.vertex hq).mp hu
  refine ⟨_, by simp only [PPPCSR.remove_edge, hroute, bind, Option.bind, h.get_partiton]; rfl, ?_⟩
  apply h.set (d := 0) hq (hg.remove_edge_n _ _ _ hvertex) (hg.remove_edge_n _ _ _ hu) (fun _ => rfl)
  · intro l hl v'
    rw [hg.remove_edge_n _ _ _ hvertex] at hl
    rw [hg.remove_edge_value _ _ _ _ _ hvertex, hg.remove_edge_value _ _ _ _ _ hu,
      h.value _ q hq l hl v']
    congr 1
    simp only [eq_iff_iff]
    constructor
    · rintro ⟨h1, h2⟩
      exact ⟨by omega, h2⟩
    · rintro ⟨h1, h2⟩
      exact ⟨by omega, h2⟩
  · intro a b ha
    rw [hg.remove_edge_value _ _ _ _ _ hu, if_neg]
    rintro ⟨rfl, -⟩
    exact ha rfl

theorem call_spec (c : Call) (h : Split g value m size p s) (hc : c.Valid g s) :
    ∃ p', c.on_parts g p = some p' ∧ Split g value m size p' (c.on g s) := by
  cases c with
  | add_node => exact add_node_spec hg h
  | add_edge u v w =>
    obtain ⟨p', hrun, hsplit, -⟩ := add_edge_spec hg h u v w
    exact ⟨p', hrun, hsplit⟩
  | remove_edge u v => exact remove_edge_spec hg h hc v

theorem run_spec (cs : List Call) (h : Split g value m size p s) (hv : Valid g cs s) :
    ∃ p', run_parts g cs p = some p' ∧ Split g value m size p' (run g cs s) := by
  induction cs generalizing p s with
  | nil => exact ⟨p, rfl, h⟩
  | cons c cs ih =>
    obtain ⟨p1, hc, h1⟩ := call_spec hg c h hv.1
    obtain ⟨p', hcs, h'⟩ := ih h1 hv.2
    refine ⟨p', ?_, h'⟩
    simp only [run_parts, hc, bind, Option.bind]
    exact hcs

end

/-! ## What can be seen -/

section

variable (h : Split g value m size p s)

include h

theorem get_n_spec : p.get_n g = g.get_n s := by
  have hpos := h.pos
  obtain ⟨q, hq⟩ := h.part (show m - 1 < m by omega)
  have hcut : p.partitions = p.partitions.take (m - 1) ++ [q] := by
    conv_lhs => rw [← List.take_append_drop (m - 1) p.partitions]
    obtain ⟨hk, rfl⟩ := List.getElem?_eq_some_iff.mp hq
    rw [List.drop_eq_getElem_cons hk, List.drop_eq_nil_of_le (by rw [h.length]; omega)]
  have hsum : ∀ (qs : List σ) (a : Nat), (∀ q ∈ qs, g.get_n q = size) →
      qs.foldl (fun n part => n + g.get_n part) a = a + qs.length * size := by
    intro qs
    induction qs with
    | nil => simp
    | cons q qs ih =>
      intro a hqs
      rw [List.foldl_cons, ih _ fun q hq => hqs q (List.mem_cons_of_mem _ hq),
        hqs q (List.mem_cons_self ..), List.length_cons, Nat.succ_mul]
      omega
  unfold PPPCSR.get_n
  rw [hcut, List.foldl_append, hsum _ 0, List.length_take, h.length]
  · have hlast := h.last q hq
    rw [Nat.min_eq_left (by omega)]
    simpa using hlast
  · intro r hr
    obtain ⟨k, hk⟩ := List.mem_iff_getElem?.mp hr
    rw [List.getElem?_take] at hk
    split at hk
    · exact h.inner k r (by omega) hk
    · cases hk

/-- The partition of a vertex and its number there. -/
def locate (p : PPPCSR σ) (u : Nat) : Nat × Nat :=
  (p.get_partiton u, u - p.distribution.getD (p.get_partiton u) 0)

theorem locate_bijective : Set.BijOn (locate p) {u | u < p.get_n g}
    {x | ∃ q, p.partitions[x.1]? = some q ∧ x.2 < g.get_n q} := by
  have hlocate : ∀ u, locate p u = (part_of m size u, u - part_of m size u * size) := by
    intro u
    unfold locate
    rw [h.get_partiton, List.getD_eq_getElem?_getD, h.start (Split.part_of_lt h.pos size u)]
    rfl
  have hn := get_n_spec h
  refine ⟨?_, ?_, ?_⟩
  · intro u hu
    obtain ⟨q, hq, -⟩ := h.route u
    rw [hlocate]
    refine ⟨q, hq, ?_⟩
    apply (h.vertex hq).mp
    rw [← hn]
    exact hu
  · intro a _ b _ hab
    rw [hlocate, hlocate] at hab
    obtain ⟨h1, h2⟩ := Prod.mk.inj hab
    have ha := Split.part_of_start m size a
    have hb := Split.part_of_start m size b
    rw [h1] at h2 ha
    omega
  · rintro ⟨k, l⟩ ⟨q, hq, hl⟩
    have hk := Split.part_of_add (h.size_lt hq hl)
    refine ⟨k * size + l, ?_, ?_⟩
    · show k * size + l < p.get_n g
      rw [hn]
      apply (h.vertex (u := k * size + l) (by rw [hk]; exact hq)).mpr
      rw [hk, Nat.add_sub_cancel_left]
      exact hl
    · rw [hlocate, hk, Nat.add_sub_cancel_left]

variable (hg : IsMap g value)

include hg

theorem edge_exists_spec {u : Nat} (hu : u < g.get_n s) (v : Nat) :
    p.edge_exists g u v = some (g.edge_exists s u v) := by
  obtain ⟨q, hq, hroute⟩ := h.route u
  have hle := Split.part_of_start m size u
  have hvertex := (h.vertex hq).mp hu
  have hvalue := h.value _ q hq _ hvertex v
  rw [Nat.add_sub_cancel' hle] at hvalue
  have hiff : g.edge_exists q (u - part_of m size u * size) v = true ↔ g.edge_exists s u v = true := by
    rw [hg.edge_exists q _ v hvertex, hg.edge_exists s u v hu, hvalue]
  simp only [PPPCSR.edge_exists, hroute, bind, Option.bind]
  exact congrArg some (Bool.eq_iff_iff.mpr hiff)

theorem get_neighbourhood_spec (u : Nat) :
    p.get_neighbourhood g u = some (g.get_neighbourhood s u) := by
  obtain ⟨q, hq, hroute⟩ := h.route u
  have hle := Split.part_of_start m size u
  have hvertex := h.vertex hq
  have hsame : g.get_neighbourhood q (u - part_of m size u * size) = g.get_neighbourhood s u := by
    rcases Nat.lt_or_ge u (g.get_n s) with hu | hu
    · have hl := hvertex.mp hu
      apply (hg.sorted q _ hl).eq_of_mem_iff (hg.sorted s u hu)
      intro v
      have hvalue := h.value _ q hq _ hl v
      rw [Nat.add_sub_cancel' hle] at hvalue
      rw [hg.neighbours q _ v hl, hg.neighbours s u v hu, hvalue]
    · rw [hg.neighbours_outside s u hu, hg.neighbours_outside q _ (by omega)]
  simp only [PPPCSR.get_neighbourhood, hroute, bind, Option.bind]
  exact congrArg some hsame

end

/-! ## The constructor -/

/-- The loops of the constructor after `k` partitions of `m`. -/
structure Stage (g : Graph σ) (init_n m size k : Nat) (b : PPPCSR.Build σ) : Prop where
  starts : b.distribution = (List.range (max k 1)).map (· * size)
  partitionSize : k < m → b.partitionSize = size
  partitions : b.partitions =
    (List.range k).map fun j => g.new (if j + 1 < m then size else init_n - (m - 1) * size)

theorem build_step_spec {init_n numDomains partitionsPerDomain i j : Nat} {b : PPPCSR.Build σ}
    (hm : m = numDomains * partitionsPerDomain) (hi : i < numDomains) (hj : j < partitionsPerDomain)
    (h : Stage g init_n m size (i * partitionsPerDomain + j) b) :
    Stage g init_n m size (i * partitionsPerDomain + j + 1)
      (PPPCSR.build_step g init_n numDomains partitionsPerDomain i b j) := by
  generalize hk : i * partitionsPerDomain + j = k at h
  have hrows : (i + 1) * partitionsPerDomain ≤ m := by
    rw [hm]
    exact Nat.mul_le_mul_right _ hi
  rw [Nat.succ_mul] at hrows
  have hkm : k < m := by omega
  have hsize := h.partitionSize hkm
  have hfirst : (0 < i ∨ 0 < j) ↔ 0 < k := by
    constructor
    · rintro (hi0 | hj0)
      · have := Nat.mul_pos hi0 (show 0 < partitionsPerDomain by omega)
        omega
      · omega
    · intro hk0
      by_contra hc
      obtain ⟨rfl, rfl⟩ : i = 0 ∧ j = 0 := by omega
      simp at hk
      omega
  have hlast : (i = numDomains - 1 ∧ j = partitionsPerDomain - 1) ↔ ¬ k + 1 < m := by
    constructor
    · rintro ⟨rfl, rfl⟩
      have hall : (numDomains - 1 + 1) * partitionsPerDomain = m := by
        rw [Nat.sub_add_cancel (by omega), hm]
      rw [Nat.succ_mul] at hall
      omega
    · intro hk1
      have hi1 : i = numDomains - 1 := by
        by_contra hc
        have hup : (i + 2) * partitionsPerDomain ≤ m := by
          rw [hm]
          apply Nat.mul_le_mul_right
          omega
        rw [Nat.add_mul] at hup
        omega
      refine ⟨hi1, ?_⟩
      omega
  have hnew : PPPCSR.build_step g init_n numDomains partitionsPerDomain i b j =
      ⟨if 0 < k then b.distribution ++ [b.distribution.getLastD 0 + size] else b.distribution,
        if k + 1 < m then size else init_n - k * size,
        b.partitions ++ [g.new (if k + 1 < m then size else init_n - k * size)]⟩ := by
    unfold PPPCSR.build_step
    rw [hk, hsize]
    simp only [hfirst, hlast]
    by_cases hk1 : k + 1 < m
    · simp [hk1]
    · simp [hk1]
  rw [hnew]
  refine ⟨?_, ?_, ?_⟩
  · dsimp only
    rw [h.starts]
    split
    · rename_i hk0
      rw [Nat.max_eq_left (by omega), Nat.max_eq_left (by omega), List.range_succ, List.map_append]
      congr 1
      obtain ⟨k, rfl⟩ : ∃ n, k = n + 1 := ⟨k - 1, by omega⟩
      simp [List.range_succ, Nat.succ_mul]
    · obtain rfl : k = 0 := by omega
      rfl
  · intro hk1
    exact if_pos hk1
  · dsimp only
    rw [h.partitions, List.range_succ, List.map_append]
    congr 1
    by_cases hk1 : k + 1 < m
    · simp [hk1]
    · obtain rfl : k = m - 1 := by omega
      simp [hk1]

theorem new_spec (hg : IsMap g value) {numDomain partitionsPerDomain : Nat}
    (hd : 1 ≤ numDomain) (hp : 1 ≤ partitionsPerDomain) (init_n : Nat) :
    Split g value (numDomain * partitionsPerDomain) (init_n / (numDomain * partitionsPerDomain))
      (PPPCSR.new g init_n numDomain partitionsPerDomain) (g.new init_n) := by
  generalize hm : numDomain * partitionsPerDomain = m
  generalize hsize : init_n / m = size
  have hpos : 0 < m := by
    rw [← hm]
    exact Nat.mul_pos hd hp
  have hstart : Stage g init_n m size 0 (⟨[0], size, []⟩ : PPPCSR.Build σ) :=
    ⟨by simp, fun _ => rfl, rfl⟩
  have hinner : ∀ i b, i < numDomain → Stage g init_n m size (i * partitionsPerDomain) b →
      ∀ j ≤ partitionsPerDomain, Stage g init_n m size (i * partitionsPerDomain + j)
        ((List.range j).foldl (PPPCSR.build_step g init_n numDomain partitionsPerDomain i) b) := by
    intro i b hi hb j hj
    induction j with
    | zero => exact hb
    | succ j ih =>
      rw [List.range_succ, List.foldl_append]
      exact build_step_spec hm.symm hi (by omega) (ih (by omega))
  have houter : ∀ i ≤ numDomain, Stage g init_n m size (i * partitionsPerDomain)
      ((List.range i).foldl (fun b i => (List.range partitionsPerDomain).foldl
        (PPPCSR.build_step g init_n numDomain partitionsPerDomain i) b) ⟨[0], size, []⟩) := by
    intro i hi
    induction i with
    | zero =>
      rw [Nat.zero_mul]
      exact hstart
    | succ i ih =>
      rw [List.range_succ, List.foldl_append, Nat.succ_mul]
      exact hinner i _ (by omega) (ih (by omega)) _ (le_refl _)
  have hend := houter numDomain (le_refl _)
  rw [hm] at hend
  have hnew : (PPPCSR.new g init_n numDomain partitionsPerDomain).partitions =
      (List.range m).map fun j => g.new (if j + 1 < m then size else init_n - (m - 1) * size) := by
    unfold PPPCSR.new
    rw [hm, hsize]
    exact hend.partitions
  have hget : ∀ (k : Nat) q,
      (PPPCSR.new g init_n numDomain partitionsPerDomain).partitions[k]? = some q →
        k < m ∧ q = g.new (if k + 1 < m then size else init_n - (m - 1) * size) := by
    intro k q hq
    rw [hnew, List.getElem?_map] at hq
    rcases Nat.lt_or_ge k m with hlt | hge
    · rw [List.getElem?_range hlt] at hq
      exact ⟨hlt, (Option.some.inj hq).symm⟩
    · rw [List.getElem?_eq_none (by simpa using hge)] at hq
      cases hq
  refine ⟨hpos, ?_, ?_, ?_, ?_, ?_⟩
  · unfold PPPCSR.new
    rw [hm, hsize]
    have hs := hend.starts
    rw [Nat.max_eq_left (by omega)] at hs
    exact hs
  · rw [hnew]
    simp
  · intro k q hk hq
    rw [(hget k q hq).2, if_pos hk, hg.new_n]
  · intro q hq
    have hle : (m - 1) * size ≤ init_n := by
      calc (m - 1) * size ≤ m * size := Nat.mul_le_mul_right _ (Nat.sub_le _ _)
        _ = size * m := Nat.mul_comm _ _
        _ ≤ init_n := by
          rw [← hsize]
          exact Nat.div_mul_le_self init_n m
    rw [(hget _ q hq).2, if_neg (by omega), hg.new_n, hg.new_n]
    omega
  · intro k q hq l _ v
    rw [(hget k q hq).2, hg.new_value, hg.new_value]

end

/-! ## The law -/

/-- Over every sequence of valid calls the partitions answer as one graph does. They are as many
vertices as the graph, each vertex has a place in one of them, and nothing is added from a vertex
that is not there. -/
theorem partitioning_is_transparent {σ : Type} {g : Graph σ} {value : σ → Nat → Nat → Option Nat}
    (hg : IsMap g value) {numDomain partitionsPerDomain : Nat} (hd : 1 ≤ numDomain)
    (hp : 1 ≤ partitionsPerDomain) (init_n : Nat) (cs : List Call)
    (hv : Valid g cs (g.new init_n)) :
    (PPPCSR.new g init_n numDomain partitionsPerDomain).get_n g = init_n ∧
      ∃ p, run_parts g cs (PPPCSR.new g init_n numDomain partitionsPerDomain) = some p ∧
        p.get_n g = g.get_n (run g cs (g.new init_n)) ∧
        (∀ u v, u < p.get_n g →
          p.edge_exists g u v = some (g.edge_exists (run g cs (g.new init_n)) u v)) ∧
        (∀ u, p.get_neighbourhood g u = some (g.get_neighbourhood (run g cs (g.new init_n)) u)) ∧
        Set.BijOn (locate p) {u | u < p.get_n g}
          {x | ∃ q, p.partitions[x.1]? = some q ∧ x.2 < g.get_n q} ∧
        ∀ u v w, p.get_n g ≤ u → p.add_edge g u v w = some p := by
  have hnew := new_spec hg hd hp init_n
  refine ⟨?_, ?_⟩
  · rw [get_n_spec hnew]
    exact hg.new_n init_n
  obtain ⟨p, hrun, h⟩ := run_spec hg cs hnew hv
  have hn := get_n_spec h
  refine ⟨p, hrun, hn, ?_, get_neighbourhood_spec h hg, locate_bijective h, ?_⟩
  · intro u v hu
    apply edge_exists_spec h hg
    rw [← hn]
    exact hu
  · intro u v w hu
    obtain ⟨p', hadd, -, hsame⟩ := add_edge_spec hg h u v w
    rw [hadd, hsame (by rw [← hn]; exact hu)]

/-! ## A graph of tables -/

/-- The neighbours of each vertex and the values of its edges. -/
structure Table where
  n : Nat
  dests : Nat → Finset Nat
  values : Nat → Nat → Nat
  outside : ∀ u, n ≤ u → dests u = ∅

namespace Table

def value (s : Table) (u v : Nat) : Option Nat := if v ∈ s.dests u then some (s.values u v) else none

def put (s : Table) (u v w : Nat) (hu : u < s.n) : Table where
  n := s.n
  dests := Function.update s.dests u (insert v (s.dests u))
  values := Function.update s.values u (Function.update (s.values u) v w)
  outside := by
    intro a ha
    rw [Function.update_of_ne (by omega)]
    exact s.outside a ha

def drop (s : Table) (u v : Nat) : Table where
  n := s.n
  dests := Function.update s.dests u ((s.dests u).erase v)
  values := s.values
  outside := by
    intro a ha
    by_cases h : a = u
    · subst h
      rw [Function.update_self, s.outside a ha, Finset.erase_empty]
    · rw [Function.update_of_ne h]
      exact s.outside a ha

def graph : Graph Table where
  new n := ⟨n, fun _ => ∅, fun _ _ => 0, fun _ _ => rfl⟩
  get_n s := s.n
  edge_exists s u v := decide (v ∈ s.dests u)
  get_neighbourhood s u := (s.dests u).sort (· ≤ ·)
  add_node s := ⟨s.n + 1, s.dests, s.values, fun u hu => s.outside u (by omega)⟩
  add_edge s u v w := if h : u < s.n ∧ w ≠ 0 then s.put u v w h.1 else s
  remove_edge s u v := s.drop u v

theorem put_value (s : Table) {u : Nat} (hu : u < s.n) (v w a b : Nat) :
    (s.put u v w hu).value a b = if a = u ∧ b = v then some w else s.value a b := by
  unfold value put
  by_cases ha : a = u
  · subst ha
    by_cases hb : b = v
    · subst hb
      simp
    · simp [hb]
  · simp [ha]

theorem drop_value (s : Table) (u v a b : Nat) :
    (s.drop u v).value a b = if a = u ∧ b = v then none else s.value a b := by
  unfold value drop
  by_cases ha : a = u
  · subst ha
    by_cases hb : b = v
    · simp [hb]
    · simp [hb]
  · simp [ha]

theorem graph_isMap : IsMap graph value where
  new_n _ := rfl
  new_value _ _ _ := rfl
  outside s u v hu := by
    have h := s.outside u hu
    simp [value, h]
  add_node_n _ := rfl
  add_node_value _ _ _ := rfl
  add_edge_n s u v w := by
    unfold graph
    dsimp only
    split <;> rfl
  add_edge_value s u v w a b := by
    unfold graph
    dsimp only
    split
    · rename_i h
      rw [put_value]
      simp [h.1, h.2]
    · rename_i h
      rw [if_neg]
      rintro ⟨hu, hw, -⟩
      exact h ⟨hu, hw⟩
  add_edge_outside s u v w hu := dif_neg fun h => by
    have : s.n ≤ u := hu
    omega
  remove_edge_n _ _ _ _ := rfl
  remove_edge_value s u v a b _ := drop_value s u v a b
  edge_exists s u v _ := by simp [graph, value]
  sorted s u _ := (Finset.sortedLT_sort (s.dests u)).pairwise
  neighbours s u v _ := by simp [graph, value]
  neighbours_outside s u hu := by
    have h := s.outside u hu
    simp [graph, h]

end Table

/-- Seven vertices over two domains of two partitions each, with a vertex and three edges more. -/
theorem partitioning_of_a_table :
    1 ≤ 2 ∧ Valid Table.graph [.add_node, .add_edge 7 2 5, .add_edge 9 1 1, .remove_edge 3 4]
        (Table.graph.new 7) ∧
      ∃ p, run_parts Table.graph
          [.add_node, .add_edge 7 2 5, .add_edge 9 1 1, .remove_edge 3 4]
          (PPPCSR.new Table.graph 7 2 2) = some p ∧
        p.get_n Table.graph = 8 ∧ p.edge_exists Table.graph 7 2 = some true := by
  have hv : Valid Table.graph [.add_node, .add_edge 7 2 5, .add_edge 9 1 1, .remove_edge 3 4]
      (Table.graph.new 7) := by
    refine ⟨trivial, trivial, trivial, ?_, trivial⟩
    show 3 < 8
    decide
  obtain ⟨-, p, hrun, hn, hedge, -⟩ :=
    partitioning_is_transparent Table.graph_isMap (show 1 ≤ 2 by decide) (show 1 ≤ 2 by decide) 7 _ hv
  have hn8 : p.get_n Table.graph = 8 := hn
  refine ⟨by decide, hv, p, hrun, hn8, ?_⟩
  rw [hedge 7 2 (by omega)]
  decide

end pppcsr
