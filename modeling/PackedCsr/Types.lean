-- The data of a PCSR: one item array that holds the sentinels and the edges
-- of all vertices with gaps between them, the node table, and one lock with
-- a version counter for each leaf of the array.
import PackedCsr.Prog

namespace packed_csr

open effects

def UINT32_MAX : Nat := 4294967295

/-! ## Items and nodes -/

structure Edge where
  src : Nat
  dest : Nat
  value : Nat
deriving DecidableEq, Repr

/-- What the code writes into a slot to empty it: source `-1`, destination and value 0. -/
def null_edge : Edge := ⟨UINT32_MAX, 0, 0⟩

def Edge.is_null (e : Edge) : Bool := e.value == 0

def is_sentinel (e : Edge) : Bool := e.dest == UINT32_MAX || e.value == UINT32_MAX

/-- The region of a vertex in the item array. The field `end` of the source is `end_`. -/
structure Node where
  beginning : Nat
  end_ : Nat
  num_neighbors : Nat
deriving DecidableEq, Repr

/-- The counters of neighbours are `uint32_t`: they wrap. -/
def incr32 (x : Nat) : Nat := (x + 1) % 4294967296

def decr32 (x : Nat) : Nat := (x + 4294967295) % 4294967296

/-- The difference of two `uint32_t`. -/
def sub32 (a b : Nat) : Nat := if b ≤ a then a - b else a + 4294967296 - b

/-! ## The state

`resizeEdgeArray` is the only writer of `N`, `logN` and `H`, and it computes
the last two from the first. So the state keeps `N` only. -/

structure PCSR where
  N : Nat
  items : List Edge
  nodes : List Node
  /-- The version counter of each leaf lock. -/
  versions : List Nat
  lock_bsearch : Bool
deriving DecidableEq, Repr

/-- The number of slots of a leaf. -/
def logN (N : Nat) : Nat := 2 ^ Nat.log2 (Nat.log2 N * 2 + 1)

/-- The height of the implicit tree over the leaves, `H` in the source. -/
def height (N : Nat) : Nat := Nat.log2 (N / logN N)

def resizeEdgeArray (s : PCSR) (newSize : Nat) : PCSR := { s with N := newSize }

/-- The start of the node of length `len` that holds slot `index`. -/
def find_node (index len : Nat) : Nat := index / len * len

/-- The start of the leaf that holds slot `index`. -/
def find_leaf (N index : Nat) : Nat := index / logN N * logN N

def get_node_id (N node_index : Nat) : Nat := node_index / logN N

/-! ## Faults

The source indexes raw memory. Here each access is checked, and an access
outside the array, the node table or the lock table is a fault. -/

inductive Fault
  | slot (i : Nat)
  | window (index len : Nat)
  | node (v : Nat)
  | lock (i : Nat)
  /-- A level of the implicit tree outside `0..H`. -/
  | level (l : Int)
  /-- A loop or a recursion of the source that does not end. -/
  | fuel
deriving DecidableEq, Repr

abbrev Res := Except Fault

namespace PCSR

def item (s : PCSR) (i : Nat) : Res Edge :=
  match s.items[i]? with
  | some e => .ok e
  | none => .error (.slot i)

def put (s : PCSR) (i : Nat) (e : Edge) : Res PCSR :=
  if i < s.items.length then .ok { s with items := s.items.set i e } else .error (.slot i)

def node (s : PCSR) (v : Nat) : Res Node :=
  match s.nodes[v]? with
  | some n => .ok n
  | none => .error (.node v)

def load (s : PCSR) (i : Nat) : Res Nat :=
  match s.versions[i]? with
  | some v => .ok v
  | none => .error (.lock i)

def get_n (s : PCSR) : Nat := s.nodes.length

/-- A write to the counter of neighbours of a vertex. -/
def count_neighbors (s : PCSR) (v : Nat) (f : Nat → Nat) : Res PCSR :=
  if v < s.nodes.length then
    .ok { s with nodes := s.nodes.modify v fun n => { n with num_neighbors := f n.num_neighbors } }
  else .error (.node v)

/-- `++` on the version counter of a leaf lock. -/
def bump (s : PCSR) (i : Nat) : Res PCSR :=
  if i < s.versions.length then .ok { s with versions := s.versions.modify i (· + 1) }
  else .error (.lock i)

end PCSR

/-! ## Densities

The densities of the source are `double`s whose comparisons are exact: a
length is a power of two, so a density is a dyadic fraction, and it lies far
from each bound that it does not meet. Here they are rational numbers. -/

/-- The number of slots of `[index, index + len)` that hold an item. -/
def filled (items : List Edge) (index len : Nat) : Nat :=
  ((items.drop index).take len).countP fun e => !e.is_null

def get_density (s : PCSR) (index len : Nat) : Res ℚ :=
  if index + len ≤ s.items.length then .ok ((filled s.items index len : ℚ) / len)
  else .error (.window index len)

structure pair_double where
  x : ℚ
  y : ℚ
deriving DecidableEq, Repr

/-- The density bounds of a level. With `H = 0` both are `0.0 / 0`: the value `none`
is the pair of NaNs. -/
def density_bound (N : Nat) (depth : Int) : Res (Option pair_double) :=
  if depth < 0 ∨ (height N : Int) < depth then .error (.level depth)
  else if height N = 0 then .ok none
  else .ok (some ⟨1 / 4 - (1 / 8 * depth) / height N, 3 / 4 + (1 / 4 * depth) / height N⟩)

/-- `density >= density_b.y`; a comparison with NaN is false. -/
def too_full (density : ℚ) : Option pair_double → Bool
  | none => false
  | some b => decide (b.y ≤ density)

/-- `density < density_b.x`; a comparison with NaN is false. -/
def too_empty (density : ℚ) : Option pair_double → Bool
  | none => false
  | some b => decide (density < b.x)

/-! ## Instructions

A run of an operation is made of atomic accesses to the shared state, of
calls of the leaf locks and of the global lock, and of the three tests with
which an operation finds out that another thread was faster. -/

inductive LeafCall
  | lock
  | unlock
  | lock_shared
  | unlock_shared
  | destroy
deriving DecidableEq, Repr

inductive GlobalCall
  | lock
  | unlock
  | lock_shared
  | unlock_shared
deriving DecidableEq, Repr

inductive Test
  | nodes_changed
  | version_changed
  | position_rejected
deriving DecidableEq, Repr

inductive Instr : Type → Type 1
  | act {β : Type} (f : PCSR → Res (β × PCSR)) : Instr β
  | test (t : Test) (b : Bool) : Instr Bool
  | leaf (c : LeafCall) (i : Nat) : Instr Unit
  | global (c : GlobalCall) : Instr Unit

abbrev Op := Prog Instr

/-- The effect of one instruction when no other thread is active: each test gives
what the code computes, and a lock of the table is always free. -/
def alone : ∀ {β : Type}, Instr β → PCSR → Res (β × PCSR)
  | _, .act f, s => f s
  | _, .test _ b, s => .ok (b, s)
  | _, .leaf _ i, s => if i < s.versions.length then .ok ((), s) else .error (.lock i)
  | _, .global _, s => .ok ((), s)

/-- The run of an operation with no other thread active. -/
def exec {α : Type} (p : Op α) (s : PCSR) : Res (α × PCSR) := Prog.run alone p s

/-! ## The accesses that operations are made of -/

def look {β : Type} (f : PCSR → Res β) : Op β :=
  .perform (.act fun s => (f s).map fun b => (b, s))

def change (f : PCSR → Res PCSR) : Op Unit :=
  .perform (.act fun s => (f s).map fun s' => ((), s'))

def test (t : Test) (b : Bool) : Op Bool := .perform (.test t b)

def leaf (c : LeafCall) (i : Nat) : Op Unit := .perform (.leaf c i)

def global (c : GlobalCall) : Op Unit := .perform (.global c)

def leaf_if (b : Bool) (c : LeafCall) (i : Nat) : Op Unit := if b then leaf c i else pure ()

/-- An endless loop or recursion. -/
def stuck {α : Type} : Op α := .op (.act fun _ => (.error .fuel : Res (Empty × PCSR))) Empty.elim

/-- `for (i = a; i <= b; i++)` over the leaf locks, with `n` rounds left. -/
def leaf_loop (c : LeafCall) : Nat → Nat → Op Unit
  | _, 0 => pure ()
  | a, n + 1 => do
    leaf c a
    leaf_loop c (a + 1) n

def leaf_range (c : LeafCall) (a b : Nat) : Op Unit := leaf_loop c a (b + 1 - a)

end packed_csr
