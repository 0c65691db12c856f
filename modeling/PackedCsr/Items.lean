-- The functions that move items in the array: the even redistribution of a
-- window, the doubling and halving of the array, and the two slides.
import PackedCsr.Types

namespace packed_csr

/-! ## The pointer of a moved sentinel -/

/-- The vertex of a sentinel: its value, where `UINT32_MAX` stands for 0. -/
def sentinel_vertex (e : Edge) : Nat := if e.value = UINT32_MAX then 0 else e.value

/-- The node table after the sentinel of vertex `v` of an array of `N` slots moved to `slot`.
The node before `v` ends there, except for a sentinel with value `UINT32_MAX`. -/
def point_to (nodes : List Node) (N v slot : Nat) (first : Bool) : List Node :=
  let nodes := if first then nodes else nodes.modify (v - 1) fun n => { n with end_ := slot }
  let nodes := nodes.modify v fun n => { n with beginning := slot }
  if v + 1 = nodes.length then nodes.modify v fun n => { n with end_ := N - 1 } else nodes

def fix_sentinel (s : PCSR) (sentinel : Edge) (slot : Nat) : Res PCSR :=
  if !is_sentinel sentinel then .ok s
  else if sentinel_vertex sentinel < s.nodes.length ∧ sentinel.value ≠ 0 then
    .ok { s with nodes := point_to s.nodes s.N (sentinel_vertex sentinel) slot
                            (sentinel.value == UINT32_MAX) }
  else .error (.node (sentinel_vertex sentinel))

/-! ## Redistribution

The loops work in place. `rest` counts the rounds that are left. -/

/-- The first loop of `redistribute`: the items of the window move to its left end, in
order. Gives `j`, the number of items. -/
def pack_loop (index : Nat) : (rest i j : Nat) → List Edge → Nat × List Edge
  | 0, _, j, items => (j, items)
  | rest + 1, i, j, items =>
    let items := items.set (index + j) (items.getD i null_edge)
    let j := j + if (items.getD (index + j) null_edge).is_null then 0 else 1
    pack_loop index rest (i + 1) j items

/-- The second loop of `redistribute`: the slots behind the items become null. -/
def clear_loop : (rest i : Nat) → List Edge → List Edge
  | 0, _, items => items
  | rest + 1, i, items => clear_loop rest (i + 1) (items.set i null_edge)

/-- The slot of item `k` of `j` in a window: `index_d` at that round, rounded down.
The `double` of the source is taken as exact. -/
def spread_slot (index len j k : Nat) : Nat := index + k * len / j

/-- The third loop of `redistribute`: the items `k` down to `1` swap with their slots. -/
def spread_loop (index len j : Nat) : (k : Nat) → PCSR → Res PCSR
  | 0, s => .ok s
  | k + 1, s => do
    let slot := spread_slot index len j (k + 1)
    let moved := s.items.getD (index + (k + 1)) null_edge
    let other := s.items.getD slot null_edge
    let s := { s with items := (s.items.set (index + (k + 1)) other).set slot moved }
    let s ← fix_sentinel s moved slot
    spread_loop index len j k s

/-- Spreads the items of a window evenly, in place. All accesses are to the window. With
no item in it, `index + j - 1` wraps when the window starts at slot 0. -/
def redistribute (s : PCSR) (index len : Nat) : Res PCSR :=
  if s.items.length < index + len then .error (.window index len)
  else
    let (j, items) := pack_loop index len index 0 s.items
    let s := { s with items := clear_loop (len - j) (index + j) items }
    if j = 0 ∧ index = 0 then .error (.window index len)
    else do
      let s ← spread_loop index len j (j - 1) s
      fix_sentinel s (s.items.getD index null_edge) index

/-! ## Resizing -/

def double_list (s : PCSR) : Res PCSR :=
  let prev_locks_size := s.N / logN s.N
  let s := resizeEdgeArray s (s.N * 2)
  let new_locks_size := s.N / logN s.N
  let s := { s with
    versions := s.versions.take new_locks_size ++
      List.replicate (new_locks_size - prev_locks_size) 0
    items := s.items ++ List.replicate (s.N - s.N / 2) null_edge }
  redistribute s 0 s.N

/-- The first loop of `half_list`: `items[j++] = items[i]` for each item. -/
def half_pack_loop : (rest i j : Nat) → List Edge → Nat × List Edge
  | 0, _, j, items => (j, items)
  | rest + 1, i, j, items =>
    if (items.getD i null_edge).is_null then half_pack_loop rest (i + 1) j items
    else half_pack_loop rest (i + 1) (j + 1) (items.set j (items.getD i null_edge))

/-- The second loop of `half_list`: the slots behind the items become null. -/
def half_clear_loop : (rest j : Nat) → List Edge → List Edge
  | 0, _, items => items
  | rest + 1, j, items =>
    half_clear_loop rest (j + 1)
      (items.set j { items.getD j null_edge with dest := 0, value := 0 })

/-- `half_list` up to its loop over the locks: the new size, and the items at the front. -/
def half_items (s : PCSR) : PCSR :=
  let s := resizeEdgeArray s (s.N / 2)
  let (j, items) := half_pack_loop (s.N * 2) 0 0 s.items
  { s with items := half_clear_loop (s.N - j) j items }

/-- `half_list` after its loop over the locks. -/
def half_finish (s : PCSR) : Res PCSR :=
  let s := { s with
    versions := s.versions.take (s.N / logN s.N)
    items := s.items.take s.N }
  redistribute s 0 s.N

/-! ## Slides -/

/-- The loop of `slide_right` from slot `index` on, with `el` in hand: it stops at the first
null slot, or at the end of the array. Gives that slot and the item in hand. -/
def right_loop : (rest index : Nat) → Edge → PCSR → Res (Nat × Edge × PCSR)
  | 0, index, el, s => .ok (index, el, s)
  | rest + 1, index, el, s => do
    let temp ← s.item index
    if temp.is_null then return (index, el, s)
    let s ← s.put index el
    let s ← if el.is_null then pure s else fix_sentinel s el index
    right_loop rest (index + 1) temp s

/-- The loop of `slide_left` below slot `index`, with `el` in hand: it stops at the first null
slot, or at `none`, the index `-1`. -/
def left_loop : (index : Nat) → Edge → PCSR → Res (Option Nat × Edge × PCSR)
  | 0, el, s => .ok (none, el, s)
  | index + 1, el, s => do
    let temp ← s.item index
    if temp.is_null then return (some index, el, s)
    let s ← s.put index el
    let s ← if el.is_null then pure s else fix_sentinel s el index
    left_loop index temp s

/-- `fix_sentinel` on an item that is not null. -/
def fix_item (s : PCSR) (el : Edge) (slot : Nat) : Res PCSR :=
  if el.is_null then .ok s else fix_sentinel s el slot

-- The two slides call each other. The first argument counts the calls that may
-- still come: a left slide that runs off the array doubles it and calls the
-- right slide, which then has room.
mutual

/-- Gives `true` for the return value `-1`. -/
def slide_right_calls : (calls : Nat) → PCSR → (index : Nat) → Res (Bool × PCSR)
  | 0, _, _ => .error .fuel
  | calls + 1, s, index => do
    let el ← s.item index
    let s ← s.put index null_edge
    let (index, el, s) ← right_loop (s.N - (index + 1)) (index + 1) el s
    let s ← fix_item s el index
    if index = s.N then
      let index := index - 1
      let s ← slide_left_calls calls s index
      let s ← s.put index el
      return (true, s)
    else
      let s ← s.put index el
      return (false, s)

def slide_left_calls : (calls : Nat) → PCSR → (index : Nat) → Res PCSR
  | 0, _, _ => .error .fuel
  | calls + 1, s, index => do
    let el ← s.item index
    let s ← s.put index null_edge
    let (stop, el, s) ← left_loop index el s
    match stop with
    | none =>
      let s ← double_list s
      let (_, s) ← slide_right_calls calls s 0
      let s ← fix_item s el 0
      s.put 0 el
    | some index =>
      let s ← fix_item s el index
      s.put index el

end

def slide_right (s : PCSR) (index : Nat) : Res (Bool × PCSR) := slide_right_calls 4 s index

def slide_left (s : PCSR) (index : Nat) : Res PCSR := slide_left_calls 4 s index

end packed_csr
