-- Insertion and removal of one item at a slot of the array.
import PackedCsr.Search

namespace packed_csr

open effects

/-- What the planner of an insertion hands to the insertion itself. -/
structure insertion_info where
  max_len : Nat
  node_index_final : Nat
  double_list : Bool
deriving DecidableEq, Repr

/-! ## Insertion -/

/-- The climb of `insert` without a plan: the window that is redistributed last, or `none`
when the climb runs past the root. `rest` bounds the rounds. -/
def insert_climb (s : PCSR) : (rest len : Nat) → (level : Int) → (node_index : Nat) →
    Res (Option (Nat × Nat))
  | 0, _, _, _ => .error .fuel
  | rest + 1, len, level, node_index => do
    let density_b ← density_bound s.N level
    let density ← get_density s node_index len
    if too_full density density_b then
      let len := len * 2
      if len ≤ s.N then insert_climb s rest len (level - 1) (find_node node_index len)
      else return none
    else return some (len, node_index)

/-- The end of `insert`: the last redistribution, over the planned window or over the one
that the climb finds. -/
def insert_finish (s : PCSR) (node_index : Nat) (info : Option insertion_info) : Res PCSR := do
  let window ← match info with
    | some info =>
      if info.double_list then pure none else pure (some (info.max_len, info.node_index_final))
    | none => insert_climb s (s.N + 1) (logN s.N) (height s.N) node_index
  match window with
  | none => double_list s
  | some (len, node_index) => if logN s.N < len then redistribute s node_index len else return s

/-- `insert` from the write of the item on: slot `index` is free, and `node_index` is the leaf
that is redistributed. A leaf that is full spills over into the next level up. -/
def insert_item (s : PCSR) (index node_index : Nat) (elem : Edge) (info : Option insertion_info) :
    Res PCSR := do
  let len := logN s.N
  let s ← s.put index elem
  let density ← get_density s node_index len
  if density = 1 then
    let node_index := find_node node_index (len * 2)
    let s ← redistribute s node_index (len * 2)
    insert_finish s node_index info
  else
    let s ← redistribute s node_index len
    insert_finish s node_index info

/-- `calls` counts the calls that may still come: an insertion in the last slot doubles the
array and starts again there. -/
def insert_calls : (calls : Nat) → PCSR → (index : Nat) → Edge → (src : Nat) →
    Option insertion_info → Res PCSR
  | 0, _, _, _, _, _ => .error .fuel
  | calls + 1, s, index, elem, src, info => do
    let node_index := find_leaf s.N index
    let item ← s.item index
    if item.is_null then insert_item s index node_index elem info
    else if !is_sentinel elem && item.dest == elem.dest then
      s.put index { item with value := elem.value }
    else if index = s.N - 1 then
      let s ← double_list s
      let loc_to_add ← find_in_node s elem src
      insert_calls calls s loc_to_add elem src none
    else
      let (off_end, s) ← slide_right s index
      if off_end then
        let s ← slide_left s (index - 1)
        insert_item s (index - 1) node_index elem info
      else insert_item s index node_index elem info

def insert (s : PCSR) (index : Nat) (elem : Edge) (src : Nat) (info : Option insertion_info) :
    Res PCSR := insert_calls 3 s index elem src info

/-! ## Removal -/

/-- The climb of `remove`: the window that is redistributed last, or `none` when the climb
runs past the root. -/
def remove_climb (s : PCSR) : (rest len : Nat) → (level : Int) → (node_index : Nat) →
    Res (Option (Nat × Nat))
  | 0, _, _, _ => .error .fuel
  | rest + 1, len, level, node_index => do
    let density_b ← density_bound s.N level
    let density ← get_density s node_index len
    if too_empty density density_b then
      let len := len * 2
      if len ≤ s.N then remove_climb s rest len (level - 1) (find_node node_index len)
      else return none
    else return some (len, node_index)

/-- `remove` without its call of `half_list`. Gives `true` where that call comes. -/
def remove_items (s : PCSR) (index : Nat) (elem : Edge) : Res (Bool × PCSR) := do
  let node_index := find_leaf s.N index
  let item ← s.item index
  if item.is_null || is_sentinel elem || item.dest != elem.dest then return (false, s)
  let s ← s.put index { item with dest := 0, value := 0 }
  let s ← redistribute s node_index (logN s.N)
  match ← remove_climb s (s.N + 1) (logN s.N) (height s.N) node_index with
  | none => return (true, s)
  | some (len, node_index) => do
    let s ← redistribute s node_index len
    return (false, s)

/-- The loop of `half_list` over the locks that go: each is unlocked and deleted. -/
def drop_locks : (rest i : Nat) → Op Unit
  | 0, _ => pure ()
  | rest + 1, i => do
    leaf .unlock i
    leaf .destroy i
    drop_locks rest (i + 1)

def half_list : Op Unit := do
  let prev_locks_size ← look fun s => .ok (s.N / logN s.N)
  change fun s => .ok (half_items s)
  let new_locks_size ← look fun s => .ok (s.N / logN s.N)
  drop_locks (prev_locks_size - new_locks_size) new_locks_size
  change half_finish

def remove (index : Nat) (elem : Edge) : Op Unit := do
  let halve ← (.perform (.act fun s => remove_items s index elem) : Op Bool)
  if halve then half_list else pure ()

end packed_csr
