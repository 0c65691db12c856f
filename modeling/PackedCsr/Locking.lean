-- The operations on edges: the search phase under the shared leaf locks, the
-- planning under the exclusive leaf locks, and the update.
import PackedCsr.Update

namespace packed_csr

open effects

/-- The answers of the two planners that are no range of locks. -/
inductive SpecialCases
  | NEED_GLOBAL_WRITE
  | NEED_RETRY
  | EDGE_NOT_FOUND
deriving DecidableEq, Repr

/-- The answer of a planner: a special case, or the leaves that it holds. -/
inductive Acquired
  | special (c : SpecialCases)
  | range (min_node max_node : Nat)
deriving DecidableEq, Repr

/-! ## Locks of a range -/

def release_locks_no_inc (min_node max_node : Nat) : Op Unit :=
  leaf_range .unlock min_node max_node

/-- The loop of `release_locks`, with `rest` leaves to go. -/
def release_loop : (a rest : Nat) → Op Unit
  | _, 0 => pure ()
  | a, rest + 1 => do
    change (·.bump a)
    leaf .unlock a
    release_loop (a + 1) rest

def release_locks (min_node max_node : Nat) : Op Unit := release_loop min_node (max_node + 1 - min_node)

/-- `for (i = max_node + 1; i < end; i++)`: locks each leaf and moves `max_node` to it. -/
def lock_up_to : (rest max_node : Nat) → Op Nat
  | 0, max_node => pure max_node
  | rest + 1, max_node => do
    leaf .lock (max_node + 1)
    lock_up_to rest (max_node + 1)

/-! ## The position of an edge -/

/-- The scan to the right of `got_correct_insertion_index`, with `rest` slots to go: it
locks each leaf that it enters. Gives the first item, if there is one. -/
def right_scan (N : Nat) : (rest ind curr_n max_node : Nat) → Op (Option Edge × Nat)
  | 0, _, _, max_node => pure (none, max_node)
  | rest + 1, ind, curr_n, max_node => do
    let enters := decide (curr_n + logN N ≤ ind)
    let curr_n := if enters then curr_n + logN N else curr_n
    let max_node := if enters then max_node + 1 else max_node
    leaf_if enters .lock max_node
    let item ← look (·.item ind)
    if item.is_null then right_scan N rest (ind + 1) curr_n max_node
    else pure (some item, max_node)

/-- The scan to the left of `got_correct_insertion_index`: `ind` is unsigned, so below slot 0
it wraps, and the read there is outside the array. -/
def left_scan : (ind : Nat) → Op Edge
  | 0 => do
    let item ← look (·.item 0)
    if item.is_null then look fun _ => .error (.slot UINT32_MAX) else pure item
  | ind + 1 => do
    let item ← look (·.item (ind + 1))
    if item.is_null then left_scan ind else pure item

/-- An item at the slot itself that belongs to another region. -/
def foreign_item (n src : Nat) (ins_edge : Edge) : Bool :=
  !ins_edge.is_null &&
    ((is_sentinel ins_edge && src + 1 != n && ins_edge.src != src + 1) ||
     (is_sentinel ins_edge && src + 1 == n && ins_edge.value != UINT32_MAX) ||
     (!is_sentinel ins_edge && ins_edge.src != src))

/-- The next item to the right of a null slot shows that the slot is wrong. -/
def wrong_right (n src dest : Nat) (item : Edge) : Bool :=
  (!item.is_null && !is_sentinel item && item.src == src && decide (item.dest < dest)) ||
  (!item.is_null && is_sentinel item &&
    ((src + 1 != n && item.value != src + 1) || (src + 1 == n && item.value == UINT32_MAX)))

/-- The next item to the left shows that the slot is wrong. -/
def wrong_left (src dest : Nat) (item : Edge) : Bool :=
  (!item.is_null && !is_sentinel item && item.src == src && decide (dest ≤ item.dest)) ||
  (!item.is_null && is_sentinel item &&
    ((src == 0 && item.value != UINT32_MAX) || (src != 0 && item.value != src)))

/-- `got_correct_insertion_index`: whether `index` is the place of `elem`, and the last leaf
that is locked now. -/
def got_correct_insertion_index (N : Nat) (ins_edge : Edge) (src index : Nat) (elem : Edge)
    (node_index max_node : Nat) : Op (Bool × Nat) := do
  let n ← look fun s => .ok s.get_n
  if foreign_item n src ins_edge then return (false, max_node)
  if !ins_edge.is_null && !is_sentinel ins_edge && decide (ins_edge.dest < elem.dest) then
    return (false, max_node)
  let (next, max_node) ←
    if ins_edge.is_null then right_scan N (N - (index + 1)) (index + 1) node_index max_node
    else pure (none, max_node)
  if next.any (wrong_right n src elem.dest) then return (false, max_node)
  if index = 0 then look fun _ => .error (.slot UINT32_MAX)
  let item ← left_scan (index - 1)
  if wrong_left src elem.dest item then return (false, max_node)
  return (true, max_node)

/-! ## The plan of an insertion -/

/-- How the loops of a planner end: past the root of the implicit tree, with a restart
from a leaf further left, or with a window and the leaves that are held. -/
inductive Climb
  | root
  | restart (left_node_bound : Nat)
  | window (len node_index min_node max_node : Nat)

def density_of (node_index len : Nat) : Op ℚ := look (get_density · node_index len)

/-- The first locks of `acquire_insert_locks`. Gives `min_node`. -/
def insert_first_locks (lock_bsearch : Bool) (node_id : Nat) : Option Nat → Op Nat
  | some left => do
    leaf_range .lock left node_id
    return min node_id left
  | none => do
    if 0 < node_id ∧ !lock_bsearch then
      leaf .lock (node_id - 1)
      leaf .lock node_id
      return node_id - 1
    else
      leaf .lock node_id
      return node_id

/-- The climb of `acquire_insert_locks`. -/
def insert_plan_climb (N : Nat) : (rest len : Nat) → (level : Int) →
    (node_index min_node max_node : Nat) → Op Climb
  | 0, _, _, _, _, _ => stuck
  | rest + 1, len, level, node_index, min_node, max_node => do
    let density_b ← look fun _ => density_bound N level
    let density ← density_of node_index len
    if too_full (density + 1 / len) density_b then
      let len := len * 2
      if len ≤ N then
        let new_node_index := find_node node_index len
        if new_node_index < node_index then
          let new_node_id := get_node_id N new_node_index
          if new_node_id < min_node then
            release_locks_no_inc min_node max_node
            return .restart new_node_id
          else
            insert_plan_climb N rest len (level - 1) new_node_index (min min_node new_node_id) max_node
        else
          let end_ := get_node_id N (find_leaf N (new_node_index + len))
          let max_node ← lock_up_to (end_ - (max_node + 1)) max_node
          insert_plan_climb N rest len (level - 1) new_node_index min_node max_node
      else
        leaf_range .unlock min_node max_node
        return .root
    else return .window len node_index min_node max_node

/-- The part of `acquire_insert_locks` that finds the window: the spill of a leaf that the
insertion fills, the climb, and the locks of the window. -/
def insert_plan_window (N node_index min_node max_node : Nat) : Op Climb := do
  let len := logN N
  let density ← density_of node_index len
  let full := decide (density + 1 / len = 1)
  let new_node_idx := find_node node_index (2 * len)
  let new_node_id := get_node_id N new_node_idx
  let right := full && new_node_idx == node_index && decide (max_node < new_node_id)
  if full && !right && decide (new_node_id < min_node) then
    release_locks_no_inc min_node max_node
    return .restart new_node_id
  leaf_if right .lock new_node_id
  let max_node := if right then new_node_id else max_node
  let node_index := if full then new_node_idx else node_index
  match ← insert_plan_climb N (N + 1) len (height N) node_index min_node max_node with
  | .root => return .root
  | .restart left => return .restart left
  | .window len node_index min_node max_node =>
    let new_node_index := find_node node_index len
    if new_node_index < node_index then
      let node_id := get_node_id N new_node_index
      if node_id < min_node then
        release_locks_no_inc min_node max_node
        return .restart node_id
      else return .window len new_node_index (min min_node node_id) max_node
    else
      let end_ := get_node_id N (find_leaf N (new_node_index + len))
      let max_node ← lock_up_to (end_ - (max_node + 1)) max_node
      return .window len new_node_index min_node max_node

/-- The locks for `slide_right`: from slot `curr_ind` on, with `rest` slots to go, each leaf
up to the first null slot. Gives `true` when there is none. -/
def slide_right_locks (N : Nat) : (rest curr_ind curr_node curr_node_idx max_node : Nat) →
    Op (Bool × Nat)
  | 0, _, _, _, max_node => pure (true, max_node)
  | rest + 1, curr_ind, curr_node, curr_node_idx, max_node => do
    let enters := decide (curr_node_idx + logN N ≤ curr_ind)
    let curr_node := if enters then curr_node + 1 else curr_node
    let curr_node_idx := if enters then curr_ind else curr_node_idx
    let locks := enters && decide (max_node < curr_node)
    leaf_if locks .lock curr_node
    let max_node := if locks then curr_node else max_node
    let item ← look (·.item curr_ind)
    if item.is_null then pure (false, max_node)
    else slide_right_locks N rest (curr_ind + 1) curr_node curr_node_idx max_node

/-- The way to the left that a slide off the right end takes: `some left` where it needs a
leaf left of the held ones, and `true` where it finds no null slot. `index` is `curr_ind + 1`. -/
def slide_left_locks (N : Nat) : (index curr_node curr_node_idx min_node : Nat) →
    Op (Option Nat × Bool)
  | 0, _, _, _ => pure (none, true)
  | curr_ind + 1, curr_node, curr_node_idx, min_node => do
    let item ← look (·.item curr_ind)
    if item.is_null then pure (none, false)
    else if 0 < curr_ind ∧ curr_ind - 1 < curr_node_idx then
      let curr_node := curr_node - 1
      if curr_node < min_node then pure (some curr_node, false)
      else slide_left_locks N curr_ind curr_node (find_leaf N (curr_ind - 1)) min_node
    else slide_left_locks N curr_ind curr_node curr_node_idx min_node

/-- The last part of `acquire_insert_locks`: the locks for the slides. -/
def insert_plan_slide (N index max_len node_index_final min_node max_node : Nat) :
    Op (Nat ⊕ (Acquired × Option insertion_info)) := do
  let info : insertion_info := ⟨max_len, node_index_final, false⟩
  let node_index := find_leaf N index
  let item ← look (·.item index)
  if item.is_null then return .inr (.range min_node max_node, some info)
  let (off_end, max_node) ←
    slide_right_locks N (N - (index + 1)) (index + 1) (get_node_id N node_index) node_index max_node
  if !off_end then return .inr (.range min_node max_node, some info)
  let (left, none_left) ←
    slide_left_locks N (index + 1) (get_node_id N node_index) node_index min_node
  match left with
  | some left =>
    -- `min_node` is moved first, so the leaf that is not held is unlocked too
    release_locks_no_inc left max_node
    return .inl left
  | none =>
    if none_left then
      leaf_range .unlock min_node max_node
      return .inr (.special .NEED_GLOBAL_WRITE, none)
    else return .inr (.range min_node max_node, some info)

/-- One try of `acquire_insert_locks`. A restart from a leaf further left is given back. -/
def insert_try (N : Nat) (lock_bsearch : Bool) (index : Nat) (elem : Edge)
    (src ins_node_v : Nat) (left_node_bound : Option Nat) :
    Op (Nat ⊕ (Acquired × Option insertion_info)) := do
  let node_index := find_leaf N index
  let node_id := get_node_id N node_index
  let min_node ← insert_first_locks lock_bsearch node_id left_node_bound
  let version ← look (·.load node_id)
  if ← test .version_changed (decide (ins_node_v ≠ version)) then
    leaf_range .unlock min_node node_id
    return .inr (.special .NEED_RETRY, none)
  let item ← look (·.item index)
  if index = N - 1 ∧ !item.is_null then
    leaf_range .unlock min_node node_id
    return .inr (.special .NEED_GLOBAL_WRITE, none)
  let (correct, max_node) ←
    if lock_bsearch then pure (true, node_id)
    else do
      let ins_edge ← look (·.item index)
      let (correct, max_node) ←
        got_correct_insertion_index N ins_edge src index elem node_index node_id
      let rejected ← test .position_rejected (!correct)
      pure (!rejected, max_node)
  if !correct then
    leaf_range .unlock min_node max_node
    return .inr (.special .NEED_RETRY, none)
  match ← insert_plan_window N node_index min_node max_node with
  | .root => return .inr (.special .NEED_GLOBAL_WRITE, some ⟨0, 0, true⟩)
  | .restart left => return .inl left
  | .window len node_index min_node max_node =>
    insert_plan_slide N index len node_index min_node max_node

/-- `acquire_insert_locks`, with `4 - tries` tries left. -/
def acquire_insert_locks (N : Nat) (lock_bsearch : Bool) (index : Nat) (elem : Edge)
    (src ins_node_v : Nat) : (tries_left : Nat) → (left_node_bound : Option Nat) →
    Op (Acquired × Option insertion_info)
  | 0, _ => pure (.special .NEED_GLOBAL_WRITE, none)
  | tries_left + 1, left_node_bound => do
    match ← insert_try N lock_bsearch index elem src ins_node_v left_node_bound with
    | .inl left =>
      acquire_insert_locks N lock_bsearch index elem src ins_node_v tries_left (some left)
    | .inr r => return r

/-! ## The plan of a removal -/

/-- The first locks of `acquire_remove_locks`. Gives `min_node`. -/
def remove_first_locks (node_id : Nat) : Option Nat → Op Nat
  | some left => do
    leaf_range .lock left node_id
    return left
  | none => do
    leaf .lock node_id
    return node_id

/-- The climb of `acquire_remove_locks`. Past the root all locks stay held. -/
def remove_plan_climb (N : Nat) : (rest len : Nat) → (level : Int) →
    (node_index min_node max_node : Nat) → Op Climb
  | 0, _, _, _, _, _ => stuck
  | rest + 1, len, level, node_index, min_node, max_node => do
    let density_b ← look fun _ => density_bound N level
    let density ← density_of node_index len
    if too_empty (density - 1 / len) density_b then
      let len := len * 2
      if len ≤ N then
        let new_node_idx := find_node node_index len
        let new_node_id := get_node_id N new_node_idx
        if new_node_idx < node_index ∧ new_node_id < min_node then
          release_locks_no_inc min_node max_node
          return .restart new_node_id
        else
          let max_node ← lock_up_to (get_node_id N (new_node_idx + len) - (max_node + 1)) max_node
          remove_plan_climb N rest len (level - 1) new_node_idx min_node max_node
      else return .root
    else return .window len node_index min_node max_node

/-- The part of `acquire_remove_locks` behind the tests. A restart is given back. -/
def remove_plan_window (N node_index min_node max_node : Nat) : Op (Nat ⊕ Acquired) := do
  match ← remove_plan_climb N (N + 1) (logN N) (height N) node_index min_node max_node with
  | .root => return .inr (.special .NEED_GLOBAL_WRITE)
  | .restart left => return .inl left
  | .window len node_index min_node max_node =>
    let new_node_idx := find_node node_index len
    let new_node_id := get_node_id N new_node_idx
    if new_node_idx < node_index ∧ new_node_id < min_node then
      release_locks_no_inc min_node max_node
      return .inl new_node_id
    else
      let max_node ← lock_up_to (get_node_id N (new_node_idx + len) - (max_node + 1)) max_node
      return .inr (.range min_node max_node)

/-- One try of `acquire_remove_locks`. -/
def remove_try (N index : Nat) (elem : Edge) (src ins_node_v : Nat)
    (left_node_bound : Option Nat) : Op (Nat ⊕ Acquired) := do
  let node_index := find_leaf N index
  let node_id := get_node_id N node_index
  let min_node ← remove_first_locks node_id left_node_bound
  let ins_edge ← look (·.item index)
  let (correct, max_node) ←
    got_correct_insertion_index N ins_edge src index elem node_index node_id
  if ← test .position_rejected (!correct) then
    release_locks_no_inc min_node max_node
    return .inr (.special .NEED_RETRY)
  let version ← look (·.load node_id)
  if ← test .version_changed (decide (version ≠ ins_node_v)) then
    release_locks_no_inc min_node max_node
    return .inr (.special .NEED_RETRY)
  let item ← look (·.item index)
  if item.is_null || is_sentinel elem || item.dest != elem.dest then
    release_locks_no_inc min_node max_node
    return .inr (.special .EDGE_NOT_FOUND)
  remove_plan_window N node_index min_node max_node

/-- `acquire_remove_locks`. Each restart moves the left bound to the left, so `rest` bounds
the restarts. -/
def acquire_remove_locks (N index : Nat) (elem : Edge) (src ins_node_v : Nat) :
    (rest : Nat) → (left_node_bound : Option Nat) → Op Acquired
  | 0, _ => stuck
  | rest + 1, left_node_bound => do
    match ← remove_try N index elem src ins_node_v left_node_bound with
    | .inl left => acquire_remove_locks N index elem src ins_node_v rest (some left)
    | .inr r => return r

/-! ## The operations -/

/-- The insertion under the global lock. -/
def insert_global (e : Edge) (src : Nat) (info : Option insertion_info) : Op Unit := do
  let N ← look fun s => .ok s.N
  let n ← look (·.node src)
  let (pos, _) ← binary_search N e (n.beginning + 1) n.end_ false
  change (insert · pos e src info)

/-- The search phase of `add_edge_parallel`: the slot for the edge and the version of its
leaf, or `none` where the source calls itself with `retries + 1`. -/
def add_search (N : Nat) (lock_bsearch : Bool) (e : Edge) (src : Nat) (node : Node) :
    Op (Option (Nat × Nat)) := do
  let first_node := get_node_id N (find_leaf N (node.beginning + 1))
  if lock_bsearch then
    let last_node := get_node_id N (find_leaf N node.end_)
    leaf_range .lock_shared first_node last_node
    let now ← look (·.node src)
    if ← test .nodes_changed (now.beginning != node.beginning || now.end_ != node.end_) then
      leaf_range .unlock_shared first_node last_node
      global .unlock_shared
      change (·.count_neighbors src decr32)
      return none
    let bs ← binary_search N e (node.beginning + 1) node.end_ true
    return some bs
  else
    let bs ← binary_search N e (node.beginning + 1) node.end_ false
    if get_node_id N (find_leaf N bs.1) < first_node then
      change (·.count_neighbors src decr32)
      global .unlock_shared
      return none
    return some bs

/-- The rest of a try of `add_edge_parallel`, from its call of `acquire_insert_locks` on. Gives
`true` where the source calls itself with `retries + 1`. -/
def add_commit (N : Nat) (lock_bsearch : Bool) (e : Edge) (src loc_to_add ins_node_v : Nat) :
    Op Bool := do
  let (acquired, info) ← acquire_insert_locks N lock_bsearch loc_to_add e src ins_node_v 4 none
  match acquired with
  | .range min_node max_node =>
    change (insert · loc_to_add e src info)
    release_locks min_node max_node
    global .unlock_shared
    return false
  | .special .NEED_RETRY =>
    change (·.count_neighbors src decr32)
    global .unlock_shared
    return true
  | .special _ =>
    global .unlock_shared
    global .lock
    insert_global e src info
    global .unlock
    return false

/-- `add_edge_parallel` behind its guard and its test for too many retries: one try. Gives
`true` where the source calls itself with `retries + 1`. -/
def add_edge_try (e : Edge) (src : Nat) : Op Bool := do
  global .lock_shared
  let N ← look fun s => .ok s.N
  let lock_bsearch ← look fun s => .ok s.lock_bsearch
  let node ← look (·.node src)
  change (·.count_neighbors src incr32)
  match ← add_search N lock_bsearch e src node with
  | none => return true
  | some (loc_to_add, ins_node_v) => add_commit N lock_bsearch e src loc_to_add ins_node_v

/-- `add_edge_parallel`, with `4 - retries` tries left. -/
def add_edge_parallel (src dest value : Nat) : (tries_left : Nat) → Op Unit
  | 0 => do
    let n ← look fun s => .ok s.get_n
    if value ≠ 0 ∧ src < n then
      global .lock
      change (·.count_neighbors src incr32)
      insert_global ⟨src, dest, value⟩ src none
      global .unlock
  | tries_left + 1 => do
    let n ← look fun s => .ok s.get_n
    if value ≠ 0 ∧ src < n then
      if ← add_edge_try ⟨src, dest, value⟩ src then add_edge_parallel src dest value tries_left

def add_edge (src dest value : Nat) : Op Unit := add_edge_parallel src dest value 4

/-- The search phase of `remove_edge`: the slot and the version of its leaf, or `none` where
the source calls itself again because the node changed. -/
def remove_search (N : Nat) (lock_bsearch : Bool) (e : Edge) (src : Nat) (node : Node) :
    Op (Option (Nat × Nat)) := do
  if lock_bsearch then
    let first_node := get_node_id N (find_leaf N (node.beginning + 1))
    let last_node := get_node_id N (find_leaf N node.end_)
    leaf_range .lock_shared first_node last_node
    let now ← look (·.node src)
    if ← test .nodes_changed (now.beginning != node.beginning || now.end_ != node.end_) then
      release_locks_no_inc first_node last_node
      global .unlock_shared
      return none
    let (loc_to_rem, _) ← binary_search N e (node.beginning + 1) node.end_ false
    let ins_node_v ← look (·.load (get_node_id N (find_leaf N loc_to_rem)))
    leaf_range .unlock_shared first_node last_node
    return some (loc_to_rem, ins_node_v)
  else
    let now ← look (·.node src)
    let bs ← binary_search N e (now.beginning + 1) now.end_ false
    return some bs

/-- The removal under the global lock. -/
def remove_global (e : Edge) (src : Nat) : Op Unit := do
  let N ← look fun s => .ok s.N
  let n ← look (·.node src)
  let (loc_to_rem, _) ← binary_search N e (n.beginning + 1) n.end_ false
  remove loc_to_rem e

/-- The rest of `remove_edge`, from its call of `acquire_remove_locks` on. Gives `true` where
the source calls itself again. -/
def remove_commit (N : Nat) (e : Edge) (src loc_to_rem ins_node_v : Nat) : Op Bool := do
  match ← acquire_remove_locks N loc_to_rem e src ins_node_v (N + 2) none with
  | .special .EDGE_NOT_FOUND =>
    global .unlock_shared
    return false
  | .special .NEED_GLOBAL_WRITE =>
    release_locks_no_inc 0 (N / logN N - 1)
    global .unlock_shared
    global .lock
    remove_global e src
    global .unlock
    return false
  | .special .NEED_RETRY =>
    change (·.count_neighbors src incr32)
    global .unlock_shared
    return true
  | .range min_node max_node =>
    remove loc_to_rem e
    release_locks min_node max_node
    global .unlock_shared
    return false

/-- `remove_edge` up to its next call of itself. Gives `true` where that call comes. -/
def remove_edge_try (src dest : Nat) : Op Bool := do
  let e : Edge := ⟨src, dest, 1⟩
  global .lock_shared
  let N ← look fun s => .ok s.N
  let lock_bsearch ← look fun s => .ok s.lock_bsearch
  let node ← look (·.node src)
  match ← remove_search N lock_bsearch e src node with
  | none => return true
  | some (loc_to_rem, ins_node_v) =>
    change (·.count_neighbors src decr32)
    remove_commit N e src loc_to_rem ins_node_v

/-- `remove_edge`. It calls itself without a bound; `calls` counts the calls that are left. -/
def remove_edge (src dest : Nat) : (calls : Nat) → Op Unit
  | 0 => stuck
  | calls + 1 => do
    if ← remove_edge_try src dest then remove_edge src dest calls

end packed_csr
