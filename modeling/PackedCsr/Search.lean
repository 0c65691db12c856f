-- The binary search over a range with gaps, and the functions that read the
-- graph.
import PackedCsr.Items

namespace packed_csr

open effects

/-! ## Binary search -/

/-- The inner loop of `binary_search`: from a null midpoint it looks to the right and to the
left in turn, until it finds an item or both sides are used up. Gives the last item that it
read and the last slot that it computed. -/
def fan_loop (start end_ mid : Nat) : (rest change : Nat) → (item : Edge) → (check : Nat) →
    (flag : Bool) → Op (Edge × Nat)
  | 0, _, _, _, _ => stuck
  | rest + 1, change, item, check, flag =>
    if !(item.is_null && flag) then pure (item, check)
    else if mid + change < end_ then do
      let right ← look (·.item (mid + change))
      if !right.is_null then pure (right, mid + change)
      else
        let check := sub32 mid change
        if start ≤ check then do
          let left ← look (·.item check)
          fan_loop start end_ mid rest (change + 1) left check true
        else fan_loop start end_ mid rest (change + 1) right check true
    else
      let check := sub32 mid change
      if start ≤ check then do
        let left ← look (·.item check)
        fan_loop start end_ mid rest (change + 1) left check true
      else fan_loop start end_ mid rest (change + 1) item check false

def nodes_unlock_shared (unlock : Bool) (start_node end_node : Nat) : Op Unit :=
  if unlock then leaf_range .unlock_shared start_node end_node else pure ()

/-- The outer loop of `binary_search`. A result ends it; otherwise it gives the range that
is left. -/
def search_loop (N dest : Nat) : (rest start end_ : Nat) → Op ((Nat × Nat) ⊕ (Nat × Nat))
  | 0, _, _ => stuck
  | rest + 1, start, end_ =>
    if start + 1 < end_ then do
      let mid := (start + end_) / 2
      let item ← look (·.item mid)
      let (item, check) ← fan_loop start end_ mid (end_ - start + 1) 1 item mid true
      let ins_v ← look (·.load (get_node_id N (find_leaf N check)))
      let ins2 ← look (·.load (get_node_id N (find_leaf N mid)))
      if item.is_null || start == check || end_ == check then
        if !item.is_null && start == check && decide (dest ≤ item.dest) then
          pure (.inl (check, ins_v))
        else pure (.inl (mid, ins2))
      else
        let ins_v ← look (·.load (get_node_id N (find_leaf N check)))
        if dest = item.dest then pure (.inl (check, ins_v))
        else if dest < item.dest then search_loop N dest rest start check
        else search_loop N dest rest check end_
    else pure (.inr (start, end_))

/-- The slot of the smallest item of `[start, end_)` that is not smaller than `elem`, or
`end_`, and the version of its leaf. Every exit releases the locks first if `unlock` is set. -/
def binary_search (N : Nat) (elem : Edge) (start end_ : Nat) (unlock : Bool) : Op (Nat × Nat) := do
  let start_node := get_node_id N (find_leaf N start)
  let end_node := get_node_id N (find_leaf N end_)
  match ← search_loop N elem.dest (end_ - start + 1) start end_ with
  | .inl found => do
    nodes_unlock_shared unlock start_node end_node
    pure found
  | .inr (start, end_) => do
    let start := if end_ < start then end_ else start
    let ins_v ← look (·.load (get_node_id N (find_leaf N start)))
    let item ← look (·.item start)
    if elem.dest ≤ item.dest && !item.is_null then
      nodes_unlock_shared unlock start_node end_node
      pure (start, ins_v)
    else
      let ins_v ← look (·.load (get_node_id N (find_leaf N end_)))
      nodes_unlock_shared unlock start_node end_node
      pure (end_, ins_v)

/-- The search in the region of a vertex, with no other thread active. -/
def find_in_node (s : PCSR) (elem : Edge) (src : Nat) : Res Nat := do
  let n ← s.node src
  let ((loc, _), _) ← exec (binary_search s.N elem (n.beginning + 1) n.end_ false) s
  return loc

/-! ## The readers -/

def find_value (s : PCSR) (src dest : Nat) : Res Nat := do
  let loc ← find_in_node s ⟨0, dest, 0⟩ src
  let e ← s.item loc
  return if !e.is_null && e.dest == dest then e.value else 0

def edge_exists (s : PCSR) (src dest : Nat) : Res Bool := do
  let loc ← find_in_node s ⟨0, dest, 1⟩ src
  let e ← s.item loc
  return !e.is_null && !is_sentinel e && e.dest == dest

/-- The loops of the readers over a region: the items of the slots from `i` on, null slots
left out, with `rest` slots to go. -/
def region_loop (s : PCSR) : (rest i : Nat) → Res (List Edge)
  | 0, _ => .ok []
  | rest + 1, i => do
    let e ← s.item i
    let es ← region_loop s rest (i + 1)
    return if e.is_null then es else e :: es

def get_neighbourhood (s : PCSR) (src : Nat) : Res (List Nat) :=
  if src < s.get_n then do
    let n ← s.node src
    let es ← region_loop s (n.end_ - (n.beginning + 1)) (n.beginning + 1)
    return es.map (·.dest)
  else .ok []

/-- The loop of `get_edges` over the vertices from `v` on. -/
def get_edges_loop (s : PCSR) : (rest v : Nat) → Res (List (Nat × Nat × Nat))
  | 0, _ => .ok []
  | rest + 1, v => do
    let n ← s.node v
    let es ← region_loop s (n.end_ - (n.beginning + 1)) (n.beginning + 1)
    let more ← get_edges_loop s rest (v + 1)
    return es.map (fun e => (v, e.dest, e.value)) ++ more

def get_edges (s : PCSR) : Res (List (Nat × Nat × Nat)) := get_edges_loop s s.get_n 0

end packed_csr
