-- The constructor of a PCSR, and the runs of calls that one thread makes.
import PackedCsr.Locking

namespace packed_csr

open effects

/-! ## The constructor -/

/-- The running position `index_d` after `i` steps, rounded down. It is taken as exact. -/
def init_slot (N src_n i : Nat) : Nat := i * N / src_n

/-- The loop of the constructor over the vertices from `i` on. -/
def init_nodes_loop (N src_n : Nat) : (rest i beginning : Nat) → List Node
  | 0, _, _ => []
  | rest + 1, i, beginning =>
    let slot := init_slot N src_n (i + 1)
    ⟨beginning, slot, 0⟩ :: init_nodes_loop N src_n rest (i + 1) slot

/-- The loop of the constructor over the slots from `i` on. -/
def init_items_loop (N src_n : Nat) : (rest i current : Nat) → List Edge
  | 0, _, _ => []
  | rest + 1, i, current =>
    if i = init_slot N src_n current ∧ current < src_n then
      ⟨current, UINT32_MAX, if i = 0 then UINT32_MAX else current⟩ ::
        init_items_loop N src_n rest (i + 1) (current + 1)
    else null_edge :: init_items_loop N src_n rest (i + 1) current

/-- `PCSR(init_n, src_n, lock_search)`. -/
def new_pcsr (init_n src_n : Nat) (lock_search : Bool) : PCSR :=
  let N := 2 * 2 ^ Nat.log2 (max (init_n + src_n) 1024)
  { N
    items := init_items_loop N src_n N 0 0
    nodes := (init_nodes_loop N src_n src_n 0 0).modify (src_n - 1) fun n => { n with end_ := N - 1 }
    versions := List.replicate (N / logN N) 0
    lock_bsearch := lock_search }

/-! ## Calls of one thread -/

inductive Call
  | add_edge (src dest value : Nat)
  | remove_edge (src dest : Nat)
deriving DecidableEq, Repr

/-- The program of a call. `calls` bounds the calls that `remove_edge` makes of itself. -/
def Call.prog (calls : Nat) : Call → Op Unit
  | .add_edge src dest value => packed_csr.add_edge src dest value
  | .remove_edge src dest => packed_csr.remove_edge src dest calls

/-- The call returns when no other thread is active, and leaves `s'`. -/
def Returns (s : PCSR) (c : Call) (s' : PCSR) : Prop :=
  ∃ calls, exec (c.prog calls) s = .ok ((), s')

/-- The arguments that a call may have: a vertex of the graph, a destination below the mark of
a sentinel, and a value that is neither null nor that mark. -/
def Call.Valid (n : Nat) : Call → Prop
  | .add_edge src dest value => src < n ∧ dest < UINT32_MAX ∧ 0 < value ∧ value < UINT32_MAX
  | .remove_edge src dest => src < n ∧ dest < UINT32_MAX

end packed_csr
