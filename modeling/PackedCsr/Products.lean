-- `sparse_matrix_vector_multiplication`: the regions are the rows of a matrix. The loop over a row reads
-- the free slots as well: they add the product of 0 and the first entry.
import PackedCsr.Clearing

namespace packed_csr

/-- The loop over a row, from slot `j` on. The sum is a `uint32_t`: it wraps. -/
def row_loop (s : PCSR) (v : List Nat) : (rest j sum : Nat) → Res Nat
  | 0, _, sum => .ok sum
  | rest + 1, j, sum => do
    let e ← s.item j
    let x ← match v[e.dest]? with
      | some x => .ok x
      | none => .error (.slot e.dest)
    row_loop s v rest (j + 1) ((sum + e.value * x) % 4294967296)

def rows_loop (s : PCSR) (v : List Nat) : (rest i : Nat) → Res (List Nat)
  | 0, _ => .ok []
  | rest + 1, i => do
    let n ← s.node i
    let sum ← row_loop s v (n.end_ - (n.beginning + 1)) (n.beginning + 1) 0
    let more ← rows_loop s v rest (i + 1)
    return sum :: more

def sparse_matrix_vector_multiplication (s : PCSR) (v : List Nat) : Res (List Nat) := rows_loop s v s.get_n 0

section

variable {s : PCSR} {m : Nat → Nat → Option Nat} {v : List Nat} {u : Nat}

/-- The product of a row, given as a list of edges, with a vector. -/
def product (v : List Nat) (es : List Edge) : Nat := (es.map fun x => x.value * v.getD x.dest 0).sum

theorem row_loop_spec (hclear : AllClear s.items) (hpos : 0 < v.length) {rest j sum : Nat}
    (hlen : j + rest ≤ s.items.length) (hsum : sum < 4294967296)
    (hlt : ∀ x ∈ ((s.items.drop j).take rest).filter full, x.dest < v.length) :
    row_loop s v rest j sum =
      .ok ((sum + product v (((s.items.drop j).take rest).filter full)) % 4294967296) := by
  induction rest generalizing j sum with
  | zero => simp [row_loop, product, Nat.mod_eq_of_lt hsum]
  | succ rest ih =>
    have hj : j < s.items.length := by omega
    have hcons : (s.items.drop j).take (rest + 1) = s.items[j] :: (s.items.drop (j + 1)).take rest := by
      rw [List.drop_eq_getElem_cons hj, List.take_succ_cons]
    rw [hcons, List.filter_cons] at hlt ⊢
    have hmod : ∀ x, (sum + x) % 4294967296 < 4294967296 := fun x => Nat.mod_lt _ (by decide)
    have htail : ∀ x ∈ ((s.items.drop (j + 1)).take rest).filter full, x.dest < v.length := by
      intro x hx
      apply hlt x
      split
      · exact List.mem_cons_of_mem _ hx
      · exact hx
    have hdest : s.items[j].dest < v.length := by
      cases hf : full s.items[j] with
      | true =>
        apply hlt
        rw [if_pos hf]
        exact List.mem_cons_self
      | false =>
        rw [hclear _ (List.getElem_mem hj) (by simpa [full] using hf)]
        exact hpos
    unfold row_loop
    rw [item_of_lt hj]
    simp only [bind, Except.bind, List.getElem?_eq_getElem hdest]
    rw [ih (by omega) (hmod _) htail, Nat.mod_add_mod]
    cases hf : full s.items[j] with
    | true =>
      simp [product, hdest, Nat.add_assoc]
    | false =>
      have hvalue : s.items[j].value = 0 := by simpa [full, Edge.is_null] using hf
      simp [hvalue]

theorem rows_loop_spec (hw : WellFormed s) (hclear : AllClear s.items) (hpos : 0 < v.length)
    (hlt : ∀ u < s.get_n, ∀ x ∈ seen s u, x.dest < v.length) {rest i : Nat} (hi : i + rest ≤ s.get_n) :
    rows_loop s v rest i =
      .ok ((List.range' i rest).map fun u => product v (seen s u) % 4294967296) := by
  induction rest generalizing i with
  | zero => rfl
  | succ rest ih =>
    have hin : i < s.get_n := by omega
    obtain ⟨b, en, hb⟩ := hw.bounds hin
    obtain ⟨node, hnode, rfl, rfl⟩ := id hb.node
    have hle := hb.b_le hw
    have hen := hb.e_lt hw
    have hseen := hlt i hin
    rw [hb.seen_eq] at hseen
    have hlen : node.beginning + 1 + (node.end_ - (node.beginning + 1)) ≤ s.items.length := by
      have := hb.b_lt hw
      rw [hw.sized.items]
      omega
    have hrow := row_loop_spec hclear hpos hlen (by decide : 0 < 4294967296) hseen
    unfold rows_loop
    rw [hnode]
    simp only [bind, Except.bind, hrow, ih (show i + 1 + rest ≤ s.get_n by omega), Nat.zero_add]
    rw [List.range'_succ, List.map_cons, hb.seen_eq]
    rfl

/-- The edges of a vertex make a row of the matrix of the map. -/
theorem Holds.product (h : Holds s m) (hw : WellFormed s) (hlt : ∀ w, m u w ≠ none → w < v.length) :
    packed_csr.product v (edges_of s u) = ∑ w ∈ Finset.range v.length, (m u w).getD 0 * v.getD w 0 := by
  have hvalue : ∀ x ∈ edges_of s u, x.value * v.getD x.dest 0 = (m u x.dest).getD 0 * v.getD x.dest 0 := by
    intro x hx
    have hsrc := (mem_edges_of.mp hx).2.2
    have hm : m u x.dest = some x.value := by
      rw [h u x.dest x.value, ← hsrc]
      rw [← hsrc] at hx
      exact hx
    rw [hm]
    rfl
  have hdests : ((edges_of s u).map Edge.dest).Nodup := (edges_of_ascending hw u).imp Nat.ne_of_lt
  unfold packed_csr.product
  rw [List.map_congr_left hvalue]
  have hcomp : (edges_of s u).map (fun x => (m u x.dest).getD 0 * v.getD x.dest 0) =
      ((edges_of s u).map Edge.dest).map fun w => (m u w).getD 0 * v.getD w 0 := by
    rw [List.map_map]
    rfl
  rw [hcomp, ← List.sum_toFinset _ hdests]
  have hmem : ∀ w, w ∈ ((edges_of s u).map Edge.dest).toFinset ↔ m u w ≠ none := by
    intro w
    rw [List.mem_toFinset, List.mem_map, h.exists_iff]
  refine Finset.sum_subset (fun w hw => ?_) fun w _ hw => ?_
  · rw [Finset.mem_range]
    exact hlt w ((hmem w).mp hw)
  · rw [hmem, not_not] at hw
    rw [hw]
    exact Nat.zero_mul _

end

/-! ## The law -/

end packed_csr
