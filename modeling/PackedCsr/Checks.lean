-- Whether a given array is well formed can be decided.
import PackedCsr.Layout

namespace packed_csr

theorem pow_iff {N : Nat} : Pow N ↔ 2 ^ Nat.log2 N = N := by
  constructor
  · rintro ⟨k, rfl⟩
    rw [Nat.log2_two_pow]
  · intro h
    exact ⟨Nat.log2 N, h.symm⟩

instance decidablePow (N : Nat) : Decidable (Pow N) := decidable_of_iff _ pow_iff.symm

instance decidableSized (s : PCSR) : Decidable (Sized s) :=
  decidable_of_iff (Pow s.N ∧ s.items.length = s.N ∧ s.versions.length = s.N / logN s.N)
    ⟨fun ⟨h1, h2, h3⟩ => ⟨h1, h2, h3⟩, fun h => ⟨h.pow, h.items, h.versions⟩⟩

instance decidableIsEdge (n : Nat) (e : Edge) : Decidable (IsEdge n e) :=
  decidable_of_iff (e.src < n ∧ e.dest < UINT32_MAX ∧ 0 < e.value ∧ e.value < UINT32_MAX)
    ⟨fun ⟨h1, h2, h3, h4⟩ => ⟨h1, h2, h3, h4⟩, fun h => ⟨h.src, h.dest, h.value_pos, h.value_lt⟩⟩

/-- A sentinel names its vertex. -/
theorem isItem_iff {n : Nat} {e : Edge} : IsItem n e ↔ IsEdge n e ∨ (e.src < n ∧ e = sentinel e.src) := by
  unfold IsItem
  apply or_congr Iff.rfl
  constructor
  · rintro ⟨v, hv, rfl⟩
    exact ⟨hv, rfl⟩
  · rintro ⟨hv, he⟩
    exact ⟨e.src, hv, he⟩

instance decidableIsItem (n : Nat) (e : Edge) : Decidable (IsItem n e) := decidable_of_iff _ isItem_iff.symm

instance decidableBefore (a b : Edge) : Decidable (Before a b) := decidable_of_iff _ before_iff.symm

instance decidableArranged (n : Nat) (c : List Edge) : Decidable (Arranged n c) :=
  decidable_of_iff (c.Pairwise Before ∧ (∀ e ∈ c, IsItem n e) ∧ ∀ v < n, sentinel v ∈ c)
    ⟨fun ⟨h1, h2, h3⟩ => ⟨h1, h2, h3⟩, fun h => ⟨h.sorted, h.items, h.sentinels⟩⟩

instance decidablePointsTo (nodes : List Node) (v slot : Nat) : Decidable (PointsTo nodes v slot) :=
  inferInstanceAs (Decidable (nodes[v]?.map Node.beginning = some slot ∧
    (0 < v → nodes[v - 1]?.map Node.end_ = some slot)))

instance decidableEndsAt (nodes : List Node) (N : Nat) : Decidable (EndsAt nodes N) :=
  inferInstanceAs (Decidable (nodes[nodes.length - 1]?.map Node.end_ = some (N - 1)))

/-- The links, slot by slot. -/
theorem linked_iff {s : PCSR} : (∀ i, LinkedAt s i) ↔
    ∀ i < s.items.length, ∀ e ∈ s.items[i]?, e = sentinel e.src → PointsTo s.nodes e.src i := by
  constructor
  · intro h i _ e he hs
    rw [Option.mem_def, hs] at he
    exact h i e.src he
  · intro h i v hv
    exact h i (List.getElem?_eq_some_iff.mp hv).1 (sentinel v) hv rfl

instance decidableWellFormed (s : PCSR) : Decidable (WellFormed s) :=
  decidable_of_iff (Sized s ∧ 0 < s.get_n ∧ s.get_n ≤ UINT32_MAX ∧ Arranged s.get_n (s.items.filter full) ∧
      s.items[0]? = some (sentinel 0) ∧
      (∀ i < s.items.length, ∀ e ∈ s.items[i]?, e = sentinel e.src → PointsTo s.nodes e.src i) ∧
      EndsAt s.nodes s.N)
    ⟨fun ⟨h1, h2, h3, h4, h5, h6, h7⟩ => ⟨h1, h2, h3, h4, h5, linked_iff.mpr h6, h7⟩,
      fun h => ⟨h.sized, h.n_pos, h.n_le, h.arranged, h.first, linked_iff.mp h.linked, h.ends⟩⟩

/-- The items of an array of `N` slots, given with their slots. -/
def items_at (N : Nat) (xs : List (Nat × Edge)) : List Edge :=
  (List.range N).map fun i => (xs.lookup i).getD null_edge

end packed_csr
