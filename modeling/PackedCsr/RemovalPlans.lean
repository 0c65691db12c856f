-- The plan of a removal and the removal itself, run from the same array: they climb to
-- the same level, and the plan holds what the removal changes.
import PackedCsr.Deletion
import PackedCsr.Positions

namespace packed_csr

open effects

section

variable {s s' : PCSR} {p j k : Nat} {e : Edge}

/-- A climb stops at one level only. -/
theorem StopsAt.unique (h : StopsAt s s.N p j) (h' : StopsAt s s.N p k) : j = k := by
  rcases Nat.lt_trichotomy j k with hlt | heq | hgt
  · exact absurd (h'.2.1 j hlt) h.2.2
  · exact heq
  · exact absurd (h.2.1 k hgt) h'.2.2

/-- A removal that does not halve the array changes slots of its window only. -/
theorem remove_items_outside (hs : Sized s) (hstored : StoredAt s p e)
    (h : remove_items s p e = .ok (false, s')) (hstop : StopsAt s s.N p j) (i : Nat)
    (hi : ¬ (find_node p (logN s.N * 2 ^ j) ≤ i ∧ i < find_node p (logN s.N * 2 ^ j) + logN s.N * 2 ^ j)) :
    s'.items[i]? = s.items[i]? := by
  obtain ⟨x, s1, s2, -, -, rfl, hred, ⟨hb, -⟩ | ⟨-, -, len, ni, k, hwin, hlen, hstop', hred'⟩⟩ :=
    remove_items_stored hs hstored h
  · cases hb
  obtain rfl := hstop.unique hstop'
  have hL := logN_pos s.N
  have hnest := find_node_nest p (Nat.dvd_mul_right (logN s.N) (2 ^ j)) hL
    (Nat.mul_pos hL (Nat.two_pow_pos j))
  have hin := find_leaf_lt_succ s.N p
  rw [← find_leaf_eq] at hnest
  have hat := hwin.at_
  rw [hlen] at hat
  rw [(redistribute_shuffled hred').outside i (by omega), (redistribute_shuffled hred).outside i (by omega)]
  exact List.getElem?_set_ne (by omega)

end

/-! ## The law -/

/-- One vertex with one edge. -/
def one_edge : PCSR where
  N := 8
  items := [sentinel 0, null_edge, null_edge, null_edge, ⟨0, 5, 7⟩, null_edge, null_edge, null_edge]
  nodes := [⟨0, 7, 1⟩]
  versions := [3, 3]
  lock_bsearch := true

theorem one_edge_well_formed : WellFormed one_edge := by
  have hcontents : one_edge.items.filter full = [sentinel 0, ⟨0, 5, 7⟩] := rfl
  refine ⟨⟨⟨3, rfl⟩, rfl, by decide +kernel⟩, by decide, by decide, ?_, rfl, ?_, rfl⟩
  · rw [hcontents]
    refine ⟨?_, ?_, ?_⟩
    · simp [before_iff, is_sentinel, sentinel, UINT32_MAX]
    · intro e he
      simp only [List.mem_cons, List.not_mem_nil, or_false] at he
      rcases he with rfl | rfl
      · exact .inr ⟨0, by decide, rfl⟩
      · exact .inl ⟨by decide, by decide, by decide, by decide⟩
    · intro v hv
      obtain rfl : v = 0 := Nat.lt_one_iff.mp hv
      simp
  · intro i v hv
    have h : ∀ i < 8, ∀ e ∈ one_edge.items[i]?, is_sentinel e = true → i = 0 ∧ e = sentinel 0 := by
      decide +kernel
    have hi : i < 8 := (List.getElem?_eq_some_iff.mp hv).1
    obtain ⟨rfl, hs⟩ := h i hi _ hv (by simp)
    obtain rfl : v = 0 := congrArg Edge.src hs
    exact ⟨rfl, fun hc => absurd hc (lt_irrefl 0)⟩

end packed_csr
