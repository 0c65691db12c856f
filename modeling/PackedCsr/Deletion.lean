-- The removal of an edge from a well-formed array, behind the search for it.
import PackedCsr.Regions
import PackedCsr.Removals
import PackedCsr.Runs

namespace packed_csr

open effects

section

variable {s : PCSR} {e x : Edge} {p : Nat}

theorem not_stored_of_place (hp : Place s e p ∨ PastEnd s e p)
    (hno : ¬ Stores s e p) : ¬ StoredAt s p e := by
  rintro ⟨y, hy, hnull, -, hdest⟩
  have hf : full y = true := by simp [full, hnull]
  rcases hp with hp | hp
  · rcases hp.at_ y hy hf with hst | ⟨-, hne⟩
    · exact hno hst
    · exact hne hdest
  · obtain ⟨z, hz, -, -, hne⟩ := hp.full
    rw [hy] at hz
    cases hz
    exact hne hdest

/-- The removal at the slot that the search gives, where the vertex has no such edge. -/
theorem exec_remove_none (h : WellFormed s) (hp : Place s e p ∨ PastEnd s e p) (hno : ¬ Stores s e p) :
    exec (remove p e) s = .ok ((), s) := by
  have hlt : p < s.items.length := by
    rw [h.sized.items]
    rcases hp with hp | hp
    · exact hp.lt
    · have := hp.last
      have := h.sized.pow.pos
      omega
  exact exec_remove_absent (List.getElem?_eq_getElem hlt) (not_stored_of_place hp hno)

end

/-! ## The law -/

end packed_csr
