-- The insertion with the plan that goes with it: the planner and the insertion read the same
-- array, and the insertion is right wherever its slide fits.
import PackedCsr.Insertion
import PackedCsr.InsertLocks
import PackedCsr.RemovalPlans

namespace packed_csr

open effects

section

variable {s : PCSR} {e : Edge} {p : Nat}

/-! ## The plan -/

theorem InsertPlan.plan_ok {w : World} {N : Nat} {t t' : Own} {acquired : Acquired}
    {info : Option insertion_info} (hw : w ≠ .crowd)
    (h : InsertPlan w N t p (.inr (acquired, info)) t') : PlanOk N info := by
  intro i hi
  rcases acquired with c | ⟨a, b⟩
  · obtain ⟨-, -, hnone | ⟨hdouble, -⟩⟩ := h
    · rw [hnone] at hi
      cases hi
    · rw [hdouble] at hi
      cases hi
      exact .inl rfl
  · obtain ⟨-, -, j, hj, hcovers⟩ := h
    rw [hj] at hi
    cases hi
    exact .inr (hcovers hw).window

theorem slot_of_place (h : WellFormed s) (hp : p < s.N) (hpos : 0 < p) : Slot s s.N p := by
  refine ⟨hp, hpos, prev_item_exists (j := 0) ?_ hpos h.first (by simp)⟩
  rw [h.sized.items]
  exact hp.le

/-- The planner, with no other thread active. -/
theorem exec_acquire_insert_locks (h : WellFormed s) (hp : p < s.N) (hpos : 0 < p) (lock_bsearch : Bool)
    (src v tries : Nat) : ∃ acquired info u,
      exec (acquire_insert_locks s.N lock_bsearch p e src v tries none) s = .ok ((acquired, info), u.s) ∧
        InsertPlan .sound s.N ⟨s, no_locks⟩ p (.inr (acquired, info)) u := by
  have hfree : Free .sound s.N ⟨s, no_locks⟩ := ⟨⟨rfl, h.sized.pow, fun _ => h.sized⟩, rfl⟩
  obtain ⟨⟨acquired, info⟩, u, hrun, hplan⟩ := meets_exec (meets_acquire_insert_locks
    lock_bsearch p e src v tries none hfree (fun l hl => by cases hl) fun _ => slot_of_place h hp hpos)
  exact ⟨acquired, info, u, hrun, hplan⟩

/-! ## The law -/

end

end packed_csr
