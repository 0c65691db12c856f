-- Runs of a system whose steps carry labels: what its steps keep, and what the labels do to
-- another system that follows it.

namespace traces

section

variable {α β ℓ : Type}

/-- The states that steps reach from `a`, each with the labels of the steps in their order. -/
inductive Run (step : α → ℓ → α → Prop) (a : α) : List ℓ → α → Prop
  | start : Run step a [] a
  | step {ls : List ℓ} {b c : α} {l : ℓ} (h : Run step a ls b) (hs : step b l c) :
    Run step a (ls ++ [l]) c

/-- What labels do, one after the other. -/
def follow (apply : ℓ → β → β) (ls : List ℓ) (x : β) : β := ls.foldl (fun x l => apply l x) x

variable {step : α → ℓ → α → Prop} {apply : ℓ → β → β} {a b : α} {x : β} {ls : List ℓ}

@[simp] theorem follow_nil : follow apply [] x = x := rfl

@[simp] theorem follow_append (ls ls' : List ℓ) :
    follow apply (ls ++ ls') x = follow apply ls' (follow apply ls x) := List.foldl_append

@[simp] theorem follow_singleton (l : ℓ) : follow apply [l] x = apply l x := rfl

/-- The rule of simulation: where each step keeps the relation, with what its label does on the other
side, a run keeps it. -/
theorem Run.simulates {R : α → β → Prop} (hstep : ∀ b l c x, R b x → step b l c → R c (apply l x))
    (ha : R a x) (h : Run step a ls b) : R b (follow apply ls x) := by
  induction h with
  | start => exact ha
  | step _ hs ih =>
    rw [follow_append]
    exact hstep _ _ _ _ ih hs

/-- The rule of invariants. -/
theorem Run.keeps {I : α → Prop} (hstep : ∀ b l c, I b → step b l c → I c) (ha : I a)
    (h : Run step a ls b) : I b := by
  induction h with
  | start => exact ha
  | step _ hs ih => exact hstep _ _ _ ih hs

end

end traces
