-- Programs as trees of instructions. A program runs on a state, or it is
-- held against a rule that says what each instruction asks for and what
-- it can do. Nothing here names a data structure: the instructions, the
-- states and the rules are parameters.
import Mathlib

namespace effects

/-- A program over the instructions `I`: it ends with a value, or it performs
one instruction and goes on with the answer. -/
inductive Prog (I : Type → Type 1) (α : Type) : Type 1
  | ret (a : α) : Prog I α
  | op {β : Type} (i : I β) (k : β → Prog I α) : Prog I α

namespace Prog

variable {I : Type → Type 1} {α β γ : Type}

def bind : Prog I α → (α → Prog I β) → Prog I β
  | ret a, f => f a
  | op i k, f => op i (fun b => bind (k b) f)

instance : Monad (Prog I) where
  pure := ret
  bind := bind

/-- The program that performs one instruction. -/
def perform (i : I β) : Prog I β := op i ret

@[simp] theorem pure_eq (a : α) : (pure a : Prog I α) = ret a := rfl

@[simp] theorem ret_bind (a : α) (f : α → Prog I β) : ret a >>= f = f a := rfl

@[simp] theorem op_bind {δ : Type} (i : I δ) (k : δ → Prog I α) (f : α → Prog I β) :
    op i k >>= f = op i (fun b => k b >>= f) := rfl

@[simp] theorem perform_bind (i : I β) (f : β → Prog I α) : perform i >>= f = op i f := rfl

/-! ## Runs on a state -/

variable {ε σ : Type}

/-- The run of a program on a state, with a handler for the instructions.
An instruction that fails stops the run. -/
def run (h : ∀ {β : Type}, I β → σ → Except ε (β × σ)) : Prog I α → σ → Except ε (α × σ)
  | ret a, s => .ok (a, s)
  | op i k, s =>
    match h i s with
    | .ok (b, s') => run h (k b) s'
    | .error e => .error e

variable (h : ∀ {β : Type}, I β → σ → Except ε (β × σ))

@[simp] theorem run_ret (a : α) (s : σ) : run h (ret a : Prog I α) s = .ok (a, s) := rfl

theorem run_op_ok {i : I β} {k : β → Prog I α} {s s' : σ} {b : β} (hi : h i s = .ok (b, s')) :
    run h (op i k) s = run h (k b) s' := by
  simp only [run, hi]

theorem run_op_error {i : I β} {k : β → Prog I α} {s : σ} {e : ε} (hi : h i s = .error e) :
    run h (op i k) s = .error e := by
  simp only [run, hi]

theorem run_bind_ok {p : Prog I α} {f : α → Prog I β} {s s' : σ} {a : α}
    (hp : run h p s = .ok (a, s')) : run h (p >>= f) s = run h (f a) s' := by
  induction p generalizing s with
  | ret b =>
    simp only [run_ret, Except.ok.injEq, Prod.mk.injEq] at hp
    obtain ⟨rfl, rfl⟩ := hp
    rfl
  | op i k ih =>
    rcases hi : h i s with e | ⟨b, t⟩
    · rw [run_op_error h hi] at hp
      cases hp
    · rw [run_op_ok h hi] at hp
      rw [op_bind, run_op_ok h hi]
      exact ih b hp

theorem run_bind_error {p : Prog I α} {f : α → Prog I β} {s : σ} {e : ε}
    (hp : run h p s = .error e) : run h (p >>= f) s = .error e := by
  induction p generalizing s with
  | ret b => cases hp
  | op i k ih =>
    rcases hi : h i s with e' | ⟨b, t⟩
    · rw [run_op_error h hi] at hp
      cases hp
      rw [op_bind, run_op_error h hi]
    · rw [run_op_ok h hi] at hp
      rw [op_bind, run_op_ok h hi]
      exact ih b hp

/-! ## Rules

A rule says, for each instruction and state, what the instruction asks of
the state before it, and which answers and next states it can give. -/

variable {τ : Type}

structure Rule (I : Type → Type 1) (τ : Type) where
  ask : ∀ {β : Type}, I β → τ → Prop
  can : ∀ {β : Type}, I β → τ → β → τ → Prop

/-- The program keeps the rule from state `t`, whatever the answers are, and
where it ends, `Q` holds. -/
def Meets (R : Rule I τ) : Prog I α → (α → τ → Prop) → τ → Prop
  | ret a, Q, t => Q a t
  | op i k, Q, t => R.ask i t ∧ ∀ b t', R.can i t b t' → Meets R (k b) Q t'

variable {R : Rule I τ}

@[simp] theorem meets_ret (a : α) (Q : α → τ → Prop) (t : τ) :
    Meets R (ret a) Q t ↔ Q a t := Iff.rfl

theorem meets_op (i : I β) (k : β → Prog I α) (Q : α → τ → Prop) (t : τ) :
    Meets R (op i k) Q t ↔ R.ask i t ∧ ∀ b t', R.can i t b t' → Meets R (k b) Q t' := Iff.rfl

theorem meets_mono {p : Prog I α} {P Q : α → τ → Prop} {t : τ} (hp : Meets R p P t)
    (hPQ : ∀ a t', P a t' → Q a t') : Meets R p Q t := by
  induction p generalizing t with
  | ret a => exact hPQ a t hp
  | op i k ih => exact ⟨hp.1, fun b t' hb => ih b (hp.2 b t' hb)⟩

/-- A rule that asks less and allows less is kept as well. -/
theorem meets_rule {R' : Rule I τ} {p : Prog I α} {Q : α → τ → Prop} {t : τ} (hp : Meets R p Q t)
    (hask : ∀ {β : Type} (i : I β) u, R.ask i u → R'.ask i u)
    (hcan : ∀ {β : Type} (i : I β) u b u', R'.can i u b u' → R.can i u b u') : Meets R' p Q t := by
  induction p generalizing t with
  | ret a => exact hp
  | op i k ih => exact ⟨hask i t hp.1, fun b t' hc => ih b (hp.2 b t' (hcan i t b t' hc))⟩

theorem meets_bind {p : Prog I α} {f : α → Prog I β} {Q : β → τ → Prop} {t : τ} :
    Meets R (p >>= f) Q t ↔ Meets R p (fun a t' => Meets R (f a) Q t') t := by
  induction p generalizing t with
  | ret a => rfl
  | op i k ih =>
    simp only [op_bind, meets_op]
    constructor
    · rintro ⟨hi, hk⟩
      exact ⟨hi, fun b t' hb => (ih b).mp (hk b t' hb)⟩
    · rintro ⟨hi, hk⟩
      exact ⟨hi, fun b t' hb => (ih b).mpr (hk b t' hb)⟩

/-- The sequence rule, in the form that proofs use. -/
theorem meets_seq {p : Prog I α} {f : α → Prog I β} {P : α → τ → Prop} {Q : β → τ → Prop} {t : τ}
    (hp : Meets R p P t) (hf : ∀ a t', P a t' → Meets R (f a) Q t') : Meets R (p >>= f) Q t :=
  meets_bind.mpr (meets_mono hp hf)

/-! ## Programs of one kind of instruction -/

/-- Each instruction that the program can perform is one of `K`. -/
def Only (K : ∀ {β : Type}, I β → Prop) : Prog I α → Prop
  | ret _ => True
  | op i k => K i ∧ ∀ b, Only K (k b)

variable {K : ∀ {β : Type}, I β → Prop}

theorem only_bind {p : Prog I α} {f : α → Prog I β} (hp : Only K p) (hf : ∀ a, Only K (f a)) :
    Only K (p >>= f) := by
  induction p with
  | ret a => exact hf a
  | op i k ih => exact ⟨hp.1, fun b => ih b (hp.2 b)⟩

/-- Each value with which the program can end is one of `P`. -/
def Every (P : α → Prop) : Prog I α → Prop
  | ret a => P a
  | op _ k => ∀ b, Every P (k b)

theorem every_bind {P : β → Prop} {p : Prog I α} {f : α → Prog I β} (hf : ∀ a, Every P (f a)) :
    Every P (p >>= f) := by
  induction p with
  | ret a => exact hf a
  | op i k ih => exact ih

theorem every_run {P : α → Prop} {p : Prog I α} (hp : Every P p) {s s' : σ} {a : α}
    (hrun : run h p s = .ok (a, s')) : P a := by
  induction p generalizing s with
  | ret b =>
    cases hrun
    exact hp
  | op i k ih =>
    rcases hi : h i s with e | ⟨b, t⟩
    · rw [run_op_error h hi] at hrun
      cases hrun
    · rw [run_op_ok h hi] at hrun
      exact ih b (hp b) hrun

/-! ## Executions under a rule -/

/-- One instruction of a program, under a rule. -/
inductive Step (R : Rule I τ) : Prog I α → τ → Prog I α → τ → Prop
  | op {δ : Type} {i : I δ} {k : δ → Prog I α} {t t' : τ} {b : δ} (hc : R.can i t b t') :
      Step R (op i k) t (k b) t'

/-- The first instructions of an execution: from `p` in `t` to what is left of it. -/
inductive Steps (R : Rule I τ) : Prog I α → τ → Prog I α → τ → Prop
  | refl (p : Prog I α) (t : τ) : Steps R p t p t
  | tail {p q r : Prog I α} {t u v : τ} : Steps R p t q u → Step R q u r v → Steps R p t r v

theorem meets_step {p q : Prog I α} {t u : τ} {Q : α → τ → Prop} (hp : Meets R p Q t)
    (hs : Step R p t q u) : Meets R q Q u := by
  cases hs with
  | op hc => exact hp.2 _ _ hc

/-- A program that keeps a rule keeps it all along each of its executions. -/
theorem meets_steps {p q : Prog I α} {t u : τ} {Q : α → τ → Prop} (hp : Meets R p Q t)
    (hs : Steps R p t q u) : Meets R q Q u := by
  induction hs with
  | refl => exact hp
  | tail _ hstep ih => exact meets_step (ih hp) hstep

theorem Steps.head {p q r : Prog I α} {t u v : τ} (h1 : Step R p t q u) (h2 : Steps R q u r v) :
    Steps R p t r v := by
  induction h2 with
  | refl => exact .tail (.refl _ _) h1
  | tail _ hs ih => exact .tail (ih h1) hs

/-- What a program asks next, and where it ends, what `Q` says. -/
def Next (R : Rule I τ) (Q : α → τ → Prop) : Prog I α → τ → Prop
  | ret a, t => Q a t
  | op i _, t => R.ask i t

theorem meets_next {p : Prog I α} {t : τ} {Q : α → τ → Prop} (hp : Meets R p Q t) :
    Next R Q p t := by
  cases p with
  | ret a => exact hp
  | op i k => exact hp.1

/-- The rule is kept at each point of each execution exactly when the program meets it. -/
theorem meets_iff_next {p : Prog I α} {t : τ} {Q : α → τ → Prop} :
    Meets R p Q t ↔ ∀ q u, Steps R p t q u → Next R Q q u := by
  constructor
  · intro hp q u hs
    exact meets_next (meets_steps hp hs)
  · intro hn
    induction p generalizing t with
    | ret a => exact hn _ _ (.refl _ _)
    | op i k ih =>
      refine ⟨hn _ _ (.refl _ _), fun b t' hc => ih b fun q u hs => ?_⟩
      exact hn q u (Steps.head (.op hc) hs)

end Prog

end effects
