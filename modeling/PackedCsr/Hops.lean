-- Breadth-first labelling over any relation: what the labels and the queue of a search
-- satisfy, round by round, and that an empty queue leaves the shortest distances.
import Mathlib.Logic.Function.Basic
import Mathlib.Data.List.Basic

namespace hops

variable {α : Type}

/-- A path of `k` steps. -/
inductive Path (r : α → α → Prop) : Nat → α → α → Prop
  | refl (u : α) : Path r 0 u u
  | snoc {k : Nat} {u v w : α} (h : Path r k u v) (hr : r v w) : Path r (k + 1) u w

/-- The length of a shortest path. -/
def IsDist (r : α → α → Prop) (u v : α) (d : Nat) : Prop :=
  Path r d u v ∧ ∀ k, Path r k u v → d ≤ k

/-- Labels and queue between two rounds. The queue is ordered by label, and no label is more than
one above that of its head; a labelled vertex that is not queued has labelled neighbours. -/
structure Search (r : α → α → Prop) (start : α) (label : α → Option Nat) (queue : List α) : Prop where
  zero : label start = some 0
  sound : ∀ v k, label v = some k → Path r k start v
  queued : ∀ v ∈ queue, ∃ b, label v = some b
  ordered : queue.Pairwise fun u v => ∀ a b, label u = some a → label v = some b → a ≤ b
  span : ∀ u rest a, queue = u :: rest → label u = some a → ∀ v b, label v = some b → b ≤ a + 1
  closed : ∀ u a, label u = some a → u ∉ queue → ∀ v, r u v → ∃ b, label v = some b ∧ b ≤ a + 1

/-- Labels and queue in the round of `u`, whose label is `a`, behind its neighbours `seen`. -/
structure Round (r : α → α → Prop) (start : α) (label : α → Option Nat) (queue : List α) (u : α) (a : Nat)
    (seen : List α) : Prop where
  zero : label start = some 0
  sound : ∀ v k, label v = some k → Path r k start v
  active : label u = some a
  queued : ∀ v ∈ queue, ∃ b, label v = some b ∧ a ≤ b
  ordered : queue.Pairwise fun u v => ∀ a b, label u = some a → label v = some b → a ≤ b
  span : ∀ v b, label v = some b → b ≤ a + 1
  closed : ∀ x b, label x = some b → x ∉ queue → x ≠ u → ∀ v, r x v → ∃ c, label v = some c ∧ c ≤ b + 1
  seen : ∀ v ∈ seen, ∃ b, label v = some b

section

variable {r : α → α → Prop} {start u v : α} {label : α → Option Nat} {queue seen : List α} {a : Nat}

theorem search_start [DecidableEq α] (r : α → α → Prop) (start : α) :
    Search r start (Function.update (fun _ => none) start (some 0)) [start] := by
  have honly : ∀ v k, Function.update (fun _ => none) start (some 0) v = some k → v = start ∧ k = 0 := by
    intro v k hv
    by_cases hs : v = start
    · rw [hs, Function.update_self] at hv
      cases hv
      exact ⟨hs, rfl⟩
    · rw [Function.update_of_ne hs] at hv
      cases hv
  refine ⟨Function.update_self .., ?_, ?_, List.pairwise_singleton _ _, ?_, ?_⟩
  · intro v k hv
    obtain ⟨rfl, rfl⟩ := honly v k hv
    exact .refl v
  · intro v hv
    rw [List.mem_singleton.mp hv]
    exact ⟨0, Function.update_self ..⟩
  · intro u rest a _ _ v b hb
    have := (honly v b hb).2
    omega
  · intro u a hu hno
    exact absurd (List.mem_singleton.mpr (honly u a hu).1) hno

/-- The head of the queue is taken. -/
theorem Search.pop (h : Search r start label (u :: queue)) :
    ∃ a, label u = some a ∧ Round r start label queue u a [] := by
  obtain ⟨a, ha⟩ := h.queued u (List.mem_cons_self ..)
  obtain ⟨hfirst, hrest⟩ := List.pairwise_cons.mp h.ordered
  refine ⟨a, ha, h.zero, h.sound, ha, ?_, hrest, h.span u queue a rfl ha, ?_, by simp⟩
  · intro v hv
    obtain ⟨b, hb⟩ := h.queued v (List.mem_cons_of_mem _ hv)
    exact ⟨b, hb, hfirst v hv a b ha hb⟩
  · intro x b hb hx hxu
    apply h.closed x b hb
    simp [hx, hxu]

/-- A neighbour that is labelled already. -/
theorem Round.visit_old (h : Round r start label queue u a seen) {b : Nat} (hv : label v = some b) :
    Round r start label queue u a (v :: seen) := by
  refine ⟨h.zero, h.sound, h.active, h.queued, h.ordered, h.span, h.closed, ?_⟩
  intro w hw
  rcases List.mem_cons.mp hw with rfl | hw
  · exact ⟨b, hv⟩
  · exact h.seen w hw

/-- A neighbour that has no label yet gets one and is queued. -/
theorem Round.visit_new [DecidableEq α] (h : Round r start label queue u a seen) (hr : r u v)
    (hv : label v = none) :
    Round r start (Function.update label v (some (a + 1))) (queue ++ [v]) u a (v :: seen) := by
  have hold : ∀ w b, label w = some b → Function.update label v (some (a + 1)) w = some b := by
    intro w b hb
    rw [Function.update_of_ne]
    · exact hb
    · rintro rfl
      rw [hv] at hb
      cases hb
  have hcases : ∀ w b, Function.update label v (some (a + 1)) w = some b →
      (w = v ∧ b = a + 1) ∨ label w = some b := by
    intro w b hb
    by_cases hw : w = v
    · rw [hw, Function.update_self] at hb
      cases hb
      exact .inl ⟨hw, rfl⟩
    · rw [Function.update_of_ne hw] at hb
      exact .inr hb
  have hspan : ∀ w b, Function.update label v (some (a + 1)) w = some b → b ≤ a + 1 := by
    intro w b hb
    rcases hcases w b hb with ⟨-, rfl⟩ | hb
    · exact Nat.le_refl _
    · exact h.span w b hb
  refine ⟨hold _ _ h.zero, ?_, hold _ _ h.active, ?_, ?_, hspan, ?_, ?_⟩
  · intro w k hk
    rcases hcases w k hk with ⟨rfl, rfl⟩ | hk
    · exact (h.sound u a h.active).snoc hr
    · exact h.sound w k hk
  · intro w hw
    rcases List.mem_append.mp hw with hw | hw
    · obtain ⟨b, hb, hab⟩ := h.queued w hw
      exact ⟨b, hold w b hb, hab⟩
    · rw [List.mem_singleton.mp hw]
      exact ⟨a + 1, Function.update_self .., Nat.le_succ a⟩
  · -- the new label is the largest
    rw [List.pairwise_append]
    refine ⟨?_, List.pairwise_singleton _ _, ?_⟩
    · apply List.Pairwise.imp_of_mem _ h.ordered
      intro x y hx hy hxy b c hb hc
      obtain ⟨b', hb', -⟩ := h.queued x hx
      obtain ⟨c', hc', -⟩ := h.queued y hy
      rw [hold x b' hb'] at hb
      rw [hold y c' hc'] at hc
      cases hb
      cases hc
      exact hxy _ _ hb' hc'
    · intro x _ y hy b c hb hc
      rw [List.mem_singleton.mp hy, Function.update_self] at hc
      cases hc
      exact hspan x b hb
  · intro x b hb hx hxu w hw
    rw [List.mem_append, not_or, List.mem_singleton] at hx
    rcases hcases x b hb with ⟨hxv, -⟩ | hb
    · exact absurd hxv hx.2
    · obtain ⟨c, hc, hle⟩ := h.closed x b hb hx.1 hxu w hw
      exact ⟨c, hold w c hc, hle⟩
  · intro w hw
    rcases List.mem_cons.mp hw with rfl | hw
    · exact ⟨a + 1, Function.update_self ..⟩
    · obtain ⟨b, hb⟩ := h.seen w hw
      exact ⟨b, hold w b hb⟩

/-- The round ends when all neighbours are seen. -/
theorem Round.close (h : Round r start label queue u a seen) (hall : ∀ v, r u v → v ∈ seen) :
    Search r start label queue := by
  refine ⟨h.zero, h.sound, ?_, h.ordered, ?_, ?_⟩
  · intro v hv
    obtain ⟨b, hb, -⟩ := h.queued v hv
    exact ⟨b, hb⟩
  · intro x rest b hq hb v c hc
    obtain ⟨b', hb', hab⟩ := h.queued x (by rw [hq]; exact List.mem_cons_self ..)
    rw [hb] at hb'
    cases hb'
    have := h.span v c hc
    omega
  · intro x b hb hx v hr
    by_cases hxu : x = u
    · subst hxu
      obtain ⟨c, hc⟩ := h.seen v (hall v hr)
      rw [h.active] at hb
      cases hb
      exact ⟨c, hc, h.span v c hc⟩
    · exact h.closed x b hb hx hxu v hr

/-- With an empty queue, the end of each path is labelled, and not above the length of the path. -/
theorem Search.complete (h : Search r start label []) {k : Nat} (hp : Path r k start v) :
    ∃ b, label v = some b ∧ b ≤ k := by
  generalize hs : start = s at hp
  induction hp with
  | refl u =>
    subst hs
    exact ⟨0, h.zero, Nat.le_refl 0⟩
  | snoc hp hr ih =>
    obtain ⟨b, hb, hle⟩ := ih hs
    obtain ⟨c, hc, hcb⟩ := h.closed _ b hb (by simp) _ hr
    exact ⟨c, hc, by omega⟩

/-- With an empty queue, the labels are the distances. -/
theorem Search.exact (h : Search r start label []) {d : Nat} (hv : label v = some d) :
    IsDist r start v d := by
  refine ⟨h.sound v d hv, fun k hp => ?_⟩
  obtain ⟨b, hb, hle⟩ := h.complete hp
  rw [hv] at hb
  cases hb
  exact hle

end

end hops
