-- Runs to an array whose last slot is full. There a lone removal need not end.
import PackedCsr.Halvings
import PackedCsr.Checks

namespace packed_csr

open effects

/-! ## Runs of given calls -/

/-- A call on a graph of `n` vertices, with one level of recursion. -/
def Call.run (n : Nat) (s : PCSR) (c : Call) : Option PCSR :=
  if s.get_n = n then (exec (c.prog 1) s).toOption.map Prod.snd else none

instance decidableValid (n : Nat) (c : Call) : Decidable (c.Valid n) :=
  match c with
  | .add_edge src dest value =>
    inferInstanceAs (Decidable (src < n ∧ dest < UINT32_MAX ∧ 0 < value ∧ value < UINT32_MAX))
  | .remove_edge src dest => inferInstanceAs (Decidable (src < n ∧ dest < UINT32_MAX))

theorem Call.run_returns {n : Nat} {s s' : PCSR} {c : Call} (h : c.run n s = some s') :
    s.get_n = n ∧ Returns s c s' := by
  unfold Call.run at h
  split at h
  · refine ⟨‹_›, 1, ?_⟩
    cases hrun : exec (c.prog 1) s with
    | error f =>
      rw [hrun] at h
      cases h
    | ok r =>
      obtain ⟨_, s1⟩ := r
      rw [hrun] at h
      cases h
      rfl
  · cases h

theorem Reaches.runs {n : Nat} {lock_bsearch : Bool} {s s' : PCSR} {cs : List Call}
    (h : Reaches n lock_bsearch (fun s _ => s.get_n = n) s) (hvalid : ∀ c ∈ cs, c.Valid n)
    (hrun : cs.foldlM (Call.run n) s = some s') : Reaches n lock_bsearch (fun s _ => s.get_n = n) s' := by
  induction cs generalizing s with
  | nil =>
    cases hrun
    exact h
  | cons c cs ih =>
    rw [List.foldlM_cons] at hrun
    obtain ⟨s1, hs1, hrun⟩ := Option.bind_eq_some_iff.mp hrun
    obtain ⟨hn, hr⟩ := Call.run_returns hs1
    apply ih (h.call c (hvalid c List.mem_cons_self) hn hr) _ hrun
    intro c' hc'
    exact hvalid c' (List.mem_cons_of_mem c hc')

/-! ## An array with a full last slot -/

/-- Sentinels alone, 8 slots apart. -/
theorem bare_eight_reached : Reaches 4 true (fun s _ => s.get_n = 4) (bare_pcsr 3 8) := by
  have hN : init_size (3 + 1) = (3 + 1) * (8 * 2 ^ 6) := by decide +kernel
  exact bare_pcsr_reached ⟨3, rfl⟩ (by decide) hN (by decide +kernel) (by decide +kernel)

/-- Each leaf to the left of the last one is full where the search stops, and slides an item into the
next leaf. -/
def crowding : List Call :=
  [.add_edge 0 12 1, .add_edge 0 11 1, .add_edge 0 10 1, .add_edge 0 6 1, .add_edge 0 4 1,
    .add_edge 0 3 1, .add_edge 1 7 1, .add_edge 0 2 1, .add_edge 1 6 1, .add_edge 1 5 1,
    .add_edge 1 2 1, .add_edge 2 10 1, .add_edge 2 9 1, .add_edge 2 8 1, .add_edge 2 7 1,
    .add_edge 2 6 1, .add_edge 0 1 1, .add_edge 1 4 1, .add_edge 2 5 1, .remove_edge 2 7,
    .remove_edge 2 8, .add_edge 2 2 1, .add_edge 2 4 1, .add_edge 2 3 1, .add_edge 2 1 1]

def crowded_pcsr : PCSR where
  N := 32
  items := items_at 32 [(0, sentinel 0), (1, ⟨0, 1, 1⟩), (3, ⟨0, 2, 1⟩), (4, ⟨0, 3, 1⟩), (6, ⟨0, 4, 1⟩),
    (7, ⟨0, 6, 1⟩), (9, ⟨0, 10, 1⟩), (10, ⟨0, 11, 1⟩), (12, ⟨0, 12, 1⟩), (13, sentinel 1), (15, ⟨1, 2, 1⟩),
    (16, ⟨1, 4, 1⟩), (17, ⟨1, 5, 1⟩), (18, ⟨1, 6, 1⟩), (20, ⟨1, 7, 1⟩), (21, sentinel 2), (22, ⟨2, 1, 1⟩),
    (24, ⟨2, 2, 1⟩), (25, ⟨2, 3, 1⟩), (26, ⟨2, 4, 1⟩), (27, ⟨2, 5, 1⟩), (28, ⟨2, 6, 1⟩), (29, ⟨2, 9, 1⟩),
    (30, ⟨2, 10, 1⟩), (31, sentinel 3)]
  nodes := [⟨0, 13, 8⟩, ⟨13, 21, 5⟩, ⟨21, 31, 8⟩, ⟨31, 31, 0⟩]
  versions := [9, 6, 10, 7]
  lock_bsearch := true

theorem crowded_pcsr_reached : Reaches 4 true (fun s _ => s.get_n = 4) crowded_pcsr :=
  bare_eight_reached.runs (by decide : ∀ c ∈ crowding, c.Valid 4) (by decide +kernel)

theorem crowded_pcsr_good : Good crowded_pcsr := by
  refine ⟨by decide +kernel, ?_, (by decide : ∀ x ∈ tallies crowded_pcsr, x < 4294967296), by decide⟩
  intro hgap
  have hitem : crowded_pcsr.items[30]? = some ⟨2, 10, 1⟩ := by decide +kernel
  exact not_gap hgap hitem rfl

/-! ## A lone removal -/

end packed_csr
