-- What a run alone does not see: the locks; and what no function that moves items looks at:
-- the counters of neighbours and the versions.
import PackedCsr.InsertPlans
import PackedCsr.LockCalls
import PackedCsr.Tallies

namespace packed_csr

open effects

section

variable {s s' : PCSR} {e : Edge}

/-! ## A run alone does not see the locks -/

theorem exec_global (c : GlobalCall) : exec (global c) s = .ok ((), s) := rfl

theorem exec_test (t : Test) (b : Bool) : exec (test t b) s = .ok (b, s) := rfl

theorem exec_leaf (c : LeafCall) {i : Nat} (h : i < s.versions.length) :
    exec (leaf c i) s = .ok ((), s) := by
  simp [exec, leaf, Prog.perform, Prog.run, alone, h]

theorem exec_leaf_loop (c : LeafCall) (a n : Nat) (h : a + n ≤ s.versions.length) :
    exec (leaf_loop c a n) s = .ok ((), s) := by
  induction n generalizing a with
  | zero => rfl
  | succ n ih =>
    unfold leaf_loop
    rw [exec_bind_ok (exec_leaf c (by omega))]
    exact ih (a + 1) (by omega)

theorem exec_leaf_range (c : LeafCall) {a b : Nat} (h : a ≤ b → b < s.versions.length) :
    exec (leaf_range c a b) s = .ok ((), s) := by
  unfold leaf_range
  by_cases hab : a ≤ b
  · exact exec_leaf_loop c a _ (by have := h hab; omega)
  · rw [show b + 1 - a = 0 by omega]
    rfl

theorem exec_bind_congr {α β : Type} {p : Op α} {f g : α → Op β}
    (h : ∀ a s', exec p s = .ok (a, s') → exec (f a) s' = exec (g a) s') :
    exec (p >>= f) s = exec (p >>= g) s := by
  cases hp : exec p s with
  | error e => rw [exec_bind_error hp, exec_bind_error hp]
  | ok r => rw [exec_bind_ok hp, exec_bind_ok hp, h r.1 r.2 hp]

theorem exec_look_congr {α β : Type} {r : PCSR → Res α} {f g : α → Op β}
    (h : ∀ a, exec (f a) s = exec (g a) s) : exec (look r >>= f) s = exec (look r >>= g) s := by
  cases hr : r s with
  | error e => rw [exec_look_error hr, exec_look_error hr]
  | ok a => rw [exec_look_bind hr, exec_look_bind hr, h a]

/-- The search does not depend on whether it releases the locks of its range. -/
theorem exec_search_unlock (N : Nat) (elem : Edge) {start end_ : Nat}
    (h : start / logN N ≤ end_ / logN N → end_ / logN N < s.versions.length) :
    exec (binary_search N elem start end_ true) s =
      exec (binary_search N elem start end_ false) s := by
  have hunlock : ∀ r : Nat × Nat, exec (do
        nodes_unlock_shared true (start / logN N) (end_ / logN N)
        pure r) s = exec (do
        nodes_unlock_shared false (start / logN N) (end_ / logN N)
        pure r) s := by
    intro r
    exact exec_bind_ok (exec_leaf_range .unlock_shared h)
  unfold binary_search
  simp only [get_node_id_find_leaf]
  apply exec_bind_congr
  intro r s1 hr
  rw [exec_reads (only_reads_search_loop _ _ _ _ _) hr]
  rcases r with found | ⟨a, b⟩
  · exact hunlock found
  · apply exec_look_congr
    intro v
    apply exec_look_congr
    intro item
    split
    · exact hunlock _
    · apply exec_look_congr
      intro v'
      exact hunlock _

/-! ## States that differ in counters and versions -/

/-- The regions of the vertices. -/
def regions (s : PCSR) : List (Nat × Nat) := s.nodes.map fun n => (n.beginning, n.end_)

/-- Only counters of neighbours and versions differ. -/
structure Alike (s s' : PCSR) : Prop where
  N : s'.N = s.N
  items : s'.items = s.items
  regions : packed_csr.regions s' = packed_csr.regions s
  versions : s'.versions.length = s.versions.length
  lock_bsearch : s'.lock_bsearch = s.lock_bsearch

theorem Alike.refl (s : PCSR) : Alike s s := ⟨rfl, rfl, rfl, rfl, rfl⟩

theorem Alike.get_n (h : Alike s s') : s'.get_n = s.get_n := by
  have hlen := congrArg List.length h.regions
  simpa [packed_csr.regions, PCSR.get_n] using hlen

theorem Alike.beginning (h : Alike s s') (v : Nat) :
    s'.nodes[v]?.map Node.beginning = s.nodes[v]?.map Node.beginning := by
  have hv := congrArg (fun l : List (Nat × Nat) => l[v]?.map Prod.fst) h.regions
  simpa [packed_csr.regions, Option.map_map, Function.comp_def] using hv

theorem Alike.ending (h : Alike s s') (v : Nat) :
    s'.nodes[v]?.map Node.end_ = s.nodes[v]?.map Node.end_ := by
  have hv := congrArg (fun l : List (Nat × Nat) => l[v]?.map Prod.snd) h.regions
  simpa [packed_csr.regions, Option.map_map, Function.comp_def] using hv

theorem Alike.gap {i : Nat} (h : Alike s s') : IsGap s' i ↔ IsGap s i := by
  unfold IsGap
  rw [h.items]

theorem Alike.well_formed (h : Alike s s') (hw : WellFormed s) : WellFormed s' := by
  have hn := h.get_n
  refine ⟨hw.sized.of_eq h.N h.items h.versions, ?_, ?_, ?_, ?_, ?_, ?_⟩
  · rw [hn]
    exact hw.n_pos
  · rw [hn]
    exact hw.n_le
  · rw [hn, h.items]
    exact hw.arranged
  · rw [h.items]
    exact hw.first
  · intro i v hv
    rw [h.items] at hv
    obtain ⟨hbegin, hend⟩ := hw.linked i v hv
    refine ⟨(h.beginning v).trans hbegin, fun hpos => (h.ending (v - 1)).trans (hend hpos)⟩
  · unfold EndsAt
    rw [show s'.nodes.length = s.nodes.length from hn, h.ending, h.N]
    exact hw.ends

theorem Alike.end_full (h : Alike s s') (hend : EndFull s) : EndFull s' := by
  intro hgap
  rw [h.gap, h.N] at hgap ⊢
  exact hend hgap

theorem Alike.stores {p : Nat} (h : Alike s s') : Stores s' e p ↔ Stores s e p := by
  unfold Stores
  rw [h.items]

theorem Alike.place {p : Nat} (h : Alike s s') (hp : Place s e p) : Place s' e p := by
  refine ⟨?_, hp.pos, ?_, ?_, ?_⟩
  · rw [h.N]
    exact hp.lt
  · rw [h.items]
    exact hp.before
  · rw [h.items, h.stores]
    exact hp.at_
  · rw [h.items]
    exact hp.after

theorem Alike.past_end {p : Nat} (h : Alike s s') (hp : PastEnd s e p) : PastEnd s' e p := by
  refine ⟨?_, ?_⟩
  · rw [h.N]
    exact hp.last
  · rw [h.items]
    exact hp.full

theorem alike_with_counts (c : Nat → Nat) (s : PCSR) : Alike s (with_counts c s) := by
  refine ⟨rfl, rfl, ?_, rfl, rfl⟩
  apply List.ext_getElem?
  intro v
  unfold regions with_counts
  rw [List.getElem?_map, List.getElem?_map, List.getElem?_mapIdx]
  cases s.nodes[v]? <;> rfl

theorem alike_versions {versions : List Nat} (h : versions.length = s.versions.length) :
    Alike s { s with versions } := ⟨rfl, rfl, rfl, h, rfl⟩

/-! ## Counting -/

/-- A counter is in the table. Nothing else changes with it. -/
theorem count_exists {v : Nat} (f : Nat → Nat) (hv : v < s.get_n) : ∃ c,
    s.count_neighbors v f = .ok (with_counts c s) ∧
      tallies (with_counts c s) = (tallies s).modify v f := by
  obtain ⟨s1, hs1⟩ : ∃ s1, s.count_neighbors v f = .ok s1 := ⟨_, if_pos hv⟩
  obtain ⟨c, rfl⟩ := count_with_counts hs1
  refine ⟨c, hs1, ?_⟩
  obtain ⟨-, heq⟩ := count_neighbors_ok hs1
  rw [heq]
  apply List.ext_getElem?
  intro i
  unfold tallies
  rw [List.getElem?_map, List.getElem?_modify, List.getElem?_modify, List.getElem?_map]
  cases s.nodes[i]? with
  | none => rfl
  | some n => by_cases hi : v = i <;> simp [hi]

/-- The counters are values of their type. -/
def Counted (s : PCSR) : Prop := ∀ x ∈ tallies s, x < 4294967296

theorem decr32_incr32 {x : Nat} (hx : x < 4294967296) : decr32 (incr32 x) = x := by
  unfold decr32 incr32
  omega

theorem incr32_decr32 {x : Nat} (hx : x < 4294967296) : incr32 (decr32 x) = x := by
  unfold decr32 incr32
  omega

theorem Counted.modify {v : Nat} {f : Nat → Nat} (h : Counted s) (hf : ∀ x, f x < 4294967296)
    (ht : tallies s' = (tallies s).modify v f) : Counted s' := by
  intro x hx
  rw [ht] at hx
  obtain ⟨i, hi, rfl⟩ := List.getElem_of_mem hx
  rw [List.getElem_modify]
  split
  · exact hf _
  · exact h _ (List.getElem_mem _)

/-- A counter that is put back is as it was. -/
theorem count_back {v : Nat} {f g : Nat → Nat} (hv : v < s.get_n) (hc : Counted s)
    (hfg : ∀ x < 4294967296, g (f x) = x) : ∃ c,
    s.count_neighbors v f = .ok (with_counts c s) ∧
      tallies (with_counts c s) = (tallies s).modify v f ∧
      (with_counts c s).count_neighbors v g = .ok s := by
  obtain ⟨c, hcount, htally⟩ := count_exists f hv
  refine ⟨c, hcount, htally, ?_⟩
  obtain ⟨-, heq⟩ := count_neighbors_ok hcount
  unfold PCSR.count_neighbors
  rw [heq, if_pos (by simpa [PCSR.get_n] using hv)]
  congr 1
  have hnodes : ((s.nodes.modify v fun n => { n with num_neighbors := f n.num_neighbors }).modify v
      fun n => { n with num_neighbors := g n.num_neighbors }) = s.nodes := by
    apply List.ext_getElem?
    intro i
    rw [List.getElem?_modify, List.getElem?_modify]
    cases hn : s.nodes[i]? with
    | none => rfl
    | some n =>
      have hx := hfg n.num_neighbors (hc _ (List.mem_map_of_mem (List.mem_of_getElem? hn)))
      by_cases hi : v = i
      · simp [hi, hx]
      · simp [hi]
  show ({ s with nodes := _ } : PCSR) = s
  rw [hnodes]

end

end packed_csr
