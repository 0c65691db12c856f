-- The functions on items neither read nor write the counters of neighbours:
-- other counters in, the same run with these counters out.
import PackedCsr.Frames

namespace packed_csr

section

variable {c : Nat → Nat} {s s' : PCSR}

@[simp] theorem with_counts_N : (with_counts c s).N = s.N := rfl

@[simp] theorem with_counts_items : (with_counts c s).items = s.items := rfl

@[simp] theorem with_counts_versions : (with_counts c s).versions = s.versions := rfl

@[simp] theorem with_counts_length : (with_counts c s).nodes.length = s.nodes.length := by
  simp [with_counts]

theorem map_with_counts_ok {α : Type} {r : Res α} {f : α → Res PCSR} :
    (r >>= f).map (with_counts c) = r >>= fun a => (f a).map (with_counts c) := by
  cases r <;> rfl

/-- A state is the state with its own counters. -/
theorem with_own_counts (s : PCSR) :
    with_counts (fun i => (s.nodes[i]?.map Node.num_neighbors).getD 0) s = s := by
  unfold with_counts
  congr 1
  refine List.ext_getElem? fun i => ?_
  rw [List.getElem?_mapIdx]
  cases hn : s.nodes[i]? with
  | none => rfl
  | some n => simp [hn]

theorem put_counts (i : Nat) (e : Edge) :
    (with_counts c s).put i e = (s.put i e).map (with_counts c) := by
  unfold PCSR.put
  rw [with_counts_items]
  split <;> rfl

theorem item_counts (i : Nat) : (with_counts c s).item i = s.item i := rfl

/-- A change of the regions and a change of the counters commute. -/
theorem mapIdx_modify (nodes : List Node) (v : Nat) (f : Node → Node)
    (hf : ∀ n k, f { n with num_neighbors := k } = { f n with num_neighbors := k }) :
    (nodes.mapIdx fun i n => { n with num_neighbors := c i }).modify v f =
      (nodes.modify v f).mapIdx fun i n => { n with num_neighbors := c i } := by
  refine List.ext_getElem? fun i => ?_
  rw [List.getElem?_modify, List.getElem?_mapIdx, List.getElem?_mapIdx, List.getElem?_modify]
  cases nodes[i]? with
  | none => rfl
  | some n =>
    simp only [Option.map_some, Option.map_eq_map]
    split
    · rw [hf]
    · rfl

theorem point_to_counts (nodes : List Node) (N v slot : Nat) (first : Bool) :
    point_to (nodes.mapIdx fun i n => { n with num_neighbors := c i }) N v slot first =
      (point_to nodes N v slot first).mapIdx fun i n => { n with num_neighbors := c i } := by
  have hend : ∀ (l : List Node) u x, (l.mapIdx fun i n => { n with num_neighbors := c i }).modify u
      (fun n => { n with end_ := x }) = (l.modify u fun n => { n with end_ := x }).mapIdx
        fun i n => { n with num_neighbors := c i } :=
    fun l u x => mapIdx_modify l u _ fun _ _ => rfl
  have hbeg : ∀ (l : List Node) u x, (l.mapIdx fun i n => { n with num_neighbors := c i }).modify u
      (fun n => { n with beginning := x }) = (l.modify u fun n => { n with beginning := x }).mapIdx
        fun i n => { n with num_neighbors := c i } :=
    fun l u x => mapIdx_modify l u _ fun _ _ => rfl
  unfold point_to
  dsimp only
  split
  · rw [hbeg]
    simp only [List.length_mapIdx]
    split
    · rw [hend]
    · rfl
  · rw [hend, hbeg]
    simp only [List.length_mapIdx]
    split
    · rw [hend]
    · rfl

theorem fix_sentinel_counts (e : Edge) (slot : Nat) :
    fix_sentinel (with_counts c s) e slot = (fix_sentinel s e slot).map (with_counts c) := by
  unfold fix_sentinel
  rw [with_counts_length, with_counts_N]
  split
  · rfl
  split
  · simp only [Except.map, with_counts]
    rw [point_to_counts]
  · rfl

theorem spread_loop_counts (index len j k : Nat) :
    spread_loop index len j k (with_counts c s) =
      (spread_loop index len j k s).map (with_counts c) := by
  induction k generalizing s with
  | zero => rfl
  | succ k ih =>
    unfold spread_loop
    dsimp only
    rw [map_with_counts_ok]
    simp only [with_counts_items]
    generalize hs1 : ({ s with items := _ } : PCSR) = s1
    have hw : ({ with_counts c s with items := s1.items } : PCSR) = with_counts c s1 := by
      rw [← hs1]
      rfl
    rw [← hs1] at hw
    dsimp only at hw
    rw [hw, hs1, fix_sentinel_counts]
    cases fix_sentinel s1 _ _ with
    | error e => rfl
    | ok s2 => exact ih

theorem redistribute_counts (index len : Nat) :
    redistribute (with_counts c s) index len = (redistribute s index len).map (with_counts c) := by
  unfold redistribute
  rw [with_counts_items]
  split
  · rfl
  dsimp only
  split
  · rfl
  rw [map_with_counts_ok]
  generalize hs1 : ({ s with items := _ } : PCSR) = s1
  have hw : ({ with_counts c s with items := s1.items } : PCSR) = with_counts c s1 := by
    rw [← hs1]
    rfl
  rw [← hs1] at hw
  dsimp only at hw
  rw [hw, hs1, spread_loop_counts]
  cases spread_loop index len _ _ s1 with
  | error e => rfl
  | ok s2 => exact fix_sentinel_counts _ _

theorem remove_climb_counts (rest len : Nat) (level : Int) (ni : Nat) :
    remove_climb (with_counts c s) rest len level ni = remove_climb s rest len level ni := by
  induction rest generalizing len level ni with
  | zero => rfl
  | succ rest ih =>
    unfold remove_climb
    simp only [with_counts_N, ih]
    rfl

theorem remove_items_counts (index : Nat) (elem : Edge) :
    remove_items (with_counts c s) index elem =
      (remove_items s index elem).map fun r => (r.1, with_counts c r.2) := by
  unfold remove_items
  dsimp only
  rw [item_counts, with_counts_N]
  cases s.item index with
  | error e => rfl
  | ok item =>
    simp only [bind, Except.bind]
    split
    · rfl
    rw [put_counts]
    cases s.put index { item with dest := 0, value := 0 } with
    | error e => rfl
    | ok s1 =>
      simp only [Except.map]
      rw [redistribute_counts, with_counts_N]
      rcases redistribute s1 (find_leaf s.N index) (logN s1.N) with e | s2
      · simp only [Except.map]
      simp only [Except.map]
      rw [with_counts_N, remove_climb_counts]
      rcases remove_climb s2 (s2.N + 1) (logN s2.N) (height s2.N) (find_leaf s.N index) with
        e | win
      · simp only
      rcases win with _ | ⟨len, ni⟩
      · simp only
        rfl
      simp only
      rw [redistribute_counts]
      rcases redistribute s2 ni len with e | s3
      · simp only [Except.map]
      · simp only [Except.map]
        rfl

end

end packed_csr
