-- The counters of neighbours are outside the array: no function that moves items
-- changes one.
import PackedCsr.Frames
import PackedCsr.Exec

namespace packed_csr

open effects

/-- The counters of neighbours, vertex by vertex. -/
def tallies (s : PCSR) : List Nat := s.nodes.map Node.num_neighbors

section

variable {s s' : PCSR}

theorem tallies_length (s : PCSR) : (tallies s).length = s.get_n := List.length_map _

theorem put_tallies {i : Nat} {e : Edge} (h : s.put i e = .ok s') : tallies s' = tallies s := by
  obtain ⟨-, rfl⟩ := put_ok h
  rfl

theorem map_modify_beginning (nodes : List Node) (v : Nat) (f : Node → Node)
    (hf : ∀ n, (f n).num_neighbors = n.num_neighbors) :
    (nodes.modify v f).map Node.num_neighbors = nodes.map Node.num_neighbors := by
  apply List.ext_getElem?
  intro i
  rw [List.getElem?_map, List.getElem?_map, List.getElem?_modify]
  cases nodes[i]? with
  | none => rfl
  | some n =>
    by_cases hv : v = i
    · simp [hv, hf]
    · simp [hv]

theorem point_to_tallies (nodes : List Node) (N v slot : Nat) (first : Bool) :
    (point_to nodes N v slot first).map Node.num_neighbors = nodes.map Node.num_neighbors := by
  have hfirst : (if first then nodes else nodes.modify (v - 1) fun n => { n with end_ := slot }).map
      Node.num_neighbors = nodes.map Node.num_neighbors := by
    cases first with
    | true => rfl
    | false => exact map_modify_beginning _ _ _ fun _ => rfl
  unfold point_to
  dsimp only
  generalize (if first then nodes else nodes.modify (v - 1) fun n => { n with end_ := slot }) = first_nodes
    at hfirst ⊢
  have hv := map_modify_beginning first_nodes v (fun n => { n with beginning := slot }) fun _ => rfl
  split
  · exact (map_modify_beginning _ v (fun n => { n with end_ := N - 1 }) fun _ => rfl).trans
      (hv.trans hfirst)
  · exact hv.trans hfirst

theorem fix_sentinel_tallies {e : Edge} {slot : Nat} (h : fix_sentinel s e slot = .ok s') :
    tallies s' = tallies s := by
  rcases fix_sentinel_ok h with ⟨-, rfl⟩ | ⟨-, -, -, rfl⟩
  · rfl
  · exact point_to_tallies _ _ _ _ _

theorem fix_item_tallies {e : Edge} {slot : Nat} (h : fix_item s e slot = .ok s') :
    tallies s' = tallies s := by
  unfold fix_item at h
  split at h
  · cases h
    rfl
  · exact fix_sentinel_tallies h

/-! ## Redistribution and resizing -/

theorem spread_loop_tallies {index len j k : Nat} (h : spread_loop index len j k s = .ok s') :
    tallies s' = tallies s := by
  induction k generalizing s with
  | zero =>
    cases h
    rfl
  | succ k ih =>
    unfold spread_loop at h
    dsimp only at h
    obtain ⟨s1, h1, h⟩ := bind_ok h
    have h2 := fix_sentinel_tallies h1
    exact (ih h).trans h2

theorem redistribute_tallies {index len : Nat} (h : redistribute s index len = .ok s') :
    tallies s' = tallies s := by
  unfold redistribute at h
  split at h
  · cases h
  · dsimp only at h
    split at h
    · cases h
    · obtain ⟨s1, h1, h⟩ := bind_ok h
      have h2 := spread_loop_tallies h1
      exact (fix_sentinel_tallies h).trans h2

theorem double_list_tallies (h : double_list s = .ok s') : tallies s' = tallies s := by
  unfold double_list at h
  dsimp only at h
  have hsame := redistribute_tallies h
  exact hsame

theorem half_finish_tallies (h : half_finish s = .ok s') : tallies s' = tallies s := by
  unfold half_finish at h
  dsimp only at h
  have hsame := redistribute_tallies h
  exact hsame

/-! ## Slides -/

theorem right_loop_tallies {rest index i : Nat} {el el' : Edge}
    (h : right_loop rest index el s = .ok (i, el', s')) : tallies s' = tallies s := by
  induction rest generalizing index el s with
  | zero =>
    cases h
    rfl
  | succ rest ih =>
    unfold right_loop at h
    obtain ⟨temp, -, h⟩ := bind_ok h
    split at h
    · cases h
      rfl
    · obtain ⟨s1, h1, h⟩ := bind_ok h
      have h' : fix_item s1 el index >>= right_loop rest (index + 1) temp = .ok (i, el', s') := by
        unfold fix_item
        split at h
        · rw [if_pos ‹_›]
          exact h
        · rw [if_neg ‹_›]
          exact h
      obtain ⟨s2, h2, h⟩ := bind_ok h'
      rw [ih h, fix_item_tallies h2, put_tallies h1]

theorem left_loop_tallies {index : Nat} {i : Option Nat} {el el' : Edge}
    (h : left_loop index el s = .ok (i, el', s')) : tallies s' = tallies s := by
  induction index generalizing el s with
  | zero =>
    cases h
    rfl
  | succ index ih =>
    unfold left_loop at h
    obtain ⟨temp, -, h⟩ := bind_ok h
    split at h
    · cases h
      rfl
    · obtain ⟨s1, h1, h⟩ := bind_ok h
      have h' : fix_item s1 el index >>= left_loop index temp = .ok (i, el', s') := by
        unfold fix_item
        split at h
        · rw [if_pos ‹_›]
          exact h
        · rw [if_neg ‹_›]
          exact h
      obtain ⟨s2, h2, h⟩ := bind_ok h'
      rw [ih h, fix_item_tallies h2, put_tallies h1]

/-- The two slides, by induction on the calls that they may still make of each other. -/
theorem slide_calls_tallies (calls : Nat) :
    (∀ {s s' : PCSR} {index : Nat} {b : Bool}, slide_right_calls calls s index = .ok (b, s') →
      tallies s' = tallies s) ∧
    ∀ {s s' : PCSR} {index : Nat}, slide_left_calls calls s index = .ok s' →
      tallies s' = tallies s := by
  induction calls with
  | zero =>
    constructor
    · intro s s' index b h
      unfold slide_right_calls at h
      cases h
    · intro s s' index h
      unfold slide_left_calls at h
      cases h
  | succ calls ih =>
    constructor
    · intro s s' index b h
      unfold slide_right_calls at h
      obtain ⟨el, -, h⟩ := bind_ok h
      obtain ⟨s1, h1, h⟩ := bind_ok h
      obtain ⟨⟨i, el', s2⟩, h2, h⟩ := bind_ok h
      obtain ⟨s3, h3, h⟩ := bind_ok h
      have hsame : tallies s3 = tallies s :=
        (fix_item_tallies h3).trans ((right_loop_tallies h2).trans (put_tallies h1))
      split at h
      · obtain ⟨s4, h4, h⟩ := bind_ok h
        obtain ⟨s5, h5, h⟩ := bind_ok h
        cases h
        exact (put_tallies h5).trans ((ih.2 h4).trans hsame)
      · obtain ⟨s5, h5, h⟩ := bind_ok h
        cases h
        exact (put_tallies h5).trans hsame
    · intro s s' index h
      unfold slide_left_calls at h
      obtain ⟨el, -, h⟩ := bind_ok h
      obtain ⟨s1, h1, h⟩ := bind_ok h
      obtain ⟨⟨stop, el', s2⟩, h2, h⟩ := bind_ok h
      have hsame : tallies s2 = tallies s := (left_loop_tallies h2).trans (put_tallies h1)
      cases stop with
      | none =>
        obtain ⟨s3, h3, h⟩ := bind_ok h
        obtain ⟨⟨b, s4⟩, h4, h⟩ := bind_ok h
        obtain ⟨s5, h5, h⟩ := bind_ok h
        rw [put_tallies h, fix_item_tallies h5, ih.1 h4, double_list_tallies h3, hsame]
      | some i =>
        obtain ⟨s3, h3, h⟩ := bind_ok h
        rw [put_tallies h, fix_item_tallies h3, hsame]

/-! ## Insertions and removals -/

theorem insert_finish_tallies {ni : Nat} {info : Option insertion_info}
    (h : insert_finish s ni info = .ok s') : tallies s' = tallies s := by
  have hlast : ∀ len ni', (if logN s.N < len then redistribute s ni' len else pure s) = .ok s' →
      tallies s' = tallies s := by
    intro len ni' h
    split at h
    · exact redistribute_tallies h
    · cases h
      rfl
  unfold insert_finish at h
  rcases info with _ | i
  · obtain ⟨win, -, h⟩ := bind_ok h
    rcases win with _ | ⟨len, ni'⟩
    · exact double_list_tallies h
    · exact hlast len ni' h
  · dsimp only at h
    split at h
    · exact double_list_tallies h
    · exact hlast _ _ h

theorem insert_item_tallies {index ni : Nat} {e : Edge} {info : Option insertion_info}
    (h : insert_item s index ni e info = .ok s') : tallies s' = tallies s := by
  unfold insert_item at h
  dsimp only at h
  obtain ⟨s1, h1, h⟩ := bind_ok h
  obtain ⟨density, -, h⟩ := bind_ok h
  split at h
  · obtain ⟨s2, h2, h⟩ := bind_ok h
    rw [insert_finish_tallies h, redistribute_tallies h2, put_tallies h1]
  · obtain ⟨s2, h2, h⟩ := bind_ok h
    rw [insert_finish_tallies h, redistribute_tallies h2, put_tallies h1]

theorem insert_calls_tallies {calls index src : Nat} {e : Edge} {info : Option insertion_info}
    (h : insert_calls calls s index e src info = .ok s') : tallies s' = tallies s := by
  induction calls generalizing s index info with
  | zero =>
    unfold insert_calls at h
    cases h
  | succ calls ih =>
    unfold insert_calls at h
    dsimp only at h
    obtain ⟨item, -, h⟩ := bind_ok h
    split at h
    · exact insert_item_tallies h
    split at h
    · exact put_tallies h
    split at h
    · obtain ⟨s1, h1, h⟩ := bind_ok h
      obtain ⟨loc, -, h⟩ := bind_ok h
      exact (ih h).trans (double_list_tallies h1)
    · obtain ⟨⟨off_end, s1⟩, h1, h⟩ := bind_ok h
      have hsame : tallies s1 = tallies s := (slide_calls_tallies 4).1 h1
      dsimp only at h
      split at h
      · obtain ⟨s2, h2, h⟩ := bind_ok h
        exact (insert_item_tallies h).trans (((slide_calls_tallies 4).2 h2).trans hsame)
      · exact (insert_item_tallies h).trans hsame

theorem insert_tallies {index src : Nat} {e : Edge} {info : Option insertion_info}
    (h : insert s index e src info = .ok s') : tallies s' = tallies s := insert_calls_tallies h

theorem remove_items_tallies {index : Nat} {e : Edge} {b : Bool}
    (h : remove_items s index e = .ok (b, s')) : tallies s' = tallies s := by
  unfold remove_items at h
  dsimp only at h
  obtain ⟨item, -, h⟩ := bind_ok h
  split at h
  · cases h
    rfl
  obtain ⟨s1, h1, h⟩ := bind_ok h
  obtain ⟨s2, h2, h⟩ := bind_ok h
  obtain ⟨win, -, h⟩ := bind_ok h
  have h12 := (redistribute_tallies h2).trans (put_tallies h1)
  rcases win with _ | ⟨len, ni⟩
  · cases h
    exact h12
  · obtain ⟨s3, h3, h⟩ := bind_ok h
    cases h
    exact (redistribute_tallies h3).trans h12

theorem exec_leaf_ok {c : LeafCall} {i : Nat} (h : exec (leaf c i) s = .ok ((), s')) : s' = s := by
  simp only [exec, leaf, Prog.perform, Prog.run, alone] at h
  split at h
  · rename_i hi
    split at hi
    · cases hi
      cases h
      rfl
    · cases hi
  · cases h

theorem drop_locks_ok {rest i : Nat} (h : exec (drop_locks rest i) s = .ok ((), s')) : s' = s := by
  induction rest generalizing i s with
  | zero =>
    cases h
    rfl
  | succ rest ih =>
    unfold drop_locks at h
    obtain ⟨_, s1, h1, h⟩ := exec_bind_inv h
    obtain ⟨_, s2, h2, h⟩ := exec_bind_inv h
    rw [ih h, exec_leaf_ok h2, exec_leaf_ok h1]

theorem exec_change_ok {f : PCSR → Res PCSR} (h : exec (change f) s = .ok ((), s')) : f s = .ok s' := by
  simp only [exec, change, Prog.perform, Prog.run, alone] at h
  split at h
  · rename_i hf
    obtain ⟨s1, hs1, he⟩ := map_ok hf
    cases he
    cases h
    exact hs1
  · cases h

theorem half_list_ok (h : exec half_list s = .ok ((), s')) : half_finish (half_items s) = .ok s' := by
  unfold half_list at h
  obtain ⟨prev, -, h⟩ := exec_look_inv h
  obtain ⟨_, s1, h1, h⟩ := exec_bind_inv h
  obtain ⟨new, -, h⟩ := exec_look_inv h
  obtain ⟨_, s2, h2, h⟩ := exec_bind_inv h
  have hs1 : half_items s = s1 := Except.ok.inj (exec_change_ok h1)
  rw [hs1, ← drop_locks_ok h2]
  exact exec_change_ok h

theorem half_list_tallies (h : exec half_list s = .ok ((), s')) : tallies s' = tallies s := by
  rw [half_finish_tallies (half_list_ok h)]
  rfl

theorem exec_remove_tallies {index : Nat} {e : Edge} (h : exec (remove index e) s = .ok ((), s')) :
    tallies s' = tallies s := by
  unfold remove at h
  obtain ⟨halve, s1, h1, h⟩ := exec_bind_inv h
  have hitems : remove_items s index e = .ok (halve, s1) := by
    simp only [exec, Prog.perform, Prog.run, alone] at h1
    split at h1
    · rename_i hf
      cases h1
      exact hf
    · cases h1
  have hsame := remove_items_tallies hitems
  cases halve with
  | true => exact (half_list_tallies h).trans hsame
  | false =>
    cases h
    exact hsame

end

end packed_csr
