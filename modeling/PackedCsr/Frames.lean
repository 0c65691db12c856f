-- What the functions on items leave alone: the sizes of the tables, the
-- versions and the locking mode. Only the resizing functions change them.
import PackedCsr.Sizes
import PackedCsr.Exec

namespace packed_csr

/-- Only items, regions and counters of the nodes differ, and no table changes its size. -/
structure SameFrame (s s' : PCSR) : Prop where
  N : s'.N = s.N
  items : s'.items.length = s.items.length
  nodes : s'.nodes.length = s.nodes.length
  versions : s'.versions = s.versions
  lock_bsearch : s'.lock_bsearch = s.lock_bsearch

theorem SameFrame.refl (s : PCSR) : SameFrame s s := ⟨rfl, rfl, rfl, rfl, rfl⟩

theorem SameFrame.trans {s s1 s2 : PCSR} (h : SameFrame s s1) (h' : SameFrame s1 s2) :
    SameFrame s s2 :=
  ⟨h'.N.trans h.N, h'.items.trans h.items, h'.nodes.trans h.nodes, h'.versions.trans h.versions,
    h'.lock_bsearch.trans h.lock_bsearch⟩

theorem SameFrame.get_n {s s' : PCSR} (h : SameFrame s s') : s'.get_n = s.get_n := h.nodes

section

variable {s s' : PCSR}

theorem bind_ok {α β : Type} {r : Res α} {f : α → Res β} {b : β} (h : (r >>= f) = .ok b) :
    ∃ a, r = .ok a ∧ f a = .ok b := by
  cases r with
  | error e => cases h
  | ok a => exact ⟨a, rfl, h⟩

/-! ## Single writes -/

theorem put_ok {i : Nat} {e : Edge} (h : s.put i e = .ok s') :
    i < s.items.length ∧ s' = { s with items := s.items.set i e } := by
  unfold PCSR.put at h
  split at h
  · cases h
    exact ⟨‹_›, rfl⟩
  · cases h

theorem put_of_lt {i : Nat} (e : Edge) (h : i < s.items.length) :
    s.put i e = .ok { s with items := s.items.set i e } := if_pos h

theorem put_frame {i : Nat} {e : Edge} (h : s.put i e = .ok s') : SameFrame s s' := by
  obtain ⟨-, rfl⟩ := put_ok h
  exact ⟨rfl, List.length_set, rfl, rfl, rfl⟩

theorem point_to_length (nodes : List Node) (N v slot : Nat) (first : Bool) :
    (point_to nodes N v slot first).length = nodes.length := by
  unfold point_to
  dsimp only
  split <;> split <;> simp

theorem fix_sentinel_ok {e : Edge} {slot : Nat} (h : fix_sentinel s e slot = .ok s') :
    (is_sentinel e = false ∧ s' = s) ∨
      (is_sentinel e = true ∧ sentinel_vertex e < s.nodes.length ∧ e.value ≠ 0 ∧
        s' = { s with nodes := point_to s.nodes s.N (sentinel_vertex e) slot
                                (e.value == UINT32_MAX) }) := by
  unfold fix_sentinel at h
  split at h
  · rename_i hs
    cases h
    exact .inl ⟨by simpa using hs, rfl⟩
  · rename_i hs
    split at h
    · rename_i hv
      cases h
      exact .inr ⟨by simpa using hs, hv.1, hv.2, rfl⟩
    · cases h

theorem fix_sentinel_items {e : Edge} {slot : Nat} (h : fix_sentinel s e slot = .ok s') :
    s'.items = s.items := by
  rcases fix_sentinel_ok h with ⟨-, rfl⟩ | ⟨-, -, -, rfl⟩ <;> rfl

theorem fix_sentinel_frame {e : Edge} {slot : Nat} (h : fix_sentinel s e slot = .ok s') :
    SameFrame s s' := by
  rcases fix_sentinel_ok h with ⟨-, rfl⟩ | ⟨-, -, -, rfl⟩
  · exact SameFrame.refl _
  · exact ⟨rfl, rfl, point_to_length _ _ _ _ _, rfl, rfl⟩

theorem fix_item_frame {e : Edge} {slot : Nat} (h : fix_item s e slot = .ok s') :
    SameFrame s s' := by
  unfold fix_item at h
  split at h
  · cases h
    exact SameFrame.refl _
  · exact fix_sentinel_frame h

theorem count_neighbors_ok {v : Nat} {f : Nat → Nat} (h : s.count_neighbors v f = .ok s') :
    v < s.nodes.length ∧ s' = { s with nodes := s.nodes.modify v fun n =>
      { n with num_neighbors := f n.num_neighbors } } := by
  unfold PCSR.count_neighbors at h
  split at h
  · cases h
    exact ⟨‹_›, rfl⟩
  · cases h

/-! ## Redistribution -/

theorem pack_loop_length (index rest i j : Nat) (items : List Edge) :
    (pack_loop index rest i j items).2.length = items.length := by
  induction rest generalizing i j items with
  | zero => rfl
  | succ rest ih =>
    unfold pack_loop
    rw [ih, List.length_set]

theorem clear_loop_length (rest i : Nat) (items : List Edge) :
    (clear_loop rest i items).length = items.length := by
  induction rest generalizing i items with
  | zero => rfl
  | succ rest ih =>
    unfold clear_loop
    rw [ih, List.length_set]

theorem spread_loop_frame {index len j k : Nat} (h : spread_loop index len j k s = .ok s') :
    SameFrame s s' := by
  induction k generalizing s with
  | zero =>
    cases h
    exact SameFrame.refl _
  | succ k ih =>
    unfold spread_loop at h
    dsimp only at h
    obtain ⟨s1, h1, h⟩ := bind_ok h
    refine SameFrame.trans ?_ ((fix_sentinel_frame h1).trans (ih h))
    exact ⟨rfl, by simp, rfl, rfl, rfl⟩

theorem redistribute_frame {index len : Nat} (h : redistribute s index len = .ok s') :
    SameFrame s s' := by
  unfold redistribute at h
  split at h
  · cases h
  · dsimp only at h
    split at h
    · cases h
    · obtain ⟨s1, h1, h⟩ := bind_ok h
      refine SameFrame.trans ?_ ((spread_loop_frame h1).trans (fix_sentinel_frame h))
      exact ⟨rfl, by rw [clear_loop_length, pack_loop_length], rfl, rfl, rfl⟩

theorem remove_items_frame {index : Nat} {elem : Edge} {b : Bool}
    (h : remove_items s index elem = .ok (b, s')) : SameFrame s s' := by
  unfold remove_items at h
  dsimp only at h
  obtain ⟨item, -, h⟩ := bind_ok h
  split at h
  · cases h
    exact SameFrame.refl _
  obtain ⟨s1, h1, h⟩ := bind_ok h
  obtain ⟨s2, h2, h⟩ := bind_ok h
  obtain ⟨win, h3, h⟩ := bind_ok h
  have h12 := (put_frame h1).trans (redistribute_frame h2)
  rcases win with _ | ⟨len, node_index⟩
  · cases h
    exact h12
  · obtain ⟨s3, h4, h⟩ := bind_ok h
    cases h
    exact h12.trans (redistribute_frame h4)

end

end packed_csr
