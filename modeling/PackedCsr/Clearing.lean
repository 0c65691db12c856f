-- A free slot is a cleared one: what the functions that move items leave in it has destination 0.
import PackedCsr.References
import PackedCsr.Construction

namespace packed_csr

open effects

/-- A null item has destination 0. -/
def Clear (x : Edge) : Prop := x.is_null = true → x.dest = 0

/-- The items of an array are clear where they are null. -/
def AllClear (items : List Edge) : Prop := ∀ x ∈ items, Clear x

section

variable {s s' : PCSR} {e : Edge} {items : List Edge}

/-! ## Slots -/

theorem clear_null_edge : Clear null_edge := fun _ => rfl

theorem clear_full (h : full e = true) : Clear e := by
  intro hnull
  unfold full at h
  rw [hnull] at h
  cases h

theorem AllClear.getD (h : AllClear items) (i : Nat) : Clear (items.getD i null_edge) := by
  rw [List.getD_eq_getElem?_getD]
  cases hi : items[i]? with
  | none => exact clear_null_edge
  | some x => exact h x (List.mem_of_getElem? hi)

theorem AllClear.set (h : AllClear items) (he : Clear e) (i : Nat) : AllClear (items.set i e) := by
  intro x hx
  rcases List.mem_or_eq_of_mem_set hx with hx | rfl
  · exact h x hx
  · exact he

theorem item_clear {i : Nat} (h : AllClear s.items) (hrun : s.item i = .ok e) : Clear e :=
  h e (List.mem_of_getElem? (item_ok hrun))

theorem put_clears {i : Nat} (h : AllClear s.items) (he : Clear e) (hrun : s.put i e = .ok s') :
    AllClear s'.items := by
  obtain ⟨-, rfl⟩ := put_ok hrun
  exact h.set he i

theorem fix_item_clears {slot : Nat} (h : AllClear s.items) (hrun : fix_item s e slot = .ok s') :
    AllClear s'.items := by
  unfold fix_item at hrun
  split at hrun
  · cases hrun
    exact h
  · rw [fix_sentinel_items hrun]
    exact h

/-! ## Redistribution and resizing -/

theorem pack_loop_clears {index rest i j : Nat} (h : AllClear items) :
    AllClear (pack_loop index rest i j items).2 := by
  induction rest generalizing i j items with
  | zero => exact h
  | succ rest ih => exact ih (h.set (h.getD i) _)

theorem clear_loop_clears {rest i : Nat} (h : AllClear items) : AllClear (clear_loop rest i items) := by
  induction rest generalizing i items with
  | zero => exact h
  | succ rest ih => exact ih (h.set clear_null_edge i)

theorem spread_loop_clears {index len j k : Nat} (h : AllClear s.items)
    (hrun : spread_loop index len j k s = .ok s') : AllClear s'.items := by
  induction k generalizing s with
  | zero =>
    cases hrun
    exact h
  | succ k ih =>
    unfold spread_loop at hrun
    dsimp only at hrun
    obtain ⟨s1, hfix, hrun⟩ := bind_ok hrun
    refine ih ?_ hrun
    rw [fix_sentinel_items hfix]
    exact (h.set (h.getD _) _).set (h.getD _) _

theorem redistribute_clears {index len : Nat} (h : AllClear s.items) (hrun : redistribute s index len = .ok s') :
    AllClear s'.items := by
  unfold redistribute at hrun
  split at hrun
  · cases hrun
  dsimp only at hrun
  split at hrun
  · cases hrun
  obtain ⟨s1, hspread, hfix⟩ := bind_ok hrun
  rw [fix_sentinel_items hfix]
  exact spread_loop_clears (clear_loop_clears (pack_loop_clears h)) hspread

theorem double_list_clears (h : AllClear s.items) (hrun : double_list s = .ok s') : AllClear s'.items := by
  refine redistribute_clears ?_ hrun
  intro x hx
  rcases List.mem_append.mp hx with hx | hx
  · exact h x hx
  · rw [List.eq_of_mem_replicate hx]
    exact clear_null_edge

theorem half_pack_loop_clears {rest i j : Nat} (h : AllClear items) :
    AllClear (half_pack_loop rest i j items).2 := by
  induction rest generalizing i j items with
  | zero => exact h
  | succ rest ih =>
    unfold half_pack_loop
    split
    · exact ih h
    · exact ih (h.set (h.getD i) j)

theorem half_clear_loop_clears {rest j : Nat} (h : AllClear items) :
    AllClear (half_clear_loop rest j items) := by
  induction rest generalizing j items with
  | zero => exact h
  | succ rest ih => exact ih (h.set (fun _ => rfl) j)

theorem half_finish_clears (h : AllClear s.items) (hrun : half_finish (half_items s) = .ok s') :
    AllClear s'.items := by
  refine redistribute_clears ?_ hrun
  intro x hx
  exact half_clear_loop_clears (half_pack_loop_clears h) x (List.mem_of_mem_take hx)

/-! ## Slides -/

theorem right_loop_clears {rest index i : Nat} {el el' : Edge} (h : AllClear s.items) (hel : Clear el)
    (hrun : right_loop rest index el s = .ok (i, el', s')) : Clear el' ∧ AllClear s'.items := by
  induction rest generalizing index el s with
  | zero =>
    cases hrun
    exact ⟨hel, h⟩
  | succ rest ih =>
    unfold right_loop at hrun
    obtain ⟨temp, htemp, hrun⟩ := bind_ok hrun
    split at hrun
    · cases hrun
      exact ⟨hel, h⟩
    obtain ⟨s1, hput, hrun⟩ := bind_ok hrun
    have hfix : fix_item s1 el index >>= right_loop rest (index + 1) temp = .ok (i, el', s') := by
      unfold fix_item
      split at hrun
      · rw [if_pos ‹_›]
        exact hrun
      · rw [if_neg ‹_›]
        exact hrun
    obtain ⟨s2, hfix, hrun⟩ := bind_ok hfix
    exact ih (fix_item_clears (put_clears h hel hput) hfix) (item_clear h htemp) hrun

theorem left_loop_clears {index : Nat} {i : Option Nat} {el el' : Edge} (h : AllClear s.items) (hel : Clear el)
    (hrun : left_loop index el s = .ok (i, el', s')) : Clear el' ∧ AllClear s'.items := by
  induction index generalizing el s with
  | zero =>
    cases hrun
    exact ⟨hel, h⟩
  | succ index ih =>
    unfold left_loop at hrun
    obtain ⟨temp, htemp, hrun⟩ := bind_ok hrun
    split at hrun
    · cases hrun
      exact ⟨hel, h⟩
    obtain ⟨s1, hput, hrun⟩ := bind_ok hrun
    have hfix : fix_item s1 el index >>= left_loop index temp = .ok (i, el', s') := by
      unfold fix_item
      split at hrun
      · rw [if_pos ‹_›]
        exact hrun
      · rw [if_neg ‹_›]
        exact hrun
    obtain ⟨s2, hfix, hrun⟩ := bind_ok hfix
    exact ih (fix_item_clears (put_clears h hel hput) hfix) (item_clear h htemp) hrun

/-- The two slides, by induction on the calls that they may still make of each other. -/
theorem slide_calls_clear (calls : Nat) :
    (∀ {s s' : PCSR} {index : Nat} {b : Bool}, AllClear s.items →
      slide_right_calls calls s index = .ok (b, s') → AllClear s'.items) ∧
    ∀ {s s' : PCSR} {index : Nat}, AllClear s.items → slide_left_calls calls s index = .ok s' →
      AllClear s'.items := by
  induction calls with
  | zero =>
    constructor
    · intro s s' index b _ hrun
      unfold slide_right_calls at hrun
      cases hrun
    · intro s s' index _ hrun
      unfold slide_left_calls at hrun
      cases hrun
  | succ calls ih =>
    constructor
    · intro s s' index b h hrun
      unfold slide_right_calls at hrun
      obtain ⟨el, hel, hrun⟩ := bind_ok hrun
      obtain ⟨s1, h1, hrun⟩ := bind_ok hrun
      obtain ⟨⟨i, el', s2⟩, h2, hrun⟩ := bind_ok hrun
      obtain ⟨s3, h3, hrun⟩ := bind_ok hrun
      obtain ⟨hel', hs2⟩ := right_loop_clears (put_clears h clear_null_edge h1) (item_clear h hel) h2
      have hs3 := fix_item_clears hs2 h3
      split at hrun
      · obtain ⟨s4, h4, hrun⟩ := bind_ok hrun
        obtain ⟨s5, h5, hrun⟩ := bind_ok hrun
        cases hrun
        exact put_clears (ih.2 hs3 h4) hel' h5
      · obtain ⟨s5, h5, hrun⟩ := bind_ok hrun
        cases hrun
        exact put_clears hs3 hel' h5
    · intro s s' index h hrun
      unfold slide_left_calls at hrun
      obtain ⟨el, hel, hrun⟩ := bind_ok hrun
      obtain ⟨s1, h1, hrun⟩ := bind_ok hrun
      obtain ⟨⟨stop, el', s2⟩, h2, hrun⟩ := bind_ok hrun
      obtain ⟨hel', hs2⟩ := left_loop_clears (put_clears h clear_null_edge h1) (item_clear h hel) h2
      cases stop with
      | none =>
        obtain ⟨s3, h3, hrun⟩ := bind_ok hrun
        obtain ⟨⟨b, s4⟩, h4, hrun⟩ := bind_ok hrun
        obtain ⟨s5, h5, hrun⟩ := bind_ok hrun
        exact put_clears (fix_item_clears (ih.1 (double_list_clears hs2 h3) h4) h5) hel' hrun
      | some i =>
        obtain ⟨s3, h3, hrun⟩ := bind_ok hrun
        exact put_clears (fix_item_clears hs2 h3) hel' hrun

/-! ## Insertions and removals -/

theorem insert_finish_clears {ni : Nat} {info : Option insertion_info} (h : AllClear s.items)
    (hrun : insert_finish s ni info = .ok s') : AllClear s'.items := by
  have hlast : ∀ len ni', (if logN s.N < len then redistribute s ni' len else pure s) = .ok s' →
      AllClear s'.items := by
    intro len ni' hrun
    split at hrun
    · exact redistribute_clears h hrun
    · cases hrun
      exact h
  unfold insert_finish at hrun
  rcases info with _ | i
  · obtain ⟨win, -, hrun⟩ := bind_ok hrun
    rcases win with _ | ⟨len, ni'⟩
    · exact double_list_clears h hrun
    · exact hlast len ni' hrun
  · dsimp only at hrun
    split at hrun
    · exact double_list_clears h hrun
    · exact hlast _ _ hrun

theorem insert_item_clears {index ni : Nat} {info : Option insertion_info} (h : AllClear s.items) (he : Clear e)
    (hrun : insert_item s index ni e info = .ok s') : AllClear s'.items := by
  unfold insert_item at hrun
  dsimp only at hrun
  obtain ⟨s1, h1, hrun⟩ := bind_ok hrun
  obtain ⟨density, -, hrun⟩ := bind_ok hrun
  have hs1 := put_clears h he h1
  split at hrun
  · obtain ⟨s2, h2, hrun⟩ := bind_ok hrun
    exact insert_finish_clears (redistribute_clears hs1 h2) hrun
  · obtain ⟨s2, h2, hrun⟩ := bind_ok hrun
    exact insert_finish_clears (redistribute_clears hs1 h2) hrun

theorem insert_calls_clears {calls index src : Nat} {info : Option insertion_info} (h : AllClear s.items)
    (he : full e = true) (hrun : insert_calls calls s index e src info = .ok s') : AllClear s'.items := by
  induction calls generalizing s index info with
  | zero =>
    unfold insert_calls at hrun
    cases hrun
  | succ calls ih =>
    unfold insert_calls at hrun
    dsimp only at hrun
    obtain ⟨item, -, hrun⟩ := bind_ok hrun
    split at hrun
    · exact insert_item_clears h (clear_full he) hrun
    split at hrun
    · have hvalue : full { item with value := e.value } = true := he
      exact put_clears h (clear_full hvalue) hrun
    split at hrun
    · obtain ⟨s1, h1, hrun⟩ := bind_ok hrun
      obtain ⟨loc, -, hrun⟩ := bind_ok hrun
      exact ih (double_list_clears h h1) hrun
    · obtain ⟨⟨off_end, s1⟩, h1, hrun⟩ := bind_ok hrun
      have hs1 : AllClear s1.items := (slide_calls_clear 4).1 h h1
      dsimp only at hrun
      split at hrun
      · obtain ⟨s2, h2, hrun⟩ := bind_ok hrun
        exact insert_item_clears ((slide_calls_clear 4).2 hs1 h2) (clear_full he) hrun
      · exact insert_item_clears hs1 (clear_full he) hrun

theorem remove_items_clears {index : Nat} {b : Bool} (h : AllClear s.items)
    (hrun : remove_items s index e = .ok (b, s')) : AllClear s'.items := by
  unfold remove_items at hrun
  dsimp only at hrun
  obtain ⟨item, -, hrun⟩ := bind_ok hrun
  split at hrun
  · cases hrun
    exact h
  obtain ⟨s1, h1, hrun⟩ := bind_ok hrun
  obtain ⟨s2, h2, hrun⟩ := bind_ok hrun
  obtain ⟨win, -, hrun⟩ := bind_ok hrun
  have hs2 := redistribute_clears (put_clears h (fun _ => rfl) h1) h2
  rcases win with _ | ⟨len, ni⟩
  · cases hrun
    exact hs2
  · obtain ⟨s3, h3, hrun⟩ := bind_ok hrun
    cases hrun
    exact redistribute_clears hs2 h3

/-- A removal that returns: it halves the array at its end, or it does not. -/
theorem exec_remove_items {index : Nat} (hrun : exec (remove index e) s = .ok ((), s')) :
    ∃ halve s1, remove_items s index e = .ok (halve, s1) ∧
      ((halve = true ∧ exec half_list s1 = .ok ((), s')) ∨ (halve = false ∧ s' = s1)) := by
  unfold remove at hrun
  obtain ⟨halve, s1, h1, hrun⟩ := exec_bind_inv hrun
  refine ⟨halve, s1, ?_, ?_⟩
  · simp only [exec, Prog.perform, Prog.run, alone] at h1
    split at h1
    · rename_i hf
      cases h1
      exact hf
    · cases h1
  · cases halve with
    | true => exact .inl ⟨rfl, hrun⟩
    | false =>
      cases hrun
      exact .inr ⟨rfl, rfl⟩

theorem exec_remove_clears {index : Nat} (h : AllClear s.items) (hrun : exec (remove index e) s = .ok ((), s')) :
    AllClear s'.items := by
  obtain ⟨halve, s1, hitems, ⟨-, hhalf⟩ | ⟨-, rfl⟩⟩ := exec_remove_items hrun
  · exact half_finish_clears (remove_items_clears h hitems) (half_list_ok hhalf)
  · exact remove_items_clears h hitems

/-! ## Calls -/

theorem Adds.clears {p : Nat} (h : Adds s p e s') (he : full e = true) (hclear : AllClear s.items) :
    AllClear s'.items := by
  obtain ⟨c, -, info, s2, -, hins, hsame, -⟩ := h
  rw [hsame.items]
  exact insert_calls_clears (s := with_counts c s) hclear he hins

theorem Deletes.clears {p : Nat} (h : Deletes s p e s') (hclear : AllClear s.items) : AllClear s'.items := by
  obtain ⟨c, -, ⟨-, rfl⟩ | ⟨-, s2, hrem, hsame, -⟩⟩ := h
  · exact hclear
  · rw [hsame.items]
    exact exec_remove_clears (s := with_counts c s) hclear hrem

theorem Call.clears {c : Call} (hg : Good s) (hc : c.Valid s.get_n) (hfit : c.Fits s) (hr : Returns s c s')
    (h : AllClear s.items) : AllClear s'.items := by
  obtain ⟨calls, hr⟩ := hr
  have he := hc.is_edge
  cases c with
  | add_edge src dest value =>
    obtain ⟨p, s1, -, hrun, hadds, -⟩ := add_edge_adds hg he hfit
    cases hrun.symm.trans hr
    exact hadds.clears he.full h
  | remove_edge src dest =>
    obtain ⟨p, s1, hrun, -, hdeletes⟩ := remove_edge_deletes hg he (remove_edge_returned hg he hr)
    cases calls with
    | zero => cases hr
    | succ calls =>
      cases (hrun calls).symm.trans hr
      exact hdeletes.clears h

theorem new_pcsr_clear {n : Nat} (lock_search : Bool) (hn : 0 < n) :
    AllClear (new_pcsr n n lock_search).items := by
  intro x hx
  cases hf : full x with
  | true => exact clear_full hf
  | false =>
    rw [init_items_clear hn _ 0 0 (fun _ => rfl) hx hf]
    exact clear_null_edge

/-- In a run whose calls fit, a free slot is a cleared one. -/
theorem builds_clear {n : Nat} {lock_search : Bool} {ok : PCSR → Call → Prop} {m : Nat → Nat → Option Nat}
    (hn : 0 < n) (hle : n ≤ UINT32_MAX) (hok : ∀ s c, ok s c → c.Fits s) (h : Builds n lock_search ok s m) :
    AllClear s.items := by
  induction h with
  | start => exact new_pcsr_clear lock_search hn
  | call c h hc hfit hr ih =>
    obtain ⟨⟨hg, hget⟩, -⟩ := builds_holds hn hle hok h
    rw [← hget] at hc
    exact Call.clears hg hc (hok _ _ hfit) hr ih

end

end packed_csr
