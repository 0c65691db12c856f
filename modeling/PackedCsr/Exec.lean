-- The run of an operation with no other thread active, one instruction at a
-- time, and the programs that only read.
import PackedCsr.Graph

namespace packed_csr

open effects

section

variable {α β : Type} {s s' : PCSR}

/-! ## Results of accesses -/

theorem map_ok {f : β → α} {r : Res β} {a : α} (h : r.map f = .ok a) : ∃ b, r = .ok b ∧ f b = a := by
  cases r with
  | error e => cases h
  | ok b => exact ⟨b, rfl, Except.ok.inj h⟩

theorem item_ok {s : PCSR} {i : Nat} {e : Edge} (h : s.item i = .ok e) : s.items[i]? = some e := by
  unfold PCSR.item at h
  split at h
  · rename_i e' he
    cases h
    exact he
  · cases h

theorem item_of_lt {s : PCSR} {i : Nat} (h : i < s.items.length) : s.item i = .ok s.items[i] := by
  unfold PCSR.item
  rw [List.getElem?_eq_getElem h]

/-! ## Runs -/

theorem exec_bind_ok {p : Op α} {f : α → Op β} {a : α} (h : exec p s = .ok (a, s')) :
    exec (p >>= f) s = exec (f a) s' := Prog.run_bind_ok alone h

theorem exec_bind_error {p : Op α} {f : α → Op β} {e : Fault} (h : exec p s = .error e) :
    exec (p >>= f) s = .error e := Prog.run_bind_error alone h

theorem exec_bind_inv {p : Op α} {f : α → Op β} {b : β} (h : exec (p >>= f) s = .ok (b, s')) :
    ∃ a s1, exec p s = .ok (a, s1) ∧ exec (f a) s1 = .ok (b, s') := by
  rcases hp : exec p s with e | ⟨a, s1⟩
  · rw [exec_bind_error hp] at h
    cases h
  · rw [exec_bind_ok hp] at h
    exact ⟨a, s1, rfl, h⟩

@[simp] theorem exec_pure (a : α) : exec (pure a) s = .ok (a, s) := rfl

theorem exec_look {f : PCSR → Res β} {b : β} (h : f s = .ok b) : exec (look f) s = .ok (b, s) := by
  have hi : alone (.act fun s => (f s).map fun b => (b, s)) s = .ok (b, s) := by
    show (f s).map _ = _
    rw [h]
    rfl
  exact (Prog.run_op_ok alone hi).trans rfl

theorem exec_look_bind {f : PCSR → Res β} {k : β → Op α} {b : β} (h : f s = .ok b) :
    exec (look f >>= k) s = exec (k b) s := exec_bind_ok (exec_look h)

theorem exec_look_error {f : PCSR → Res β} {k : β → Op α} {e : Fault} (h : f s = .error e) :
    exec (look f >>= k) s = .error e := by
  refine exec_bind_error (Prog.run_op_error alone (i := .act _) ?_)
  show (f s).map _ = _
  rw [h]
  rfl

theorem exec_look_inv {f : PCSR → Res β} {k : β → Op α} {a : α}
    (h : exec (look f >>= k) s = .ok (a, s')) : ∃ b, f s = .ok b ∧ exec (k b) s = .ok (a, s') := by
  rcases hf : f s with e | b
  · rw [exec_look_error hf] at h
    cases h
  · rw [exec_look_bind hf] at h
    exact ⟨b, rfl, h⟩

theorem exec_change {f : PCSR → Res PCSR} (h : f s = .ok s') :
    exec (change f) s = .ok ((), s') := by
  have hi : alone (.act fun s => (f s).map fun s' => ((), s')) s = .ok ((), s') := by
    show (f s).map _ = _
    rw [h]
    rfl
  exact (Prog.run_op_ok alone hi).trans rfl

theorem exec_act {f : PCSR → Res (α × PCSR)} {a : α} (h : f s = .ok (a, s')) :
    exec (.perform (.act f) : Op α) s = .ok (a, s') := by
  have hi : alone (.act f) s = .ok (a, s') := h
  exact (Prog.run_op_ok alone hi).trans rfl

/-! ## Programs that only read -/

/-- The state with the counters `c`. -/
def with_counts (c : Nat → Nat) (s : PCSR) : PCSR :=
  { s with nodes := s.nodes.mapIdx fun i n => { n with num_neighbors := c i } }

/-- An instruction that reads the arrays, but no counter of neighbours. -/
def reads : ∀ {β : Type}, Instr β → Prop
  | _, .act f => (∀ s b s', f s = .ok (b, s') → s' = s) ∧
      ∀ c s, f (with_counts c s) = (f s).map fun r => (r.1, with_counts c r.2)
  | _, .test _ _ | _, .leaf _ _ | _, .global _ => False

theorem only_reads_look {f : PCSR → Res β} (hf : ∀ c s, f (with_counts c s) = f s) :
    Prog.Only reads (look f) := by
  refine ⟨⟨fun s b s' h => ?_, fun c s => ?_⟩, fun _ => trivial⟩
  · simp only at h
    obtain ⟨b', -, he⟩ := map_ok h
    exact (Prod.mk.inj he).2.symm
  · simp only [hf]
    cases f s <;> rfl

theorem only_reads_stuck : Prog.Only reads (stuck : Op α) :=
  ⟨⟨fun _ b _ _ => b.elim, fun _ _ => rfl⟩, fun b => b.elim⟩

theorem only_reads_op_look {f : PCSR → Res β} {k : β → Op α} (hf : ∀ c s, f (with_counts c s) = f s)
    (h : ∀ b, Prog.Only reads (k b)) : Prog.Only reads (look f >>= k) :=
  Prog.only_bind (only_reads_look hf) h

theorem only_reads_item {i : Nat} {k : Edge → Op α} (h : ∀ b, Prog.Only reads (k b)) :
    Prog.Only reads (look (·.item i) >>= k) := only_reads_op_look (fun _ _ => rfl) h

theorem only_reads_load {i : Nat} {k : Nat → Op α} (h : ∀ b, Prog.Only reads (k b)) :
    Prog.Only reads (look (·.load i) >>= k) := only_reads_op_look (fun _ _ => rfl) h

theorem exec_reads {p : Op α} (hp : Prog.Only reads p) {a : α} (h : exec p s = .ok (a, s')) :
    s' = s := by
  induction p generalizing s with
  | ret a =>
    cases h
    rfl
  | op i k ih =>
    cases i with
    | act f =>
      rcases hf : f s with e | ⟨b, s1⟩
      · rw [show exec (.op (.act f) k) s = .error e from
          Prog.run_op_error alone (i := .act f) hf] at h
        cases h
      · rw [show exec (.op (.act f) k) s = exec (k b) s1 from
          Prog.run_op_ok alone (i := .act f) hf] at h
        rw [ih b (hp.2 b) h]
        exact hp.1.1 _ _ _ hf
    | test _ _ | leaf _ _ | global _ => exact hp.1.elim

/-- With other counters, the program gives the same. -/
theorem exec_reads_counts {p : Op α} (hp : Prog.Only reads p) (c : Nat → Nat) (s : PCSR) :
    exec p (with_counts c s) = (exec p s).map fun r => (r.1, with_counts c r.2) := by
  induction p generalizing s with
  | ret a => rfl
  | op i k ih =>
    cases i with
    | act f =>
      have hc := hp.1.2 c s
      rcases hf : f s with e | ⟨b, s1⟩
      · rw [hf] at hc
        rw [show exec (.op (.act f) k) s = .error e from
          Prog.run_op_error alone (i := .act f) hf]
        exact Prog.run_op_error alone (i := .act f) hc
      · rw [hf] at hc
        rw [show exec (.op (.act f) k) s = exec (k b) s1 from
          Prog.run_op_ok alone (i := .act f) hf]
        exact (Prog.run_op_ok alone (i := .act f) hc).trans (ih b (hp.2 b) s1)
    | test _ _ | leaf _ _ | global _ => exact hp.1.elim

theorem only_reads_left_scan (ind : Nat) : Prog.Only reads (left_scan ind) := by
  induction ind with
  | zero =>
    unfold left_scan
    refine only_reads_item fun item => ?_
    split
    · exact only_reads_look fun _ _ => rfl
    · trivial
  | succ ind ih =>
    unfold left_scan
    refine only_reads_item fun item => ?_
    split
    · exact ih
    · trivial

/-! ## The items around a slot -/

/-- The slot is in the array and null. -/
def IsGap (s : PCSR) (i : Nat) : Prop := ∃ e, s.items[i]? = some e ∧ e.is_null = true

/-- The first item from slot `i` on. -/
def next_item (s : PCSR) (i : Nat) : Option Edge := (s.items.drop i).find? fun e => !e.is_null

/-- The last item before slot `i`. -/
def prev_item (s : PCSR) (i : Nat) : Option Edge := (s.items.take i).reverse.find? fun e => !e.is_null

theorem next_item_null {s : PCSR} {i : Nat} {e : Edge} (h : s.items[i]? = some e)
    (he : e.is_null = true) : next_item s i = next_item s (i + 1) := by
  obtain ⟨hi, rfl⟩ := List.getElem?_eq_some_iff.mp h
  unfold next_item
  rw [List.drop_eq_getElem_cons hi, List.find?_cons, he]
  rfl

theorem next_item_some {s : PCSR} {i : Nat} {e : Edge} (h : s.items[i]? = some e)
    (he : e.is_null = false) : next_item s i = some e := by
  obtain ⟨hi, rfl⟩ := List.getElem?_eq_some_iff.mp h
  unfold next_item
  rw [List.drop_eq_getElem_cons hi, List.find?_cons, he]
  rfl

theorem next_item_end {s : PCSR} {i : Nat} (h : s.items.length ≤ i) : next_item s i = none := by
  unfold next_item
  rw [List.drop_eq_nil_of_le h]
  rfl

theorem prev_item_zero (s : PCSR) : prev_item s 0 = none := by
  simp [prev_item]

theorem prev_item_succ {s : PCSR} {i : Nat} {e : Edge} (h : s.items[i]? = some e) :
    prev_item s (i + 1) = if e.is_null then prev_item s i else some e := by
  obtain ⟨hi, rfl⟩ := List.getElem?_eq_some_iff.mp h
  unfold prev_item
  rw [List.take_succ_eq_append_getElem hi, List.reverse_append, List.reverse_singleton,
    List.singleton_append, List.find?_cons]
  cases s.items[i].is_null <;> rfl

theorem left_scan_exec {ind : Nat} {e : Edge} (h : prev_item s (ind + 1) = some e)
    (hi : ind < s.items.length) : exec (left_scan ind) s = .ok (e, s) := by
  induction ind with
  | zero =>
    unfold left_scan
    rw [exec_look_bind (item_of_lt hi)]
    rw [prev_item_succ (List.getElem?_eq_getElem hi)] at h
    split at h
    · cases h
    · cases h
      rw [if_neg ‹_›]
      rfl
  | succ ind ih =>
    unfold left_scan
    rw [exec_look_bind (item_of_lt hi)]
    rw [prev_item_succ (List.getElem?_eq_getElem hi)] at h
    split at h
    · rw [if_pos ‹_›]
      exact ih h (by omega)
    · cases h
      rw [if_neg ‹_›]
      rfl

theorem left_scan_ok {ind : Nat} {e : Edge} (h : exec (left_scan ind) s = .ok (e, s')) :
    prev_item s (ind + 1) = some e := by
  induction ind with
  | zero =>
    unfold left_scan at h
    obtain ⟨item, hitem, h⟩ := exec_look_inv h
    rw [prev_item_succ (item_ok hitem)]
    split at h
    · obtain ⟨_, hf, -⟩ := exec_look_inv (f := fun _ => .error (.slot UINT32_MAX)) (k := pure) h
      cases hf
    · rw [if_neg ‹_›]
      cases h
      rfl
  | succ ind ih =>
    unfold left_scan at h
    obtain ⟨item, hitem, h⟩ := exec_look_inv h
    rw [prev_item_succ (item_ok hitem)]
    split at h
    · rw [if_pos ‹_›]
      exact ih h
    · rw [if_neg ‹_›]
      cases h
      rfl

end

end packed_csr
