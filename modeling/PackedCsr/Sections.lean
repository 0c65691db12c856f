-- The calls of the global lock in one operation: they come in sections, each opened
-- and closed, and an operation on a vertex of the graph opens one first.
import PackedCsr.LockCalls

namespace packed_csr

open effects

/-! ## Programs that leave the global lock alone -/

/-- An instruction that is no call of the global lock. -/
def calm : ∀ {β : Type}, Instr β → Prop
  | _, .global _ => False
  | _, .act _ | _, .test _ _ | _, .leaf _ _ => True

section

variable {α β : Type}

theorem calm_of_reads {p : Op α} (h : Prog.Only reads p) : Prog.Only calm p := by
  induction p with
  | ret a => trivial
  | op i k ih =>
    refine ⟨?_, fun b => ih b (h.2 b)⟩
    cases i with
    | act f => trivial
    | test t b => trivial
    | leaf c i => trivial
    | global c => exact h.1.elim

theorem calm_look (f : PCSR → Res β) : Prog.Only calm (look f) := ⟨trivial, fun _ => trivial⟩

theorem calm_change (f : PCSR → Res PCSR) : Prog.Only calm (change f) :=
  ⟨trivial, fun _ => trivial⟩

theorem calm_test (t : Test) (b : Bool) : Prog.Only calm (test t b) := ⟨trivial, fun _ => trivial⟩

theorem calm_leaf (c : LeafCall) (i : Nat) : Prog.Only calm (leaf c i) :=
  ⟨trivial, fun _ => trivial⟩

theorem calm_stuck : Prog.Only calm (stuck : Op α) := calm_of_reads only_reads_stuck

theorem calm_leaf_if (b : Bool) (c : LeafCall) (i : Nat) : Prog.Only calm (leaf_if b c i) := by
  cases b with
  | false => trivial
  | true => exact calm_leaf c i

theorem calm_leaf_loop (c : LeafCall) (a n : Nat) : Prog.Only calm (leaf_loop c a n) := by
  induction n generalizing a with
  | zero => trivial
  | succ n ih => exact Prog.only_bind (calm_leaf c a) fun _ => ih _

theorem calm_leaf_range (c : LeafCall) (a b : Nat) : Prog.Only calm (leaf_range c a b) :=
  calm_leaf_loop c a _

theorem calm_release_loop (a rest : Nat) : Prog.Only calm (release_loop a rest) := by
  induction rest generalizing a with
  | zero => trivial
  | succ rest ih =>
    exact Prog.only_bind (calm_change _) fun _ => Prog.only_bind (calm_leaf _ _) fun _ => ih _

theorem calm_release_locks (mn mx : Nat) : Prog.Only calm (release_locks mn mx) :=
  calm_release_loop _ _

theorem calm_lock_up_to (rest mx : Nat) : Prog.Only calm (lock_up_to rest mx) := by
  induction rest generalizing mx with
  | zero => trivial
  | succ rest ih => exact Prog.only_bind (calm_leaf _ _) fun _ => ih _

theorem calm_search (N : Nat) (elem : Edge) (start end_ : Nat) (unlock : Bool) :
    Prog.Only calm (binary_search N elem start end_ unlock) := by
  have hunlock : ∀ a b, Prog.Only calm (nodes_unlock_shared unlock a b) := by
    intro a b
    unfold nodes_unlock_shared
    split
    · exact calm_leaf_range _ _ _
    · trivial
  unfold binary_search
  apply Prog.only_bind (calm_of_reads (only_reads_search_loop _ _ _ _ _))
  rintro (found | ⟨a, b⟩)
  · exact Prog.only_bind (hunlock _ _) fun _ => trivial
  · apply Prog.only_bind (calm_look _)
    intro v
    apply Prog.only_bind (calm_look _)
    intro item
    split
    · exact Prog.only_bind (hunlock _ _) fun _ => trivial
    · apply Prog.only_bind (calm_look _)
      intro v2
      exact Prog.only_bind (hunlock _ _) fun _ => trivial

/-! ## The position of an edge -/

theorem calm_right_scan (N rest ind curr_n mx : Nat) :
    Prog.Only calm (right_scan N rest ind curr_n mx) := by
  induction rest generalizing ind curr_n mx with
  | zero => trivial
  | succ rest ih =>
    apply Prog.only_bind (calm_leaf_if _ _ _)
    intro _
    apply Prog.only_bind (calm_look _)
    intro item
    split
    · exact ih _ _ _
    · trivial

theorem calm_got_correct (N : Nat) (ins_edge : Edge) (src index : Nat) (elem : Edge) (ni mx : Nat) :
    Prog.Only calm (got_correct_insertion_index N ins_edge src index elem ni mx) := by
  apply Prog.only_bind (calm_look _)
  intro n
  have htail : ∀ r : Option Edge × Nat, Prog.Only calm
      (do
        if r.1.any (wrong_right n src elem.dest) then return (false, r.2)
        if index = 0 then look fun _ => .error (.slot UINT32_MAX)
        let item ← left_scan (index - 1)
        if wrong_left src elem.dest item then return (false, r.2)
        return (true, r.2)) := by
    intro r
    have hleft : Prog.Only calm (do
        let item ← left_scan (index - 1)
        if wrong_left src elem.dest item then return (false, r.2)
        return (true, r.2)) := by
      apply Prog.only_bind (calm_of_reads (only_reads_left_scan _))
      intro item
      split <;> trivial
    split
    · trivial
    · dsimp only
      split
      · exact Prog.only_bind (calm_look _) fun _ => hleft
      · exact hleft
  split
  · trivial
  · split
    · trivial
    · dsimp only
      split
      · exact Prog.only_bind (calm_right_scan _ _ _ _ _) htail
      · exact htail (none, mx)

/-! ## The plan of an insertion -/

theorem calm_insert_first_locks (lock_bsearch : Bool) (node_id : Nat) (left : Option Nat) :
    Prog.Only calm (insert_first_locks lock_bsearch node_id left) := by
  cases left with
  | some left => exact Prog.only_bind (calm_leaf_range _ _ _) fun _ => trivial
  | none =>
    unfold insert_first_locks
    dsimp only
    split
    · apply Prog.only_bind (calm_leaf _ _)
      intro _
      exact Prog.only_bind (calm_leaf _ _) fun _ => trivial
    · exact Prog.only_bind (calm_leaf _ _) fun _ => trivial

theorem calm_insert_plan_climb (N rest len : Nat) (level : Int) (ni mn mx : Nat) :
    Prog.Only calm (insert_plan_climb N rest len level ni mn mx) := by
  induction rest generalizing len level ni mn mx with
  | zero => exact calm_stuck
  | succ rest ih =>
    apply Prog.only_bind (calm_look _)
    intro b
    apply Prog.only_bind (calm_look _)
    intro d
    split
    · dsimp only
      split
      · split
        · split
          · exact Prog.only_bind (calm_leaf_range _ _ _) fun _ => trivial
          · exact ih _ _ _ _ _
        · exact Prog.only_bind (calm_lock_up_to _ _) fun _ => ih _ _ _ _ _
      · exact Prog.only_bind (calm_leaf_range _ _ _) fun _ => trivial
    · trivial

theorem calm_insert_plan_window (N ni mn mx : Nat) :
    Prog.Only calm (insert_plan_window N ni mn mx) := by
  apply Prog.only_bind (calm_look _)
  intro d
  dsimp only
  split
  · exact Prog.only_bind (calm_leaf_range _ _ _) fun _ => trivial
  · apply Prog.only_bind (calm_leaf_if _ _ _)
    intro _
    apply Prog.only_bind (calm_insert_plan_climb _ _ _ _ _ _ _)
    intro c
    cases c with
    | root => trivial
    | restart left => trivial
    | window len ni mn mx =>
      dsimp only
      split
      · split
        · exact Prog.only_bind (calm_leaf_range _ _ _) fun _ => trivial
        · trivial
      · exact Prog.only_bind (calm_lock_up_to _ _) fun _ => trivial

theorem calm_slide_right_locks (N rest ind node idx mx : Nat) :
    Prog.Only calm (slide_right_locks N rest ind node idx mx) := by
  induction rest generalizing ind node idx mx with
  | zero => trivial
  | succ rest ih =>
    apply Prog.only_bind (calm_leaf_if _ _ _)
    intro _
    apply Prog.only_bind (calm_look _)
    intro item
    split
    · trivial
    · exact ih _ _ _ _

theorem calm_slide_left_locks (N index node idx mn : Nat) :
    Prog.Only calm (slide_left_locks N index node idx mn) := by
  induction index generalizing node idx with
  | zero => trivial
  | succ ind ih =>
    apply Prog.only_bind (calm_look _)
    intro item
    split
    · trivial
    · split
      · dsimp only
        split
        · trivial
        · exact ih _ _
      · exact ih _ _

theorem calm_insert_plan_slide (N index len ni mn mx : Nat) :
    Prog.Only calm (insert_plan_slide N index len ni mn mx) := by
  apply Prog.only_bind (calm_look _)
  intro item
  split
  · trivial
  · apply Prog.only_bind (calm_slide_right_locks _ _ _ _ _ _)
    rintro ⟨off_end, mx'⟩
    dsimp only
    split
    · trivial
    · apply Prog.only_bind (calm_slide_left_locks _ _ _ _ _)
      rintro ⟨left, none_left⟩
      cases left with
      | some left => exact Prog.only_bind (calm_leaf_range _ _ _) fun _ => trivial
      | none =>
        dsimp only
        split
        · exact Prog.only_bind (calm_leaf_range _ _ _) fun _ => trivial
        · trivial

/-- The part of a try behind its tests. -/
theorem calm_insert_plan (N index mn : Nat) {f : Climb → Op (Nat ⊕ (Acquired × Option insertion_info))}
    (hroot : ∃ r, f .root = pure r) (hrestart : ∀ left, ∃ r, f (.restart left) = pure r)
    (hwindow : ∀ len ni mn mx, f (.window len ni mn mx) = insert_plan_slide N index len ni mn mx)
    (r : Bool × Nat) :
    Prog.Only calm
      (do
        if !r.1 then
          leaf_range .unlock mn r.2
          return .inr (.special .NEED_RETRY, none)
        insert_plan_window N (find_leaf N index) mn r.2 >>= f) := by
  split
  · exact Prog.only_bind (calm_leaf_range _ _ _) fun _ => trivial
  · apply Prog.only_bind (calm_insert_plan_window _ _ _ _)
    intro c
    cases c with
    | root =>
      obtain ⟨r, hr⟩ := hroot
      rw [hr]
      trivial
    | restart left =>
      obtain ⟨r, hr⟩ := hrestart left
      rw [hr]
      trivial
    | window len ni mn mx =>
      rw [hwindow]
      exact calm_insert_plan_slide _ _ _ _ _ _

theorem calm_insert_try (N : Nat) (lock_bsearch : Bool) (index : Nat) (elem : Edge) (src v : Nat)
    (left : Option Nat) : Prog.Only calm (insert_try N lock_bsearch index elem src v left) := by
  unfold insert_try
  dsimp only
  apply Prog.only_bind (calm_insert_first_locks _ _ _)
  intro mn
  apply Prog.only_bind (calm_look _)
  intro version
  apply Prog.only_bind (calm_test _ _)
  intro changed
  split
  · exact Prog.only_bind (calm_leaf_range _ _ _) fun _ => trivial
  · apply Prog.only_bind (calm_look _)
    intro item
    split
    · exact Prog.only_bind (calm_leaf_range _ _ _) fun _ => trivial
    · split
      · exact calm_insert_plan N index mn ⟨_, rfl⟩ (fun _ => ⟨_, rfl⟩) (fun _ _ _ _ => rfl) (true, _)
      · apply Prog.only_bind (calm_look _)
        intro ins_edge
        apply Prog.only_bind (calm_got_correct _ _ _ _ _ _ _)
        intro r
        apply Prog.only_bind (calm_test _ _)
        intro rejected
        exact calm_insert_plan N index mn ⟨_, rfl⟩ (fun _ => ⟨_, rfl⟩) (fun _ _ _ _ => rfl)
          (!rejected, r.2)

theorem calm_acquire_insert_locks (N : Nat) (lock_bsearch : Bool) (index : Nat) (elem : Edge)
    (src v tries : Nat) (left : Option Nat) :
    Prog.Only calm (acquire_insert_locks N lock_bsearch index elem src v tries left) := by
  induction tries generalizing left with
  | zero => trivial
  | succ tries ih =>
    apply Prog.only_bind (calm_insert_try _ _ _ _ _ _ _)
    intro r
    cases r with
    | inl left => exact ih _
    | inr r => trivial

/-! ## The plan of a removal -/

theorem calm_remove_plan_climb (N rest len : Nat) (level : Int) (ni mn mx : Nat) :
    Prog.Only calm (remove_plan_climb N rest len level ni mn mx) := by
  induction rest generalizing len level ni mn mx with
  | zero => exact calm_stuck
  | succ rest ih =>
    apply Prog.only_bind (calm_look _)
    intro b
    apply Prog.only_bind (calm_look _)
    intro d
    split
    · dsimp only
      split
      · split
        · exact Prog.only_bind (calm_leaf_range _ _ _) fun _ => trivial
        · exact Prog.only_bind (calm_lock_up_to _ _) fun _ => ih _ _ _ _ _
      · trivial
    · trivial

theorem calm_remove_plan_window (N ni mn mx : Nat) :
    Prog.Only calm (remove_plan_window N ni mn mx) := by
  apply Prog.only_bind (calm_remove_plan_climb _ _ _ _ _ _ _)
  intro c
  cases c with
  | root => trivial
  | restart left => trivial
  | window len ni mn mx =>
    dsimp only
    split
    · exact Prog.only_bind (calm_leaf_range _ _ _) fun _ => trivial
    · exact Prog.only_bind (calm_lock_up_to _ _) fun _ => trivial

theorem calm_remove_try (N index : Nat) (elem : Edge) (src v : Nat) (left : Option Nat) :
    Prog.Only calm (remove_try N index elem src v left) := by
  have hfirst : ∀ node_id, Prog.Only calm (remove_first_locks node_id left) := by
    intro node_id
    cases left with
    | some left => exact Prog.only_bind (calm_leaf_range _ _ _) fun _ => trivial
    | none => exact Prog.only_bind (calm_leaf _ _) fun _ => trivial
  apply Prog.only_bind (hfirst _)
  intro mn
  apply Prog.only_bind (calm_look _)
  intro ins_edge
  apply Prog.only_bind (calm_got_correct _ _ _ _ _ _ _)
  rintro ⟨correct, mx⟩
  apply Prog.only_bind (calm_test _ _)
  intro rejected
  split
  · exact Prog.only_bind (calm_leaf_range _ _ _) fun _ => trivial
  · apply Prog.only_bind (calm_look _)
    intro version
    apply Prog.only_bind (calm_test _ _)
    intro changed
    split
    · exact Prog.only_bind (calm_leaf_range _ _ _) fun _ => trivial
    · apply Prog.only_bind (calm_look _)
      intro item
      split
      · exact Prog.only_bind (calm_leaf_range _ _ _) fun _ => trivial
      · exact calm_remove_plan_window _ _ _ _

theorem calm_acquire_remove_locks (N index : Nat) (elem : Edge) (src v rest : Nat)
    (left : Option Nat) :
    Prog.Only calm (acquire_remove_locks N index elem src v rest left) := by
  induction rest generalizing left with
  | zero => exact calm_stuck
  | succ rest ih =>
    apply Prog.only_bind (calm_remove_try _ _ _ _ _ _)
    intro r
    cases r with
    | inl left => exact ih _
    | inr a => trivial

theorem calm_remove (index : Nat) (elem : Edge) : Prog.Only calm (remove index elem) := by
  have hdrop : ∀ rest i, Prog.Only calm (drop_locks rest i) := by
    intro rest
    induction rest with
    | zero => exact fun _ => trivial
    | succ rest ih =>
      intro i
      exact Prog.only_bind (calm_leaf _ _) fun _ => Prog.only_bind (calm_leaf _ _) fun _ => ih _
  have hperform : Prog.Only calm (.perform (.act fun s => remove_items s index elem) : Op Bool) :=
    ⟨trivial, fun _ => trivial⟩
  apply Prog.only_bind hperform
  intro halve
  split
  · apply Prog.only_bind (calm_look _)
    intro old
    apply Prog.only_bind (calm_change _)
    intro _
    apply Prog.only_bind (calm_look _)
    intro new
    exact Prog.only_bind (hdrop _ _) fun _ => calm_change _
  · trivial

/-! ## Sections -/

/-- Where an operation stands between two calls of the global lock. -/
inductive Section
  | outside
  | shared
  | exclusive
deriving DecidableEq

/-- Where a call leads. -/
def GlobalCall.next : GlobalCall → Section
  | .lock => .exclusive
  | .lock_shared => .shared
  | .unlock | .unlock_shared => .outside

/-- Where a call may come. -/
def GlobalCall.from_ : GlobalCall → Section
  | .lock | .lock_shared => .outside
  | .unlock => .exclusive
  | .unlock_shared => .shared

/-- An access finds any array of `n` vertices: nothing that runs beside an operation on edges
adds one. -/
def answers (n : Nat) : ∀ {β : Type}, Instr β → β → Prop
  | _, .act f, b => ∃ s s', s.get_n = n ∧ f s = .ok (b, s')
  | _, .test _ _, _ | _, .leaf _ _, _ | _, .global _, _ => True

def Instr.next : ∀ {β : Type}, Instr β → Section → Section
  | _, .global c, _ => c.next
  | _, .act _, w | _, .test _ _, w | _, .leaf _ _, w => w

def sections.ask : ∀ {β : Type}, Instr β → Section → Prop
  | _, .global c, w => w = c.from_
  | _, .act _, _ | _, .test _ _, _ | _, .leaf _ _, _ => True

def sections.can (n : Nat) {β : Type} (i : Instr β) (w : Section) (b : β) (w' : Section) : Prop :=
  answers n i b ∧ w' = i.next w

def sections (n : Nat) : Prog.Rule Instr Section := ⟨sections.ask, sections.can n⟩

variable {n : Nat} {w : Section}

theorem calm_next {i : Instr β} (h : calm i) (w : Section) : sections.ask i w ∧ i.next w = w := by
  cases i with
  | act f => exact ⟨trivial, rfl⟩
  | test t b => exact ⟨trivial, rfl⟩
  | leaf c i => exact ⟨trivial, rfl⟩
  | global c => exact h.elim

theorem meets_calm {p : Op α} (h : Prog.Only calm p) :
    Prog.Meets (sections n) p (fun _ w' => w' = w) w := by
  induction p with
  | ret a => rfl
  | op i k ih =>
    obtain ⟨hask, hnext⟩ := calm_next h.1 w
    refine ⟨hask, ?_⟩
    rintro b w' ⟨-, rfl⟩
    rw [hnext]
    exact ih b (h.2 b)

/-- A calm program before the rest. -/
theorem meets_calm_then {p : Op α} {f : α → Op β} {Q : β → Section → Prop} (h : Prog.Only calm p)
    (hf : ∀ a, Prog.Meets (sections n) (f a) Q w) : Prog.Meets (sections n) (p >>= f) Q w := by
  refine Prog.meets_seq (meets_calm h) ?_
  rintro a _ rfl
  exact hf a

/-- A call before the rest. -/
theorem meets_call_then {c : GlobalCall} {f : Unit → Op β} {Q : β → Section → Prop}
    (hf : Prog.Meets (sections n) (f ()) Q c.next) :
    Prog.Meets (sections n) (global c >>= f) Q c.from_ := by
  refine ⟨rfl, ?_⟩
  rintro _ _ ⟨-, rfl⟩
  exact hf

/-- The operation is outside. -/
def Outside : α → Section → Prop := fun _ w => w = .outside

theorem calm_insert_global (e : Edge) (src : Nat) (info : Option insertion_info) :
    Prog.Only calm (insert_global e src info) := by
  apply Prog.only_bind (calm_look _)
  intro N
  apply Prog.only_bind (calm_look _)
  intro node
  apply Prog.only_bind (calm_search _ _ _ _ _)
  intro r
  exact calm_change _

theorem sections_add_commit (N : Nat) (lock_bsearch : Bool) (e : Edge) (src loc v : Nat) :
    Prog.Meets (sections n) (add_commit N lock_bsearch e src loc v) Outside .shared := by
  apply meets_calm_then (calm_acquire_insert_locks _ _ _ _ _ _ _ _)
  rintro ⟨acquired, info⟩
  rcases acquired with (_ | _ | _) | ⟨mn, mx⟩
  · apply meets_call_then (c := .unlock_shared)
    apply meets_call_then (c := .lock)
    apply meets_calm_then (calm_insert_global _ _ _)
    intro _
    apply meets_call_then (c := .unlock)
    rfl
  · apply meets_calm_then (calm_change _)
    intro _
    apply meets_call_then (c := .unlock_shared)
    rfl
  · apply meets_call_then (c := .unlock_shared)
    apply meets_call_then (c := .lock)
    apply meets_calm_then (calm_insert_global _ _ _)
    intro _
    apply meets_call_then (c := .unlock)
    rfl
  · apply meets_calm_then (calm_change _)
    intro _
    apply meets_calm_then (calm_release_locks _ _)
    intro _
    apply meets_call_then (c := .unlock_shared)
    rfl

theorem sections_add_edge_try (e : Edge) (src : Nat) :
    Prog.Meets (sections n) (add_edge_try e src) Outside .outside := by
  apply meets_call_then (c := .lock_shared)
  apply meets_calm_then (calm_look _)
  intro N
  apply meets_calm_then (calm_look _)
  intro lock_bsearch
  apply meets_calm_then (calm_look _)
  intro node
  apply meets_calm_then (calm_change _)
  intro _
  have hsearch : Prog.Meets (sections n) (add_search N lock_bsearch e src node)
      (fun r w => w = if r.isNone then .outside else .shared) .shared := by
    unfold add_search
    dsimp only
    split
    · apply meets_calm_then (calm_leaf_range _ _ _)
      intro _
      apply meets_calm_then (calm_look _)
      intro now
      apply meets_calm_then (calm_test _ _)
      intro changed
      split
      · apply meets_calm_then (calm_leaf_range _ _ _)
        intro _
        apply meets_call_then (c := .unlock_shared)
        apply meets_calm_then (calm_change _)
        intro _
        rfl
      · apply meets_calm_then (calm_search _ _ _ _ _)
        intro bs
        rfl
    · apply meets_calm_then (calm_search _ _ _ _ _)
      intro bs
      split
      · apply meets_calm_then (calm_change _)
        intro _
        apply meets_call_then (c := .unlock_shared)
        rfl
      · rfl
  refine Prog.meets_seq hsearch ?_
  rintro (_ | ⟨loc, v⟩) _ rfl
  · rfl
  · exact sections_add_commit _ _ _ _ _ _

theorem sections_add_edge (src dest value tries : Nat) :
    Prog.Meets (sections n) (add_edge_parallel src dest value tries) Outside .outside := by
  induction tries with
  | zero =>
    apply meets_calm_then (calm_look _)
    intro m
    split
    · apply meets_call_then (c := .lock)
      apply meets_calm_then (calm_change _)
      intro _
      apply meets_calm_then (calm_insert_global _ _ _)
      intro _
      apply meets_call_then (c := .unlock)
      rfl
    · rfl
  | succ tries ih =>
    apply meets_calm_then (calm_look _)
    intro m
    split
    · refine Prog.meets_seq (sections_add_edge_try _ _) ?_
      rintro again _ rfl
      split
      · exact ih
      · rfl
    · rfl

theorem sections_remove_edge (src dest calls : Nat) :
    Prog.Meets (sections n) (remove_edge src dest calls) Outside .outside := by
  induction calls with
  | zero => exact Prog.meets_mono (meets_calm calm_stuck) fun _ _ h => h
  | succ calls ih =>
    have htry : Prog.Meets (sections n) (remove_edge_try src dest) Outside .outside := by
      apply meets_call_then (c := .lock_shared)
      apply meets_calm_then (calm_look _)
      intro N
      apply meets_calm_then (calm_look _)
      intro lock_bsearch
      apply meets_calm_then (calm_look _)
      intro node
      have hsearch : Prog.Meets (sections n) (remove_search N lock_bsearch ⟨src, dest, 1⟩ src node)
          (fun r w => w = if r.isNone then .outside else .shared) .shared := by
        unfold remove_search
        dsimp only
        split
        · apply meets_calm_then (calm_leaf_range _ _ _)
          intro _
          apply meets_calm_then (calm_look _)
          intro now
          apply meets_calm_then (calm_test _ _)
          intro changed
          split
          · apply meets_calm_then (calm_leaf_range _ _ _)
            intro _
            apply meets_call_then (c := .unlock_shared)
            rfl
          · apply meets_calm_then (calm_search _ _ _ _ _)
            intro bs
            apply meets_calm_then (calm_look _)
            intro v
            apply meets_calm_then (calm_leaf_range _ _ _)
            intro _
            rfl
        · apply meets_calm_then (calm_look _)
          intro now
          apply meets_calm_then (calm_search _ _ _ _ _)
          intro bs
          rfl
      refine Prog.meets_seq hsearch ?_
      rintro (_ | ⟨loc, v⟩) _ rfl
      · rfl
      apply meets_calm_then (calm_change _)
      intro _
      apply meets_calm_then (calm_acquire_remove_locks _ _ _ _ _ _ _)
      intro acquired
      rcases acquired with (_ | _ | _) | ⟨mn, mx⟩
      · apply meets_calm_then (calm_leaf_range _ _ _)
        intro _
        apply meets_call_then (c := .unlock_shared)
        apply meets_call_then (c := .lock)
        have hglobal : Prog.Only calm (remove_global ⟨src, dest, 1⟩ src) := by
          apply Prog.only_bind (calm_look _)
          intro N
          apply Prog.only_bind (calm_look _)
          intro node
          apply Prog.only_bind (calm_search _ _ _ _ _)
          intro r
          exact calm_remove _ _
        apply meets_calm_then hglobal
        intro _
        apply meets_call_then (c := .unlock)
        rfl
      · apply meets_calm_then (calm_change _)
        intro _
        apply meets_call_then (c := .unlock_shared)
        rfl
      · apply meets_call_then (c := .unlock_shared)
        rfl
      · apply meets_calm_then (calm_remove _ _)
        intro _
        apply meets_calm_then (calm_release_locks _ _)
        intro _
        apply meets_call_then (c := .unlock_shared)
        rfl
    refine Prog.meets_seq htry ?_
    rintro again _ rfl
    split
    · exact ih
    · rfl

/-- Each operation closes the sections that it opens. -/
theorem call_meets_sections (c : Call) (calls : Nat) :
    Prog.Meets (sections n) (c.prog calls) Outside .outside := by
  cases c with
  | add_edge src dest value => exact sections_add_edge src dest value 4
  | remove_edge src dest => exact sections_remove_edge src dest calls

/-! ## The first section -/

/-- The program comes to a call of the global lock before it ends. -/
def Enters (n : Nat) : Op α → Prop
  | .ret _ => False
  | .op i k => ¬ calm i ∨ ∀ b, answers n i b → Enters n (k b)

theorem enters_add_edge {src : Nat} (hsrc : src < n) (dest : Nat) :
    Enters n (add_edge src dest 1) := by
  right
  rintro m ⟨s, s', rfl, h⟩
  obtain ⟨rfl, -⟩ := Prod.mk.inj (Except.ok.inj h)
  show Enters s.get_n (if _ then _ else _)
  rw [if_pos ⟨by decide, hsrc⟩]
  exact .inl fun h => h

theorem enters_remove_edge (src dest calls : Nat) : Enters n (remove_edge src dest calls) := by
  cases calls with
  | zero => exact .inr fun b => b.elim
  | succ calls => exact .inl fun h => h

end

end packed_csr
