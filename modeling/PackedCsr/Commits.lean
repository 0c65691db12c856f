-- Insertions and removals of many threads at once, each a search and a commit, and a part under the
-- global lock where the commit asks for it. The law: the array holds what the calls, in the order in
-- which they take effect, make of the graph, as long as none works at a slot that the others have
-- made wrong and whose validation is blind to it.
import PackedCsr.References
import PackedCsr.Races
import PackedCsr.Traces

namespace packed_csr

open effects

/-! ## The parts of `remove_edge` -/

/-- A try of `remove_edge` up to its search: the slot for the edge and the version of its leaf. -/
def remove_edge_search (e : Edge) (src : Nat) : Op (Option (Nat × Nat)) := do
  global .lock_shared
  let N ← look fun s => .ok s.N
  let lock_bsearch ← look fun s => .ok s.lock_bsearch
  let node ← look (·.node src)
  remove_search N lock_bsearch e src node

/-- The rest of the try. -/
def remove_edge_commit (e : Edge) (src loc_to_rem ins_node_v : Nat) : Op Bool := do
  let N ← look fun s => .ok s.N
  change (·.count_neighbors src decr32)
  remove_commit N e src loc_to_rem ins_node_v

/-! ## The parts of a call -/

def Call.search : Call → Op (Option (Nat × Nat))
  | .add_edge src dest value => add_edge_search ⟨src, dest, value⟩ src
  | .remove_edge src dest => remove_edge_search ⟨src, dest, 1⟩ src

/-- What the search of a call counts. -/
def Call.count (s : PCSR) : Call → Res PCSR
  | .add_edge src _ _ => s.count_neighbors src incr32
  | .remove_edge _ _ => .ok s

/-- What a search may give. With its locks it reads the array as it stands there. Without them it may
read while other threads write, and give any slot and any version. -/
def Call.Gives (s : PCSR) (c : Call) (p v : Nat) (s' : PCSR) : Prop :=
  exec c.search s = .ok (some (p, v), s') ∨
    (s.lock_bsearch = false ∧ 0 < p ∧ p < s.N ∧ c.count s = .ok s')

def Call.commit (loc ins_node_v : Nat) : Call → Op Bool
  | .add_edge src dest value => add_edge_commit ⟨src, dest, value⟩ src loc ins_node_v
  | .remove_edge src dest => remove_edge_commit ⟨src, dest, 1⟩ src loc ins_node_v

/-- How the planner of a commit ends: its answer, the plan of an insertion, and the array. -/
def Call.Plans (s : PCSR) (p v : Nat) (acquired : Acquired) (info : Option insertion_info) (s' : PCSR) :
    Call → Prop
  | .add_edge src dest value =>
    exec (acquire_insert_locks s.N s.lock_bsearch p ⟨src, dest, value⟩ src v 4 none) s =
      .ok ((acquired, info), s')
  | .remove_edge src dest => ∃ s1, s.count_neighbors src decr32 = .ok s1 ∧ info = none ∧
      exec (acquire_remove_locks s1.N p ⟨src, dest, 1⟩ src v (s1.N + 2) none) s1 = .ok (acquired, s')

/-- The part of a call under the global lock. -/
def Call.whole (info : Option insertion_info) : Call → Op Unit
  | .add_edge src dest value => do
    global .lock
    insert_global ⟨src, dest, value⟩ src info
    global .unlock
  | .remove_edge src dest => do
    global .lock
    remove_global ⟨src, dest, 1⟩ src
    global .unlock

/-- The validation of a slot does not see two things: that it is a gap in the region of another vertex,
and that the edge stands elsewhere. -/
def Blind (s : PCSR) (e : Edge) (p : Nat) : Prop := ForeignGap s e.src p ∨ ∃ q, q ≠ p ∧ Stores s e q

/-- What has to be right at the slot of a commit. An insertion needs it to be the place of its edge, and
an array that takes it there: it validates the slot only where its search takes no locks. A removal
that answers that there is no such edge needs a slot that its validation is not blind to. -/
def Call.RightAt (s : PCSR) (p : Nat) : Acquired → Call → Prop
  | .range _ _, .add_edge src dest value => Takes s ⟨src, dest, value⟩ p ∧
      if s.lock_bsearch then Place s ⟨src, dest, value⟩ p ∨ PastEnd s ⟨src, dest, value⟩ p
      else ¬ Blind s ⟨src, dest, value⟩ p
  | .special .EDGE_NOT_FOUND, .remove_edge src dest => ¬ Blind s ⟨src, dest, 1⟩ p
  | _, _ => True

/-! ## Threads -/

/-- A thread in a call: between its search and its commit, with the slot and the version of its leaf; or
on its way to the global lock, with the plan of an insertion. -/
inductive CallStage
  | ticket (call : Call) (loc ins_node_v : Nat)
  | waiting (call : Call) (info : Option insertion_info)

/-- The array, and the threads of `T` that are in a call. -/
structure Crowd (T : Type) where
  s : PCSR
  stage : T → Option CallStage

/-- The array, and no thread active. -/
def Crowd.start (T : Type) (s : PCSR) : Crowd T := ⟨s, fun _ => none⟩

/-- No thread holds the global lock shared. -/
def Crowd.Clear {T : Type} (m : Crowd T) : Prop := ∀ j c p v, m.stage j ≠ some (.ticket c p v)

section

variable {T : Type} [DecidableEq T]

def Crowd.turn (m : Crowd T) (i : T) (s' : PCSR) (st : Option CallStage) : Crowd T :=
  ⟨s', Function.update m.stage i st⟩

/-- One atomic step of a thread that is right, with the call that takes effect in it. -/
inductive CrowdStep : Crowd T → Option Call → Crowd T → Prop
  | search {m : Crowd T} {i : T} {c : Call} {p v : Nat} {s' : PCSR} (hidle : m.stage i = none)
      (hc : c.Valid m.s.get_n) (hrun : c.Gives m.s p v s') :
      CrowdStep m none (m.turn i s' (some (.ticket c p v)))
  /-- The planner answers with leaves, that there is no such edge, or that the array has changed. -/
  | commit {m : Crowd T} {i : T} {c : Call} {p v : Nat} {acquired : Acquired}
      {info : Option insertion_info} {u s' : PCSR} {again : Bool} (hi : m.stage i = some (.ticket c p v))
      (hplan : c.Plans m.s p v acquired info u) (hleaves : acquired ≠ .special .NEED_GLOBAL_WRITE)
      (hright : c.RightAt m.s p acquired) (hrun : exec (c.commit p v) m.s = .ok (again, s')) :
      CrowdStep m (if again then none else some c) (m.turn i s' none)
  /-- The planner answers that it needs the global lock. -/
  | escalate {m : Crowd T} {i : T} {c : Call} {p v : Nat} {info : Option insertion_info} {s' : PCSR}
      (hi : m.stage i = some (.ticket c p v))
      (hplan : c.Plans m.s p v (.special .NEED_GLOBAL_WRITE) info s') :
      CrowdStep m none (m.turn i s' (some (.waiting c info)))
  | whole {m : Crowd T} {i : T} {c : Call} {info : Option insertion_info} {s' : PCSR}
      (hi : m.stage i = some (.waiting c info)) (hclear : m.Clear) (hfit : c.Fits m.s)
      (hrun : exec (c.whole info) m.s = .ok ((), s')) :
      CrowdStep m (some c) (m.turn i s' none)
  /-- The fifth try of `add_edge`. -/
  | locked {m : Crowd T} {src dest value : Nat} {s' : PCSR} (hclear : m.Clear)
      (hc : (Call.add_edge src dest value).Valid m.s.get_n)
      (hfit : (Call.add_edge src dest value).Fits m.s)
      (hrun : exec (add_edge_locked ⟨src, dest, value⟩ src) m.s = .ok ((), s')) :
      CrowdStep m (some (.add_edge src dest value)) ⟨s', m.stage⟩

end

section

variable {s s' u : PCSR} {e : Edge} {p v : Nat} {acquired : Acquired} {info : Option insertion_info}

/-! ## What the planners answer -/

/-- The planner of an insertion never answers that there is no such edge. -/
def Insertion (r : Nat ⊕ (Acquired × Option insertion_info)) : Prop :=
  ∀ info, r ≠ .inr (.special .EDGE_NOT_FOUND, info)

theorem every_insert_plan_slide (N index len node_index min_node max_node : Nat) :
    Prog.Every Insertion (insert_plan_slide N index len node_index min_node max_node) := by
  unfold insert_plan_slide
  refine Prog.every_bind fun item => ?_
  split
  · rintro info h
    cases h
  refine Prog.every_bind fun r => ?_
  dsimp only
  split
  · rintro info h
    cases h
  refine Prog.every_bind fun r => ?_
  split
  · refine Prog.every_bind fun _ => ?_
    rintro info h
    cases h
  · split
    · refine Prog.every_bind fun _ => ?_
      rintro info h
      cases h
    · rintro info h
      cases h

theorem every_insert_plan {N index : Nat} {f : Climb → Op (Nat ⊕ (Acquired × Option insertion_info))}
    (hroot : f .root = pure (.inr (.special .NEED_GLOBAL_WRITE, some ⟨0, 0, true⟩)))
    (hrestart : ∀ left, f (.restart left) = pure (.inl left))
    (hwindow : ∀ len node_index min_node max_node, f (.window len node_index min_node max_node) =
      insert_plan_slide N index len node_index min_node max_node) (c : Climb) :
    Prog.Every Insertion (f c) := by
  cases c with
  | root =>
    rw [hroot]
    intro info h
    cases h
  | restart left =>
    rw [hrestart]
    intro info h
    cases h
  | window len node_index min_node max_node =>
    rw [hwindow]
    exact every_insert_plan_slide N index len node_index min_node max_node

/-- The tests that a plan of leaves has passed. -/
def Tested (s : PCSR) (lock_bsearch : Bool) (e : Edge) (p v : Nat) : Prop :=
  s.load (p / logN s.N) = .ok v ∧ (p = s.N - 1 → IsGap s p) ∧
    (lock_bsearch = false → correct_position s e.src p e.dest = true)

/-- How a try of the planner of an insertion ends, behind its tests. -/
def Answers (s : PCSR) (lock_bsearch : Bool) (e : Edge) (p v : Nat)
    (r : Nat ⊕ (Acquired × Option insertion_info)) : Prop :=
  Insertion r ∧ ∀ a b info, r = .inr (.range a b, info) → Tested s lock_bsearch e p v

theorem insert_try_answers (h : WellFormed s) (hp : p < s.N) (hpos : 0 < p) {lock_bsearch : Bool}
    {left : Option Nat} (hleft : ∀ l, left = some l → l ≤ p / logN s.N)
    {r : Nat ⊕ (Acquired × Option insertion_info)}
    (hrun : exec (insert_try s.N lock_bsearch p e e.src v left) s = .ok (r, u)) :
    Answers s lock_bsearch e p v r := by
  have hfree : Free .sound s.N ⟨s, no_locks⟩ := ⟨⟨rfl, h.sized.pow, fun _ => h.sized⟩, rfl⟩
  have hretry : ∀ info, Answers s lock_bsearch e p v (.inr (.special .NEED_RETRY, info)) := by
    intro info
    constructor
    · intro i hi
      cases hi
    · intro a b i hi
      cases hi
  unfold insert_try at hrun
  dsimp only at hrun
  rw [get_node_id_find_leaf] at hrun
  obtain ⟨mn, s1, hfirst, hrun⟩ := exec_bind_inv hrun
  have hmeets : Prog.Meets (locking .sound true) (insert_first_locks lock_bsearch (p / logN s.N) left)
      (fun mn t' => Keeps .sound ⟨s, no_locks⟩ t' ∧ mn ≤ p / logN s.N ∧
        Held .sound s.N t' mn (p / logN s.N)) ⟨s, no_locks⟩ :=
    meets_insert_first_locks lock_bsearch (p / logN s.N) left hfree hleft fun _ =>
      slot_in_table h.sized.pow hp
  obtain ⟨mn', t1, hfirst', hk, -⟩ := meets_exec hmeets
  have hs1 : s1 = s := by
    rw [hfirst] at hfirst'
    cases hfirst'
    exact hk.2 (by decide)
  subst hs1
  obtain ⟨version, hversion, hrun⟩ := exec_look_inv hrun
  rw [exec_bind_ok (exec_test _ _)] at hrun
  split at hrun
  · obtain ⟨_, _, -, hrun⟩ := exec_bind_inv hrun
    cases hrun
    exact hretry none
  rename_i hsame
  have hload : s1.load (p / logN s1.N) = .ok v := by
    have heq : v = version := by simpa using hsame
    rw [heq]
    exact hversion
  obtain ⟨item, hitem, hrun⟩ := exec_look_inv hrun
  split at hrun
  · obtain ⟨_, _, -, hrun⟩ := exec_bind_inv hrun
    cases hrun
    constructor
    · intro i hi
      cases hi
    · intro a b i hi
      cases hi
  rename_i hend
  have hlast : p = s1.N - 1 → IsGap s1 p := by
    intro hl
    refine ⟨item, item_ok hitem, ?_⟩
    by_contra hnull
    exact hend ⟨hl, by simpa using hnull⟩
  -- the tests are passed, and the rest plans
  have hrest : ∀ (correct : Bool) (max_node : Nat) (s2 : PCSR)
      (k : Climb → Op (Nat ⊕ (Acquired × Option insertion_info))), (∀ c, Prog.Every Insertion (k c)) →
      exec (do
        if !correct then
          leaf_range .unlock mn max_node
          return .inr (.special .NEED_RETRY, none)
        insert_plan_window s1.N (find_leaf s1.N p) mn max_node >>= k) s2 = .ok (r, u) →
      (lock_bsearch = false → correct = true → correct_position s1 e.src p e.dest = true) →
      Answers s1 lock_bsearch e p v r := by
    intro correct max_node s2 k hk hrun hcorrect
    cases correct with
    | false =>
      obtain ⟨_, _, -, hrun⟩ := exec_bind_inv hrun
      cases hrun
      exact hretry none
    | true =>
      exact ⟨Prog.every_run alone (Prog.every_bind hk) hrun,
        fun a b i _ => ⟨hload, hlast, fun hb => hcorrect hb rfl⟩⟩
  split at hrun
  · rename_i hlock
    refine hrest true (p / logN s1.N) s1 _ ?_ hrun fun hb => ?_
    · exact every_insert_plan rfl (fun _ => rfl) fun _ _ _ _ => rfl
    · cases hb.symm.trans hlock
  · obtain ⟨ins_edge, hins, hrun⟩ := exec_look_inv hrun
    obtain ⟨m, hgot⟩ := exec_got_correct h.laid_out e hpos (item_ok hins)
    rw [get_node_id_find_leaf] at hgot
    rw [exec_bind_ok hgot] at hrun
    dsimp only at hrun
    rw [exec_bind_ok (exec_test _ _)] at hrun
    refine hrest _ m s1 _ ?_ hrun fun _ hc => by simpa using hc
    exact every_insert_plan rfl (fun _ => rfl) fun _ _ _ _ => rfl

/-- What `acquire_insert_locks` answers. -/
theorem acquire_insert_answers (h : WellFormed s) (hp : p < s.N) (hpos : 0 < p) {lock_bsearch : Bool}
    {tries : Nat} {left : Option Nat} (hleft : ∀ l, left = some l → l ≤ p / logN s.N)
    (hrun : exec (acquire_insert_locks s.N lock_bsearch p e e.src v tries left) s =
      .ok ((acquired, info), u)) : Answers s lock_bsearch e p v (.inr (acquired, info)) := by
  induction tries generalizing left with
  | zero =>
    cases hrun
    constructor
    · intro i hi
      cases hi
    · intro a b i hi
      cases hi
  | succ tries ih =>
    unfold acquire_insert_locks at hrun
    obtain ⟨r, s1, htry, hrun⟩ := exec_bind_inv hrun
    rcases r with l | r
    · have hfree : Free .sound s.N ⟨s, no_locks⟩ := ⟨⟨rfl, h.sized.pow, fun _ => h.sized⟩, rfl⟩
      obtain ⟨r', t1, htry', hplan⟩ := meets_exec (meets_insert_try lock_bsearch p e e.src v left hfree
        hleft fun _ => slot_of_place h hp hpos)
      rw [htry] at htry'
      cases htry'
      obtain ⟨hk, -, hl⟩ := hplan
      rw [hk.2 (by decide)] at hrun
      exact ih (fun l' hl' => by cases hl'; exact hl) hrun
    · have hanswers := insert_try_answers h hp hpos hleft htry
      cases hrun
      exact hanswers

/-! ## The place of an edge -/

/-- A correct slot is the place of an edge that stands nowhere else. -/
theorem CorrectPlace.place (h : WellFormed s) (he : IsEdge s.get_n e) (hc : CorrectPlace s e.src e.dest p)
    (hp : p < s.N) (honly : ∀ q, Stores s e q → q = p) : Place s e p := by
  obtain ⟨b, hbp, hb⟩ := hc.own
  -- an item behind the sentinel of the vertex belongs to it, or stands behind the next sentinel
  have hright : ∀ (i : Nat) (x : Edge), b < i → s.items[i]? = some x → full x = true →
      (is_sentinel x = false ∧ x.src = e.src) ∨
        (Before e x ∧ ∃ q, q ≤ i ∧ s.items[q]? = some (sentinel (e.src + 1))) := by
    intro i x hbi hx hf
    have hsorted := sorted_slots h.arranged.sorted hb hx (by simp) hf hbi
    have hsrc := before_src hsorted
    rw [sentinel_src] at hsrc
    have hitem := h.arranged.slot_item hx hf
    rcases Nat.eq_or_lt_of_le hsrc with heq | hlt
    · left
      refine ⟨?_, heq.symm⟩
      rcases hitem.cases with hs | hs
      · exact hs
      · rw [hs, ← heq] at hsorted
        exact absurd hsorted (before_irrefl _)
    · right
      refine ⟨before_of_src hlt, ?_⟩
      have hn : e.src + 1 < s.get_n := Nat.lt_of_le_of_lt hlt hitem.src_lt
      obtain ⟨q, hq⟩ := h.arranged.sentinel_slot hn
      refine ⟨q, ?_, hq⟩
      by_contra hiq
      have hbefore := sorted_slots h.arranged.sorted hx hq hf (by simp) (by omega)
      have hle := before_src hbefore
      rw [sentinel_src] at hle
      have hxsrc : x.src = e.src + 1 := by omega
      rcases hitem.cases with hs | hs
      · exact before_irrefl _ (hbefore.trans (sentinel_before hs hxsrc.ge))
      · rw [hs, hxsrc] at hbefore
        exact before_irrefl _ hbefore
  have hedge : ∀ (i : Nat) (x : Edge), p ≤ i → s.items[i]? = some x → full x = true →
      is_sentinel x = false → x.src = e.src → Stores s e i ∨ Before e x ∧ x.dest ≠ e.dest := by
    intro i x hpi hx hf hs hsrc
    rcases Nat.eq_or_lt_of_le (hc.high i x hpi hx hf hs hsrc) with heq | hlt
    · exact .inl ⟨x, hx, hf, hs, hsrc, heq.symm⟩
    · exact .inr ⟨(before_edges he.not_sentinel hs hsrc.symm).mpr hlt, Nat.ne_of_gt hlt⟩
  refine ⟨hp, by omega, ?_, ?_, ?_⟩
  · intro i x hip hx hf
    rcases Nat.lt_trichotomy b i with hbi | rfl | hib
    · rcases hright i x hbi hx hf with ⟨hs, hsrc⟩ | ⟨-, q, hqi, hq⟩
      · exact (before_edges hs he.not_sentinel hsrc).mpr (hc.low i x hip hx hf hs hsrc)
      · have := hc.next q hq
        omega
    · cases hb.symm.trans hx
      exact sentinel_before he.not_sentinel (le_refl _)
    · exact (sorted_slots h.arranged.sorted hx hb hf (by simp) hib).trans
        (sentinel_before he.not_sentinel (le_refl _))
  · intro x hx hf
    rcases hright p x hbp hx hf with ⟨hs, hsrc⟩ | ⟨hbefore, q, hqp, hq⟩
    · exact hedge p x (le_refl p) hx hf hs hsrc
    · right
      refine ⟨hbefore, ?_⟩
      obtain rfl : p = q := Nat.le_antisymm (hc.next q hq) hqp
      cases hx.symm.trans hq
      exact Nat.ne_of_gt he.dest
  · intro i x hpi hx hf
    rcases hright i x (by omega) hx hf with ⟨hs, hsrc⟩ | ⟨hbefore, -⟩
    · rcases hedge i x hpi.le hx hf hs hsrc with hst | hafter
      · have := honly i hst
        omega
      · exact hafter.1
    · exact hbefore

/-- An accepted slot that the validation is not blind to is the place of the edge. -/
theorem place_of_accepted (h : WellFormed s) (he : IsEdge s.get_n e) (hp : p < s.N) (hpos : 0 < p)
    (hcorrect : correct_position s e.src p e.dest = true) (hblind : ¬ Blind s e p) : Place s e p := by
  have hforeign : ¬ ForeignGap s e.src p := fun hf => hblind (.inl hf)
  apply (accepted_correct h.laid_out he.src he.dest hpos hp hcorrect hforeign).place h he hp
  intro q hq
  by_contra hne
  exact hblind (.inr ⟨q, hne, hq⟩)

/-! ## The parts of a call, one by one -/

theorem Counted.same (hc : Counted s) (ht : tallies s' = tallies s) : Counted s' := by
  unfold Counted
  rw [ht]
  exact hc

/-- What each part leaves: a good array with the same vertices. -/
structure Steady (s s' : PCSR) : Prop where
  good : Good s'
  n : s'.get_n = s.get_n

theorem Alike.steady (h : Alike s s') (hg : Good s) (hc : Counted s') : Steady s s' :=
  ⟨h.good hg hc, h.get_n⟩

theorem count_steady (hg : Good s) {u : Nat} {f : Nat → Nat} (hf : ∀ x, f x < 4294967296)
    (hu : u < s.get_n) (h : s.count_neighbors u f = .ok s') : Steady s s' ∧ Alike s s' := by
  obtain ⟨c, hcount, htally⟩ := count_exists f hu
  cases hcount.symm.trans h
  have halike := alike_with_counts c s
  exact ⟨halike.steady hg (hg.counted.modify hf htally), halike⟩

theorem Inserted.steady {src : Nat} (hg : Good s) (hins : insert s p e src info = .ok s')
    (h : Inserted s s' e) : Steady s s' :=
  ⟨⟨h.wf, h.end_full hg.end_full, hg.counted.same (insert_tallies hins), hg.size.trans h.size⟩, h.n⟩

theorem exec_remove_edge_search (hg : Good s) (he : IsEdge s.get_n e) : ∃ q w,
    exec (remove_edge_search e e.src) s = .ok (some (q, w), s) ∧ 0 < q ∧ q < s.N := by
  obtain ⟨q, w, hf, -, -, hq, hpos⟩ := hg.finds he
  obtain ⟨node, hnode, hend, hsearch⟩ := hf.region hg.wf
  refine ⟨q, w, ?_, hpos, hq⟩
  unfold remove_edge_search
  rw [exec_bind_ok (exec_global _), exec_look_bind (b := s.N) rfl,
    exec_look_bind (b := s.lock_bsearch) rfl, exec_look_bind hnode]
  exact exec_remove_search hg.wf hf hnode hend hsearch s.lock_bsearch

/-- The search, with its locks or without them. -/
theorem Call.Gives.steady {c : Call} (hg : Good s) (hc : c.Valid s.get_n) (h : c.Gives s p v s') :
    Steady s s' ∧ s'.items = s.items ∧ Guarded s s' ∧ 0 < p ∧ p < s.N := by
  have he := hc.is_edge
  have hsame : Steady s s := ⟨hg, rfl⟩
  cases c with
  | add_edge src dest value =>
    rcases h with hrun | ⟨-, hpos, hp, hcount⟩
    · obtain ⟨⟨c, rfl⟩, htally, -, hpos, hp⟩ := exec_add_edge_search hg.wf hg.size he hrun
      exact ⟨(alike_with_counts c s).steady hg (hg.counted.modify incr32_lt htally), rfl,
        .of_same rfl rfl rfl, hpos, hp⟩
    · obtain ⟨c, hcount', -⟩ := count_exists incr32 he.src
      cases hcount.symm.trans hcount'
      exact ⟨(count_steady hg incr32_lt he.src hcount).1, rfl, .of_same rfl rfl rfl, hpos, hp⟩
  | remove_edge src dest =>
    rcases h with hrun | ⟨-, hpos, hp, hcount⟩
    · obtain ⟨q, w, hrun', hqpos, hq⟩ := exec_remove_edge_search hg he
      cases hrun.symm.trans hrun'
      exact ⟨hsame, rfl, .of_same rfl rfl rfl, hqpos, hq⟩
    · cases hcount
      exact ⟨hsame, rfl, .of_same rfl rfl rfl, hpos, hp⟩

/-- The commit of an insertion that does not ask for the global lock. -/
theorem exec_add_edge_commit_right (hg : Good s) (he : IsEdge s.get_n e) (hpos : 0 < p) (hp : p < s.N)
    (hplan : exec (acquire_insert_locks s.N s.lock_bsearch p e e.src v 4 none) s =
      .ok ((acquired, info), u))
    (hleaves : acquired ≠ .special .NEED_GLOBAL_WRITE)
    (hright : ∀ a b, acquired = .range a b → Takes s e p ∧
      if s.lock_bsearch then Place s e p ∨ PastEnd s e p else ¬ Blind s e p) :
    ∃ again s', exec (add_edge_commit e e.src p v) s = .ok (again, s') ∧ Steady s s' ∧ s.N ≤ s'.N ∧
      (logN s.N * 2 ≤ s.N → Guarded s s') ∧ (again = true → s'.items = s.items) ∧
      (again = false → Added e (s.items.filter full) (s'.items.filter full)) := by
  have hw := hg.wf
  obtain ⟨acquired', info', u', hrun, hend⟩ :=
    exec_acquire_insert_locks (e := e) hw hp hpos s.lock_bsearch e.src v 4
  cases hplan.symm.trans hrun
  have hanswers := acquire_insert_answers hw hp hpos (fun l hl => by cases hl) hplan
  have hok : PlanOk s.N info := hend.plan_ok (by decide)
  obtain ⟨hu, -, htable⟩ := InsertPlan.plan_of hend
  rw [hu] at hrun
  unfold add_edge_commit add_commit
  rw [exec_look_bind (b := s.N) rfl, exec_look_bind (b := s.lock_bsearch) rfl, exec_bind_ok hrun]
  rcases acquired with c | ⟨a, b⟩
  · cases c with
    | NEED_GLOBAL_WRITE => exact absurd rfl hleaves
    | EDGE_NOT_FOUND => exact absurd rfl (hanswers.1 info)
    | NEED_RETRY =>
      obtain ⟨c, hcount, -⟩ := count_exists decr32 he.src
      refine ⟨true, with_counts c s, ?_, (count_steady hg decr32_lt he.src hcount).1, le_refl _,
        fun _ => .of_same rfl rfl rfl, fun _ => rfl, fun hc => by cases hc⟩
      dsimp only
      rw [exec_bind_ok (exec_change hcount), exec_bind_ok (exec_global _)]
      rfl
  · obtain ⟨htakes, hplace⟩ := hright a b rfl
    have hplace : Place s e p ∨ PastEnd s e p := by
      cases hlock : s.lock_bsearch with
      | true => simpa [hlock] using hplace
      | false =>
        left
        apply place_of_accepted hw he hp hpos ((hanswers.2 a b info rfl).2.2 hlock)
        simpa [hlock] using hplace
    obtain ⟨s2, hins, hres⟩ := insert_spec hw he hg.size hplace htakes hok
    have hsteady := hres.steady hg hins
    have hb := htable a b rfl
    dsimp only at hb
    have hleaves := hres.leaves hw
    rw [hw.sized.versions] at hleaves
    obtain ⟨versions, hvlen, hrelease, hat⟩ :=
      exec_release_locks (s := s2) (a := a) (b := b) (by omega)
    have halike := alike_versions hvlen
    refine ⟨false, { s2 with versions }, ?_, ⟨halike.good hsteady.good hsteady.good.counted,
      halike.get_n.trans hsteady.n⟩, hres.size, fun hsize => ?_, fun hc => (by cases hc),
      fun _ => hres.added⟩
    · dsimp only
      rw [exec_bind_ok (exec_change hins), exec_bind_ok hrelease, exec_bind_ok (exec_global _)]
      rfl
    · -- the leaves of the plan cover the insertion
      obtain ⟨-, -, i, rfl, hcovers⟩ := hend
      obtain ⟨s3, hins', hframe, hout⟩ := (hcovers (by decide)).insert_stays hw hsize he hpos hp
        (.inr hplace) (gap_of_range hw.sized hp hplan)
      cases hins.symm.trans hins'
      exact .of_release hframe.N hframe.versions hvlen hout hat

/-- The insertion under the global lock. -/
theorem exec_insert_global_fits (hg : Good s) (he : IsEdge s.get_n e) (hinfo : PlanOk s.N info)
    (hfit : ∀ q, find_in_node s e e.src = .ok q → Takes s e q) :
    ∃ s', exec (insert_global e e.src info) s = .ok ((), s') ∧ Steady s s' ∧
      Added e (s.items.filter full) (s'.items.filter full) := by
  obtain ⟨q, w, hf, hfind, hplace, -, -⟩ := hg.finds he
  obtain ⟨s', hins, hres⟩ := insert_spec hg.wf he hg.size hplace (hfit q hfind) hinfo
  obtain ⟨node, hnode, hrun⟩ := hf.search
  refine ⟨s', ?_, hres.steady hg hins, hres.added⟩
  unfold insert_global
  rw [exec_look_bind (b := s.N) rfl, exec_look_bind hnode, exec_bind_ok hrun]
  exact exec_change hins

/-- What stands at an accepted slot under the destination of an edge is the edge. -/
theorem stores_of_accepted (h : WellFormed s) (hd : e.dest < UINT32_MAX)
    (hcorrect : correct_position s e.src p e.dest = true) (hst : StoredAt s p e) : Stores s e p := by
  obtain ⟨x, hx, hfull, hs, hdest, -⟩ := hst.edge h hd
  refine ⟨x, hx, hfull, hs, ?_, hdest⟩
  by_contra hsrc
  have hforeign := (foreign_item_edge (n := s.get_n) hs).mpr ⟨hfull, hsrc⟩
  rw [((correct_position_iff hx).mp hcorrect).1] at hforeign
  cases hforeign

/-- The removal under the global lock. -/
theorem exec_remove_global_erases (hg : Good s) (he : IsEdge s.get_n e) :
    ∃ s', exec (remove_global e e.src) s = .ok ((), s') ∧ Steady s s' ∧
      Erased e (s.items.filter full) (s'.items.filter full) ∧
      ∀ p s2, Stores s e p → exec (remove p e) s = .ok ((), s2) → s2 = s' := by
  obtain ⟨q, w, hf, -, hplace, -, -⟩ := hg.finds he
  by_cases hst : Stores s e q
  · obtain ⟨x, hx, hfull, hs, -, hdest⟩ := id hst
    obtain ⟨s', hrem, hk, hcontents, -, hN⟩ := exec_remove_stored hg.wf hx hfull he.not_sentinel hs hdest
    refine ⟨s', exec_remove_global hf hrem, ⟨⟨hk.wf, hk.end_full hg.end_full,
      hg.counted.same (exec_remove_tallies hrem), ?_⟩, hk.n⟩, ?_, ?_⟩
    · have := hg.size
      rcases hN with ⟨-, hN⟩ | ⟨-, h8, hN, -⟩
      · omega
      · omega
    · rw [hcontents]
      exact erased_stored hg.wf he.not_sentinel hst hx
    · intro p s2 hp hs2
      obtain rfl := (hst.place hg.wf he.not_sentinel).stores he.not_sentinel hp
      cases hs2.symm.trans hrem
      rfl
  · have hno : ∀ p, ¬ Stores s e p := by
      intro p hp
      rcases hplace with hplace | hpast
      · rw [hplace.stores he.not_sentinel hp] at hp
        exact hst hp
      · exact hpast.not_stores hg.wf he.not_sentinel hp
    refine ⟨s, exec_remove_global hf (exec_remove_none hg.wf hplace hst),
      (Alike.refl s).steady hg hg.counted, erased_absent hno, fun p s2 hp => absurd hp (hno p)⟩

/-- The commit of a removal that does not ask for the global lock. -/
theorem exec_remove_edge_commit_right {s1 : PCSR} (hg : Good s) (he : IsEdge s.get_n e) (hpos : 0 < p)
    (hp : p < s.N) (hcount : s.count_neighbors e.src decr32 = .ok s1)
    (hplan : exec (acquire_remove_locks s1.N p e e.src v (s1.N + 2) none) s1 = .ok (acquired, u))
    (hleaves : acquired ≠ .special .NEED_GLOBAL_WRITE)
    (hright : acquired = .special .EDGE_NOT_FOUND → ¬ Blind s e p) :
    ∃ again s', exec (remove_edge_commit e e.src p v) s = .ok (again, s') ∧ Steady s s' ∧ Guarded s s' ∧
      (again = true → s'.items = s.items) ∧
      (again = false → Erased e (s.items.filter full) (s'.items.filter full)) := by
  obtain ⟨c, hcount', htally⟩ := count_exists decr32 he.src
  cases hcount.symm.trans hcount'
  obtain ⟨hsteady, halike⟩ := count_steady hg decr32_lt he.src hcount
  have hg1 := hsteady.good
  have he1 : IsEdge (with_counts c s).get_n e := by
    rw [hsteady.n]
    exact he
  obtain ⟨acquired', again, s', ⟨u', hplan'⟩, hrun, hagain, hdone⟩ :=
    exec_remove_commit_at (v := v) hg1.wf (by rw [halike.N]; exact hp) hpos he.dest he1.src (by
      intro hpass hst s2 hs2
      obtain ⟨s3, hglobal, -, -, hsame⟩ := exec_remove_global_erases hg1 he1
      rw [hsame p s2 (stores_of_accepted hg1.wf he.dest hpass.1 hst) hs2]
      exact hglobal)
  cases hplan.symm.trans hplan'
  have hcommit : exec (remove_edge_commit e e.src p v) s = .ok (again, s') := by
    unfold remove_edge_commit
    rw [exec_look_bind (b := s.N) rfl, exec_bind_ok (exec_change hcount)]
    exact hrun
  refine ⟨again, s', hcommit, ?_⟩
  cases again with
  | true =>
    obtain ⟨-, -, hback⟩ := hagain rfl
    obtain ⟨c', hcount2, -⟩ := count_exists incr32 he1.src
    obtain rfl := Except.ok.inj (hcount2.symm.trans hback)
    obtain ⟨hsteady', halike'⟩ := count_steady hg1 incr32_lt he1.src hback
    exact ⟨⟨hsteady'.good, hsteady'.n.trans hsteady.n⟩, .of_same rfl rfl rfl, fun _ => rfl,
      fun hc => by cases hc⟩
  | false =>
    obtain ⟨hpass, hrem, hguarded, hnone⟩ := hdone rfl
    have hcorrect : correct_position s e.src p e.dest = true := by
      rw [← halike.correct_position]
      exact hpass.1
    have hplace : Place s e p := by
      by_cases hst : StoredAt s p e
      · exact (stores_of_accepted hg.wf he.dest hcorrect hst).place hg.wf he.not_sentinel
      · apply place_of_accepted hg.wf he hp hpos hcorrect
        exact hright (hnone fun h => hst (halike.stored_at.mp h))
    have hshrinks := Deletes.shrinks hg he hplace ⟨c, htally, hrem⟩
    have hfirst : Guarded s (with_counts c s) := .of_same rfl rfl rfl
    exact ⟨⟨hshrinks.good, hshrinks.n⟩, hfirst.trans (hguarded.resolve_left hleaves),
      fun hc => (by cases hc), fun _ => hshrinks.erased hg.wf he.not_sentinel⟩

end

/-! ## One step -/

/-- What the steps keep: the array is good, the slots that threads remember are in it, and those that
wait for the global lock bring a plan that fits any array. -/
structure Crowd.Sound {T : Type} (m : Crowd T) : Prop where
  good : Good m.s
  ticket : ∀ i c p v, m.stage i = some (.ticket c p v) → c.Valid m.s.get_n ∧ 0 < p ∧ p < m.s.N
  waiting : ∀ i c info, m.stage i = some (.waiting c info) → c.Valid m.s.get_n ∧ ∀ N, PlanOk N info

/-- What a step does to a map: a call that takes effect is made on it. -/
def take_effect (l : Option Call) (x : Nat → Nat → Option Nat) : Nat → Nat → Option Nat :=
  l.elim x fun c => c.set x

section

variable {T : Type} [DecidableEq T] {m m' : Crowd T} {s s' : PCSR} {x : Nat → Nat → Option Nat} {i : T}

theorem Holds.same (h : Holds s x) (hitems : s'.items = s.items) : Holds s' x := by
  unfold Holds edges_of
  rw [hitems]
  exact h

theorem Crowd.Sound.turn {st : Option CallStage} (h : m.Sound) (hs : Steady m.s s')
    (hN : m.Clear ∨ m.s.N ≤ s'.N)
    (hticket : ∀ c p v, st = some (.ticket c p v) → c.Valid m.s.get_n ∧ 0 < p ∧ p < s'.N)
    (hwaiting : ∀ c info, st = some (.waiting c info) → c.Valid m.s.get_n ∧ ∀ N, PlanOk N info) :
    (m.turn i s' st).Sound := by
  unfold Crowd.turn
  refine ⟨hs.good, fun j c p v hj => ?_, fun j c info hj => ?_⟩
  · dsimp only at hj ⊢
    rw [hs.n]
    by_cases hji : j = i
    · rw [hji, Function.update_self] at hj
      exact hticket c p v hj
    · rw [Function.update_of_ne hji] at hj
      obtain ⟨hc, hpos, hp⟩ := h.ticket j c p v hj
      rcases hN with hclear | hle
      · exact absurd hj (hclear j c p v)
      · exact ⟨hc, hpos, hp.trans_le hle⟩
  · dsimp only at hj ⊢
    rw [hs.n]
    by_cases hji : j = i
    · rw [hji, Function.update_self] at hj
      exact hwaiting c info hj
    · rw [Function.update_of_ne hji] at hj
      exact h.waiting j c info hj

theorem Crowd.Sound.idle (h : m.Sound) (hs : Steady m.s s') (hN : m.Clear ∨ m.s.N ≤ s'.N) :
    (m.turn i s' none).Sound :=
  h.turn hs hN (fun _ _ _ hst => by cases hst) fun _ _ hst => by cases hst

theorem plans_whole {c : Call} {p v : Nat} {info : Option insertion_info} (hg : Good s)
    (hc : c.Valid s.get_n) (hpos : 0 < p) (hp : p < s.N)
    (h : c.Plans s p v (.special .NEED_GLOBAL_WRITE) info s') :
    Steady s s' ∧ s'.items = s.items ∧ Guarded s s' ∧ ∀ N, PlanOk N info := by
  have he := hc.is_edge
  cases c with
  | add_edge src dest value =>
    obtain ⟨acquired', info', u', hrun, hend⟩ := exec_acquire_insert_locks
      (e := ⟨src, dest, value⟩) hg.wf hp hpos s.lock_bsearch src v 4
    cases h.symm.trans hrun
    obtain ⟨hk, -, hinfo⟩ := hend
    rw [hk.2 (by decide)]
    refine ⟨⟨hg, rfl⟩, rfl, .of_same rfl rfl rfl, fun N i hi => ?_⟩
    rcases hinfo with hnone | ⟨hdouble, -⟩
    · rw [hnone] at hi
      cases hi
    · rw [hdouble] at hi
      cases hi
      exact .inl rfl
  | remove_edge src dest =>
    obtain ⟨s1, hcount, rfl, hrun⟩ := h
    obtain ⟨c, hcount', -⟩ := count_exists decr32 he.src
    cases hcount.symm.trans hcount'
    obtain ⟨hsteady, halike⟩ := count_steady hg decr32_lt he.src hcount
    generalize hs1 : with_counts c s = s1 at *
    have hlen : p ≤ s1.items.length := by
      rw [hsteady.good.wf.sized.items, halike.N]
      exact hp.le
    have hfree : Free .sound s1.N ⟨s1, no_locks⟩ :=
      ⟨⟨rfl, hsteady.good.wf.sized.pow, fun _ => hsteady.good.wf.sized⟩, rfl⟩
    have hread : PositionRead s1 src p :=
      .inr (prev_item_exists (j := 0) hlen hpos hsteady.good.wf.first (by simp))
    have hleaf : p / logN s1.N < s1.N + 2 := by
      have := Nat.div_le_self p (logN s1.N)
      have := halike.N
      omega
    obtain ⟨a, u, hrun', hk, -⟩ := meets_exec (meets_acquire_remove_locks p ⟨src, dest, 1⟩ src v
      (s1.N + 2) none hfree (fun l hl => by cases hl) (fun _ => ⟨by rw [halike.N]; exact hp, hread⟩)
      fun _ => hleaf)
    cases hrun.symm.trans hrun'
    rw [hk.2 (by decide), ← hs1]
    rw [← hs1] at hsteady
    exact ⟨hsteady, rfl, .of_same rfl rfl rfl, fun N i hi => by cases hi⟩

/-- The part under the global lock. -/
theorem whole_returns {c : Call} {info : Option insertion_info} (hg : Good s) (hc : c.Valid s.get_n)
    (hok : PlanOk s.N info) (hfit : c.Fits s) : ∃ s', exec (c.whole info) s = .ok ((), s') ∧
      Steady s s' ∧ ∀ x, Holds s x → Holds s' (c.set x) := by
  cases c with
  | add_edge src dest value =>
    have he : IsEdge s.get_n ⟨src, dest, value⟩ := hc.is_edge
    obtain ⟨s', hrun, hsteady, hadd⟩ := exec_insert_global_fits hg he hok hfit
    refine ⟨s', ?_, hsteady, fun x hx => hx.added he.not_sentinel hadd⟩
    unfold Call.whole
    rw [exec_bind_ok (exec_global _), exec_bind_ok hrun]
    rfl
  | remove_edge src dest =>
    have he : IsEdge s.get_n ⟨src, dest, 1⟩ := hc.is_edge
    obtain ⟨s', hrun, hsteady, hrem, -⟩ := exec_remove_global_erases hg he
    refine ⟨s', ?_, hsteady, fun x hx => hx.removed hrem⟩
    unfold Call.whole
    rw [exec_bind_ok (exec_global _), exec_bind_ok hrun]
    rfl

/-- The fifth try of `add_edge`. -/
theorem locked_returns {src dest value : Nat} (hg : Good s)
    (hc : (Call.add_edge src dest value).Valid s.get_n) (hfit : (Call.add_edge src dest value).Fits s) :
    ∃ s', exec (add_edge_locked ⟨src, dest, value⟩ src) s = .ok ((), s') ∧ Steady s s' ∧
      ∀ x, Holds s x → Holds s' ((Call.add_edge src dest value).set x) := by
  have he : IsEdge s.get_n ⟨src, dest, value⟩ := hc.is_edge
  obtain ⟨c, hcount, -⟩ := count_exists incr32 he.src
  obtain ⟨hsteady, halike⟩ := count_steady hg incr32_lt he.src hcount
  have he' : IsEdge (with_counts c s).get_n ⟨src, dest, value⟩ := by
    rw [hsteady.n]
    exact he
  have hfit' : ∀ q, find_in_node (with_counts c s) ⟨src, dest, value⟩ src = .ok q →
      Takes (with_counts c s) ⟨src, dest, value⟩ q := by
    obtain ⟨q, w, hf, hfind, -⟩ := hg.finds he
    obtain ⟨node, hnode, hrun⟩ := (hf.counts c).search
    intro q' hq'
    cases (find_in_node_of hnode hrun).symm.trans hq'
    exact halike.takes.mpr (hfit q hfind)
  have hnone : PlanOk (with_counts c s).N none := fun i hi => by cases hi
  obtain ⟨s', hrun, hsteady', hadd⟩ := exec_insert_global_fits hsteady.good he' hnone hfit'
  refine ⟨s', ?_, ⟨hsteady'.good, hsteady'.n.trans hsteady.n⟩, fun x hx => hx.added he.not_sentinel hadd⟩
  unfold add_edge_locked
  rw [exec_bind_ok (exec_global _), exec_bind_ok (exec_change hcount), exec_bind_ok hrun]
  rfl

/-- The commit. -/
theorem commit_returns {c : Call} {p v : Nat} {acquired : Acquired} {info : Option insertion_info}
    {u : PCSR} (hg : Good s) (hc : c.Valid s.get_n) (hpos : 0 < p) (hp : p < s.N)
    (hplan : c.Plans s p v acquired info u) (hleaves : acquired ≠ .special .NEED_GLOBAL_WRITE)
    (hright : c.RightAt s p acquired) :
    ∃ again s', exec (c.commit p v) s = .ok (again, s') ∧ Steady s s' ∧ s.N ≤ s'.N ∧
      (logN s.N * 2 ≤ s.N → Guarded s s') ∧ ∀ x, Holds s x → Holds s' (take_effect (if again then none else some c) x) := by
  cases c with
  | add_edge src dest value =>
    have he : IsEdge s.get_n ⟨src, dest, value⟩ := hc.is_edge
    obtain ⟨again, s', hrun, hsteady, hN, hguarded, hagain, hdone⟩ :=
      exec_add_edge_commit_right hg he hpos hp hplan hleaves fun a b hab => by
        subst hab
        exact hright
    refine ⟨again, s', hrun, hsteady, hN, hguarded, fun x hx => ?_⟩
    cases again with
    | true => exact hx.same (hagain rfl)
    | false => exact hx.added he.not_sentinel (hdone rfl)
  | remove_edge src dest =>
    have he : IsEdge s.get_n ⟨src, dest, 1⟩ := hc.is_edge
    obtain ⟨s0, hcount, -, hplan⟩ := hplan
    obtain ⟨again, s', hrun, hsteady, hguarded, hagain, hdone⟩ :=
      exec_remove_edge_commit_right hg he hpos hp hcount hplan hleaves fun hnot => by
        subst hnot
        exact hright
    refine ⟨again, s', hrun, hsteady, hguarded.N.ge, fun _ => hguarded, fun x hx => ?_⟩
    cases again with
    | true => exact hx.same (hagain rfl)
    | false => exact hx.removed (hdone rfl)

/-- A step keeps the array good, and does to what it holds what its call does. -/
theorem CrowdStep.follows {l : Option Call} (h : m.Sound ∧ Holds m.s x) (hstep : CrowdStep m l m') :
    m'.Sound ∧ Holds m'.s (take_effect l x) := by
  obtain ⟨hs, hholds⟩ := h
  cases hstep with
  | search hidle hc hrun =>
    obtain ⟨hsteady, hitems, hguarded, hpos, hp⟩ := hrun.steady hs.good hc
    refine ⟨hs.turn hsteady (.inr hguarded.N.ge) (fun c' p' v' hst => ?_)
      (fun c' info hst => by cases hst), hholds.same hitems⟩
    cases hst
    rw [hguarded.N]
    exact ⟨hc, hpos, hp⟩
  | commit hi hplan hleaves hright hrun =>
    obtain ⟨hc, hpos, hp⟩ := hs.ticket _ _ _ _ hi
    obtain ⟨again, s', hrun', hsteady, hN, -, hset⟩ :=
      commit_returns hs.good hc hpos hp hplan hleaves hright
    cases hrun.symm.trans hrun'
    exact ⟨hs.idle hsteady (.inr hN), hset x hholds⟩
  | escalate hi hplan =>
    obtain ⟨hc, hpos, hp⟩ := hs.ticket _ _ _ _ hi
    obtain ⟨hsteady, hitems, hguarded, hok⟩ := plans_whole hs.good hc hpos hp hplan
    refine ⟨hs.turn hsteady (.inr hguarded.N.ge) (fun c' p' v' hst => by cases hst) (fun c' info' hst => ?_),
      hholds.same hitems⟩
    cases hst
    exact ⟨hc, hok⟩
  | whole hi hclear hfit hrun =>
    obtain ⟨hc, hok⟩ := hs.waiting _ _ _ hi
    obtain ⟨s', hrun', hsteady, hset⟩ := whole_returns hs.good hc (hok _) hfit
    cases hrun.symm.trans hrun'
    exact ⟨hs.idle hsteady (.inl hclear), hset x hholds⟩
  | locked hclear hc hfit hrun =>
    obtain ⟨s', hrun', hsteady, hset⟩ := locked_returns hs.good hc hfit
    cases hrun.symm.trans hrun'
    refine ⟨⟨hsteady.good, fun j c p v hj => absurd hj (hclear j c p v), fun j c info hj => ?_⟩,
      hset x hholds⟩
    rw [hsteady.n]
    exact hs.waiting j c info hj

theorem Crowd.Sound.start (T : Type) (hg : Good s) : (Crowd.start T s).Sound :=
  ⟨hg, fun _ _ _ _ hi => (by cases hi), fun _ _ _ hi => by cases hi⟩

end

/-! ## The law -/

/-- A graph of one vertex: seven edges, the edge to 3 as well, and then without the edge to 9. -/
def two_calls_run : Nat → Nat → PCSR
  | 0, num_neighbors => two_leaves_of [(2, ⟨0, 4, 1⟩), (4, ⟨0, 6, 1⟩), (5, ⟨0, 7, 1⟩), (8, ⟨0, 9, 1⟩),
      (10, ⟨0, 11, 1⟩), (12, ⟨0, 13, 1⟩), (14, ⟨0, 14, 1⟩)] num_neighbors [0, 0]
  | 1, num_neighbors => two_leaves_of [(1, ⟨0, 3, 1⟩), (3, ⟨0, 4, 1⟩), (4, ⟨0, 6, 1⟩), (6, ⟨0, 7, 1⟩),
      (8, ⟨0, 9, 1⟩), (10, ⟨0, 11, 1⟩), (12, ⟨0, 13, 1⟩), (14, ⟨0, 14, 1⟩)] num_neighbors [1, 0]
  | _, num_neighbors => two_leaves_of [(1, ⟨0, 3, 1⟩), (3, ⟨0, 4, 1⟩), (4, ⟨0, 6, 1⟩), (6, ⟨0, 7, 1⟩),
      (8, ⟨0, 11, 1⟩), (10, ⟨0, 13, 1⟩), (13, ⟨0, 14, 1⟩)] num_neighbors [1, 1]

theorem two_calls_run_good : Good (two_calls_run 0 7) :=
  ⟨by decide +kernel, fun _ => ⟨null_edge, rfl, rfl⟩, fun x hx => by
    rw [List.mem_singleton.mp hx]
    decide, by decide⟩

theorem two_calls_right : (Call.add_edge 0 3 1).RightAt (two_calls_run 0 8) 2 (.range 0 0) := by
  have hwf : WellFormed (two_calls_run 0 8) := by decide +kernel
  have hfree : EndFree (two_calls_run 0 8) := endFree_of_gap ⟨null_edge, rfl, rfl⟩
  obtain ⟨node, p, v, hnode, hrun, -, hplace⟩ := search_place hwf (.inr hfree)
    (show IsEdge 1 ⟨0, 3, 1⟩ by decide) rfl
  have hfind : find_in_node (two_calls_run 0 8) ⟨0, 3, 1⟩ 0 = .ok 2 := by decide +kernel
  rw [find_in_node_of hnode hrun] at hfind
  cases hfind
  exact ⟨takes_of_slides (by decide) (.inr (.inr (.inl ⟨3, by decide, null_edge, rfl, rfl⟩))), hplace⟩

theorem two_calls_plan : (Call.add_edge 0 3 1).Plans (two_calls_run 0 8) 2 0 (.range 0 0)
    (some ⟨8, 0, false⟩) (two_calls_run 0 8) := by
  show exec _ _ = _
  decide +kernel

end packed_csr
