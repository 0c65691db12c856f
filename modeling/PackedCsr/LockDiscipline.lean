-- The leaf-lock discipline: a lock is given back in the mode in which it is held,
-- and in the end none is held. An insertion keeps it. A removal breaks it in two
-- places, and where it reaches neither of them it keeps it as well.
import PackedCsr.Runs
import PackedCsr.Removals
import PackedCsr.LockCalls

namespace packed_csr

open effects

/-! ## The rule -/

/-- What a call of a leaf lock asks for. -/
def discipline.ask : ∀ {β : Type}, Instr β → Own → Prop
  | _, .leaf .lock i, t | _, .leaf .lock_shared i, t => t.mode i = none
  | _, .leaf .unlock i, t => t.mode i = some .exclusive
  | _, .leaf .unlock_shared i, t => t.mode i = some .shared
  | _, .leaf .destroy i, t => t.mode i = none
  | _, .global _, _ | _, .act _, _ | _, .test _ _, _ => True

/-- The operation is alone, and its tests may find anything; `may` tells whether the nodes of a
vertex may be found changed. -/
def discipline (may : Bool) : Prog.Rule Instr Own := ⟨discipline.ask, locking.can .lone may⟩

section

variable {may : Bool} {α β : Type} {t : Own} {s : PCSR}

theorem locking_discipline (i : Instr β) (t : Own) (h : (locking .lone may).ask i t) :
    discipline.ask i t := by
  cases i with
  | act f => trivial
  | test k b => trivial
  | global c => trivial
  | leaf c i =>
    cases c with
    | lock => exact h.1.1
    | lock_shared => exact h.1.1
    | unlock => exact h.1 rfl
    | unlock_shared => exact h.1 rfl
    | destroy => exact h.1 rfl

/-- The removal of the edge breaks the discipline. -/
def Breaks (may : Bool) (s : PCSR) : Call → Prop
  | .add_edge _ _ _ => False
  | .remove_edge src dest => (may = true ∧ UnlocksShared s src) ∨ UnlocksDropped s src dest

theorem call_meets_discipline (c : Call) (calls : Nat) (hs : Sized s) (hok : ¬ Breaks may s c) :
    Prog.Meets (discipline may) (c.prog calls) (fun _ t => t.mode = no_locks) ⟨s, no_locks⟩ := by
  have hready : Ready .lone ⟨s, no_locks⟩ := ⟨s.N, ⟨rfl, hs.pow, fun _ => hs⟩, rfl⟩
  refine Prog.meets_rule (R := locking .lone may) ?_ locking_discipline fun _ _ _ _ h => h
  cases c with
  | add_edge src dest value => exact meets_add_edge_parallel (by decide) src dest value 4 hready
  | remove_edge src dest =>
    have hsame : Same .lone s ⟨s, no_locks⟩ := fun _ => with_counts_exists s
    apply meets_remove_edge (by decide) src dest calls hready hsame
    · intro _ loc s1 s' hs1 hstop
      exact remove_items_stops hs1 hstop
    · intro _ hmay hbad
      exact hok (.inl ⟨hmay, hbad⟩)
    · intro _ hbad
      exact hok (.inr hbad)

/-! ## Where a removal breaks it -/

/-- A part of the program that runs to its end, while no test finds anything, is a part of an
execution. -/
theorem follow {p : Op α} {f : α → Op β} {P : α → Own → Prop} {Q : β → Own → Prop}
    (hp : Prog.Meets (locking .sound false) p P t)
    (hd : Prog.Meets (discipline may) (p >>= f) Q t) :
    ∃ a u, P a u ∧ Prog.Meets (discipline may) (f a) Q u := by
  induction p generalizing t with
  | ret a => exact ⟨a, t, hp, hd⟩
  | op i k ih =>
    cases i with
    | act g =>
      obtain ⟨⟨b, s'⟩, hg⟩ := hp.1 rfl
      exact ih b (hp.2 b ⟨s', t.mode⟩ ⟨t.s, ⟨rfl, fun _ => rfl⟩, hg, rfl⟩)
        (hd.2 b ⟨s', t.mode⟩ ⟨t.s, ⟨rfl, fun _ => rfl⟩, hg, rfl⟩)
    | test k b =>
      exact ih false (hp.2 false t ⟨rfl, fun _ => rfl, fun _ _ => rfl⟩)
        (hd.2 false t ⟨rfl, (fun h => by cases h), fun _ _ => rfl⟩)
    | leaf c i =>
      obtain ⟨-, htab⟩ := hp.1.2 rfl
      exact ih () (hp.2 () _ ⟨htab, rfl⟩) (hd.2 () _ ⟨htab, rfl⟩)
    | global c =>
      exact ih () (hp.2 () t ⟨rfl, (fun h => by cases h), fun _ => rfl⟩)
        (hd.2 () t ⟨rfl, (fun h => by cases h), fun _ => rfl⟩)

theorem follow_global {c : GlobalCall} {k : Unit → Op β} {Q : β → Own → Prop}
    (hd : Prog.Meets (discipline may) (global c >>= k) Q t) :
    Prog.Meets (discipline may) (k ()) Q t :=
  hd.2 () t ⟨rfl, (fun h => by cases h), fun _ => rfl⟩

theorem follow_look {f : PCSR → Res α} {a : α} {k : α → Op β} {Q : β → Own → Prop}
    (hd : Prog.Meets (discipline may) (look f >>= k) Q t) (hf : f t.s = .ok a) :
    Prog.Meets (discipline may) (k a) Q t := by
  refine hd.2 a t ⟨t.s, ⟨rfl, fun _ => rfl⟩, ?_, rfl⟩
  simp only [hf]
  rfl

theorem follow_change {f : PCSR → Res PCSR} {s' : PCSR} {k : Unit → Op β} {Q : β → Own → Prop}
    (hd : Prog.Meets (discipline may) (change f >>= k) Q t) (hf : f t.s = .ok s') :
    Prog.Meets (discipline may) (k ()) Q ⟨s', t.mode⟩ := by
  refine hd.2 () _ ⟨t.s, ⟨rfl, fun _ => rfl⟩, ?_, rfl⟩
  simp only [hf]
  rfl

/-- A removal has read the size, the locking mode and the node of the vertex. -/
theorem follow_reads {src dest calls : Nat} {node : Node} {Q : Unit → Own → Prop}
    (hnode : s.node src = .ok node)
    (hd : Prog.Meets (discipline may) (remove_edge src dest (calls + 1)) Q ⟨s, no_locks⟩) :
    ∃ Q', Prog.Meets (discipline may) (do
      match ← remove_search s.N s.lock_bsearch ⟨src, dest, 1⟩ src node with
      | none => return true
      | some (loc_to_rem, ins_node_v) =>
        change (·.count_neighbors src decr32)
        remove_commit s.N ⟨src, dest, 1⟩ src loc_to_rem ins_node_v) Q' ⟨s, no_locks⟩ := by
  unfold remove_edge at hd
  have hd := Prog.meets_bind.mp hd
  unfold remove_edge_try at hd
  have hd := follow_global hd
  have hd := follow_look hd rfl
  have hd := follow_look hd rfl
  have hd := follow_look hd hnode
  exact ⟨_, hd⟩

/-- The node is found changed, and the shared locks of the region are released as if they were
exclusive. -/
theorem unlocks_shared {src dest calls : Nat} {Q : Unit → Own → Prop} (hs : Sized s)
    (hbad : UnlocksShared s src) :
    ¬ Prog.Meets (discipline true) (remove_edge src dest (calls + 1)) Q ⟨s, no_locks⟩ := by
  intro hd
  obtain ⟨hlock, first, last, ⟨node, hnode, rfl, rfl⟩, hle, hlast⟩ := hbad
  obtain ⟨Q', hd⟩ := follow_reads hnode hd
  have hd := Prog.meets_bind.mp hd
  unfold remove_search at hd
  simp only [get_node_id_find_leaf, hlock, if_true] at hd
  obtain ⟨-, t1, ⟨-, rfl⟩, hd⟩ :=
    follow (meets_take_range .shared _ _ rfl fun _ _ => ⟨hs, hlast⟩) hd
  have hd := follow_look hd hnode
  -- another thread has changed the node, says the test
  have hd := hd.2 true _ ⟨rfl, (fun h => by cases h), (fun _ h => by cases h)⟩
  simp only at hd
  obtain ⟨n, hn⟩ : ∃ n, node.end_ / logN s.N + 1 - (node.beginning + 1) / logN s.N = n + 1 :=
    ⟨_, (Nat.succ_pred_eq_of_pos (by omega)).symm⟩
  unfold release_locks_no_inc leaf_range at hd
  rw [hn] at hd
  have hask : range .shared ((node.beginning + 1) / logN s.N) (node.end_ / logN s.N + 1)
      ((node.beginning + 1) / logN s.N) = some .exclusive := hd.1
  unfold range at hask
  rw [if_pos (by omega)] at hask
  cases hask

/-- The search phase of a removal that finds the edge at `index`. -/
theorem meets_found {src dest index v : Nat} {node : Node} (hs : Sized s) (hindex : index < s.N)
    (hnode : s.node src = .ok node)
    (hsearch : exec (binary_search s.N ⟨src, dest, 1⟩ (node.beginning + 1) node.end_ false) s =
      .ok ((index, v), s))
    (hregion : s.lock_bsearch = true → ∃ first last, Region s src first last ∧
      (first ≤ last → last < s.N / logN s.N)) :
    Prog.Meets (locking .sound false)
      (remove_search s.N s.lock_bsearch ⟨src, dest, 1⟩ src node)
      (fun r t' => (∃ v, r = some (index, v)) ∧ t' = ⟨s, no_locks⟩) ⟨s, no_locks⟩ := by
  have hreads : ∀ m, Prog.Meets (locking .sound false)
      (binary_search s.N ⟨src, dest, 1⟩ (node.beginning + 1) node.end_ false)
      (fun a t' => a = (index, v) ∧ t' = ⟨s, m⟩) ⟨s, m⟩ := by
    intro m
    refine Prog.meets_mono (meets_reads (only_reads_binary_search _ _ _ _) _ fun _ => ⟨_, hsearch⟩) ?_
    rintro a ⟨s', m'⟩ ⟨hk, rfl, ha⟩
    have ha := ha (by decide)
    have hs' := hk.2 (by decide)
    simp only [hsearch, Except.ok.injEq, Prod.mk.injEq] at ha hs'
    exact ⟨ha.1.symm, by rw [hs']⟩
  have hlook : ∀ {δ : Type} (f : PCSR → Res δ) (d : δ) m, f s = .ok d →
      Prog.Meets (locking .sound false) (look f) (fun a t' => a = d ∧ t' = ⟨s, m⟩) ⟨s, m⟩ := by
    intro δ f d m hf
    refine Prog.meets_mono (meets_look f _ fun _ => ⟨d, hf⟩) ?_
    rintro a ⟨s', m'⟩ ⟨hk, rfl, s1, hs1, ha⟩
    have hs' := hk.2 (by decide)
    have hs1 := hs1.2 (by decide)
    simp only at hs' hs1
    rw [hs1, hf] at ha
    cases ha
    exact ⟨rfl, by rw [hs']⟩
  unfold remove_search
  simp only [get_node_id_find_leaf]
  cases hlock : s.lock_bsearch with
  | true =>
    obtain ⟨first, last, ⟨n, hn, rfl, rfl⟩, hlast⟩ := hregion hlock
    rw [hnode] at hn
    cases hn
    rw [if_pos rfl]
    refine Prog.meets_seq (meets_take_range .shared _ _ rfl fun _ hle => ⟨hs, hlast hle⟩) ?_
    rintro _ t1 ⟨-, rfl⟩
    refine Prog.meets_seq (hlook _ node _ hnode) ?_
    rintro _ _ ⟨rfl, rfl⟩
    refine Prog.meets_seq (meets_test _ _ _) ?_
    rintro b _ ⟨rfl, hb, -⟩
    rw [hb rfl, Bool.false_and, if_neg (by decide)]
    refine Prog.meets_seq (hreads _) ?_
    rintro _ _ ⟨rfl, rfl⟩
    have hleaf : index / logN s.N < s.versions.length := by
      rw [hs.versions]
      exact slot_in_table hs.pow hindex
    have hload : s.load (index / logN s.N) = .ok s.versions[index / logN s.N] := by
      unfold PCSR.load
      rw [List.getElem?_eq_getElem hleaf]
    refine Prog.meets_seq (hlook _ _ _ hload) ?_
    rintro v' _ ⟨-, rfl⟩
    refine Prog.meets_seq (meets_give_range .shared rfl fun _ hle => ?_) ?_
    · rw [hs.versions]
      exact hlast hle
    rintro _ _ rfl
    exact ⟨⟨v', rfl⟩, rfl⟩
  | false =>
    refine Prog.meets_seq (hlook _ node _ hnode) ?_
    rintro _ _ ⟨rfl, rfl⟩
    refine Prog.meets_seq (hreads _) ?_
    rintro _ _ ⟨rfl, rfl⟩
    exact ⟨⟨v, rfl⟩, rfl⟩

/-- The commit phase goes through the global lock, and `half_list` unlocks the locks that go,
which nobody holds. -/
theorem drops {src dest index v : Nat} {Q : Bool → Own → Prop} (hs : Sized s)
    (hfind : find_in_node s ⟨src, dest, 1⟩ src = .ok index)
    (hstored : StoredAt s index ⟨src, dest, 1⟩) (hread : PositionRead s src index)
    (hroot : SparseToRoot s s.N index) (hrun : ∃ r, remove_items s index ⟨src, dest, 1⟩ = .ok r)
    (hlose : LosesLeaves s.N) :
    ¬ Prog.Meets (discipline may) (remove_commit s.N ⟨src, dest, 1⟩ src index v) Q ⟨s, no_locks⟩ := by
  intro hd
  obtain ⟨node, v0, hnode, hsearch⟩ := find_in_node_ok hfind
  obtain ⟨⟨halve, s1⟩, hrun⟩ := hrun
  have hhalve : halve = true := (remove_items_halves hs hstored hrun).mpr hroot
  subst hhalve
  have hindex : index < s.N := by
    obtain ⟨x, hx, -⟩ := hstored
    rw [← hs.items]
    exact (List.getElem?_eq_some_iff.mp hx).1
  have hfree : Free .sound s.N ⟨s, no_locks⟩ := ⟨⟨rfl, hs.pow, fun _ => hs⟩, rfl⟩
  have hleaf : index / logN s.N < s.N + 2 := by
    have := Nat.div_le_self index (logN s.N)
    omega
  unfold remove_commit at hd
  obtain ⟨a, t1, ⟨hk1, hend⟩, hd⟩ := follow (meets_acquire_remove_locks index _ src v _ none hfree
    (fun l hl => by cases hl) (fun _ => ⟨hindex, hread⟩) fun _ => hleaf) hd
  rcases a with (_ | _ | _) | ⟨a, b⟩
  · obtain ⟨hheld, -, -⟩ := hend
    dsimp only at hd
    obtain ⟨-, t2, ⟨hk2, h2⟩, hd⟩ := follow (meets_release hheld) hd
    have ht2 : t2 = ⟨s, no_locks⟩ := by
      obtain ⟨s2, m2⟩ := t2
      have hs2 : s2 = s := (hk2.2 (by decide)).trans (hk1.2 (by decide))
      have hm2 : m2 = no_locks := h2.mode
      rw [hs2, hm2]
    subst ht2
    have hd := follow_global (follow_global hd)
    have hd := Prog.meets_bind.mp hd
    unfold remove_global at hd
    have hd := follow_look (follow_look hd rfl) hnode
    obtain ⟨r, t3, ⟨hk3, hm3, hr⟩, hd⟩ :=
      follow (meets_reads (only_reads_binary_search _ _ _ _) _ fun _ => ⟨_, hsearch⟩) hd
    have ht3 : t3 = ⟨s, no_locks⟩ := by
      obtain ⟨s3, m3⟩ := t3
      have hs3 : s3 = s := hk3.2 (by decide)
      have hm3 : m3 = no_locks := hm3
      rw [hs3, hm3]
    subst ht3
    have hr := hr (by decide)
    rw [hsearch] at hr
    cases hr
    unfold remove at hd
    have hd := hd.2 true ⟨s1, no_locks⟩ ⟨s, ⟨rfl, fun _ => rfl⟩, hrun, rfl⟩
    simp only at hd
    unfold half_list at hd
    have hd := follow_change (follow_look hd rfl) rfl
    have hd := follow_look hd rfl
    have hN1 : s1.N = s.N := (remove_items_frame hrun).N
    have hN2 : (half_items s1).N = s.N / 2 := by
      rw [← hN1]
      rfl
    have hlose' : (half_items s1).N / logN (half_items s1).N < s1.N / logN s1.N := by
      rw [hN2, hN1]
      exact hlose
    obtain ⟨n, hn⟩ : ∃ n, s1.N / logN s1.N - (half_items s1).N / logN (half_items s1).N = n + 1 :=
      ⟨_, (Nat.succ_pred_eq_of_pos (by omega)).symm⟩
    simp only [hn, drop_locks] at hd
    have hask : no_locks ((half_items s1).N / logN (half_items s1).N) = some .exclusive := hd.1
    cases hask
  · obtain ⟨-, hno⟩ := hend
    cases (hno rfl).1
  · obtain ⟨-, hno, -⟩ := hend
    exact hno (by decide) hstored
  · obtain ⟨-, hst, -⟩ := hend
    obtain ⟨-, j, hj⟩ := hst (by decide)
    exact hj.1.not_root hroot

theorem unlocks_dropped {src dest calls : Nat} {Q : Unit → Own → Prop} (hs : Sized s)
    (hbad : UnlocksDropped s src dest) :
    ¬ Prog.Meets (discipline may) (remove_edge src dest (calls + 1)) Q ⟨s, no_locks⟩ := by
  intro hd
  obtain ⟨hregion, ⟨index, hfind, hstored, -, -, -⟩, -⟩ := id hbad
  obtain ⟨node, v, hnode, hsearch⟩ := find_in_node_ok hfind
  obtain ⟨Q', hd⟩ := follow_reads hnode hd
  have hindex : index < s.N := by
    obtain ⟨x, hx, -⟩ := hstored
    rw [← hs.items]
    exact (List.getElem?_eq_some_iff.mp hx).1
  have hsrc : src < s.nodes.length := by
    by_contra hc
    unfold PCSR.node at hnode
    rw [List.getElem?_eq_none (by omega)] at hnode
    cases hnode
  obtain ⟨_, _, ⟨⟨v', rfl⟩, rfl⟩, hd⟩ :=
    follow (meets_found hs hindex hnode hsearch hregion) hd
  have hcount : ∃ s1, s.count_neighbors src decr32 = .ok s1 := ⟨_, if_pos hsrc⟩
  obtain ⟨s1, hcount⟩ := hcount
  have hd := follow_change hd hcount
  -- the counter is not part of what the removal reads
  obtain ⟨c, rfl⟩ := count_with_counts hcount
  obtain ⟨-, ⟨index', hfind', hstored', hread, hroot, hrun⟩, hlose⟩ :=
    unlocksDropped_counts (c := c) |>.mpr hbad
  rw [find_in_node_counts, hfind] at hfind'
  cases hfind'
  have hsized : Sized (with_counts c s) := hs.of_eq rfl rfl rfl
  exact drops hsized (find_in_node_counts.mpr hfind) hstored' hread hroot hrun hlose hd

/-! ## The law -/

/-- Of all calls, a removal that breaks the discipline is one that can find the node of its
vertex changed with locks of its region in hand, or one that halves the array and the number of
its leaves with it. -/
theorem leaf_locks_are_kept_in_order (s : PCSR) (hs : Sized s) (c : Call) (may : Bool) :
    (∀ (calls : Nat) (q : Op Unit) (u : Own),
      Prog.Steps (discipline may) (c.prog calls) ⟨s, no_locks⟩ q u →
        Prog.Next (discipline may) (fun _ t => t.mode = no_locks) q u) ↔
      ¬ Breaks may s c := by
  constructor
  · intro h hbad
    cases c with
    | add_edge src dest value => exact hbad
    | remove_edge src dest =>
      have hd := Prog.meets_iff_next.mpr (h 1)
      rcases hbad with ⟨rfl, hbad⟩ | hbad
      · exact unlocks_shared hs hbad hd
      · exact unlocks_dropped hs hbad hd
  · intro hok calls q u hsteps
    exact Prog.meets_iff_next.mp (call_meets_discipline c calls hs hok) q u hsteps

end

/-- An insertion of vertex 0 keeps the discipline, whatever its tests find. -/
theorem leaf_locks_are_kept_in_order_for_two :
    ¬ Breaks true (new_pcsr 2 2 true) (.add_edge 0 5 7) ∧
      ∀ (calls : Nat) (q : Op Unit) (u : Own),
        Prog.Steps (discipline true) ((Call.add_edge 0 5 7).prog calls)
            ⟨new_pcsr 2 2 true, no_locks⟩ q u →
          Prog.Next (discipline true) (fun _ t => t.mode = no_locks) q u := by
  have hok : ¬ Breaks true (new_pcsr 2 2 true) (.add_edge 0 5 7) := fun h => h
  exact ⟨hok, (leaf_locks_are_kept_in_order (new_pcsr 2 2 true) (new_pcsr_sized 2 true)
    (.add_edge 0 5 7) true).mpr hok⟩

/-- The region of vertex 0 in a new array of two vertices: leaves 0 to 64. -/
theorem unlocks_shared_for_two : UnlocksShared (new_pcsr 2 2 true) 0 := by
  refine ⟨rfl, 0, 64, ⟨⟨0, 1024, 0⟩, ?_, ?_, ?_⟩, by decide, ?_⟩
  · have h := new_pcsr_nodes 2 true 0
    unfold PCSR.node
    rw [h]
    decide +kernel
  · decide +kernel
  · decide +kernel
  · decide +kernel

/-- The removal of an edge of vertex 0 that finds the node changed gives the shared locks of the
region back as if they were exclusive. -/
theorem a_removal_unlocks_shared_locks : ¬ ∀ (calls : Nat) (q : Op Unit) (u : Own),
    Prog.Steps (discipline true) ((Call.remove_edge 0 5).prog calls) ⟨new_pcsr 2 2 true, no_locks⟩ q u →
      Prog.Next (discipline true) (fun _ t => t.mode = no_locks) q u := by
  intro h
  exact unlocks_shared (new_pcsr_sized 2 true) unlocks_shared_for_two
    (Prog.meets_iff_next.mpr (h 1))

end packed_csr
