-- The two operations and their leaf locks: the search phase, the commit phase,
-- and the repetitions.
import PackedCsr.RemoveLocks
import PackedCsr.Counters

namespace packed_csr

open effects

/-! ## The search only reads -/

theorem only_reads_fan_loop (start end_ mid rest change : Nat) (item : Edge) (check : Nat)
    (flag : Bool) : Prog.Only reads (fan_loop start end_ mid rest change item check flag) := by
  induction rest generalizing change item check flag with
  | zero => exact only_reads_stuck
  | succ rest ih =>
    unfold fan_loop
    split
    · trivial
    split
    · refine only_reads_item fun right => ?_
      split
      · trivial
      dsimp only
      split
      · exact only_reads_item fun left => ih _ _ _ _
      · exact ih _ _ _ _
    · dsimp only
      split
      · exact only_reads_item fun left => ih _ _ _ _
      · exact ih _ _ _ _

theorem only_reads_search_loop (N dest rest start end_ : Nat) :
    Prog.Only reads (search_loop N dest rest start end_) := by
  induction rest generalizing start end_ with
  | zero => exact only_reads_stuck
  | succ rest ih =>
    unfold search_loop
    split
    · refine only_reads_item fun item => Prog.only_bind (only_reads_fan_loop _ _ _ _ _ _ _ _) ?_
      rintro ⟨item, check⟩
      refine only_reads_load fun ins_v => only_reads_load fun ins2 => ?_
      split
      · split <;> trivial
      · refine only_reads_load fun ins_v => ?_
        split
        · trivial
        · split
          · exact ih _ _
          · exact ih _ _
    · trivial

theorem only_reads_binary_search (N : Nat) (elem : Edge) (start end_ : Nat) :
    Prog.Only reads (binary_search N elem start end_ false) := by
  unfold binary_search
  refine Prog.only_bind (only_reads_search_loop _ _ _ _ _) ?_
  rintro (found | ⟨start, end_⟩)
  · trivial
  · refine only_reads_load fun ins_v => only_reads_item fun item => ?_
    split
    · trivial
    · exact only_reads_load fun _ => trivial

section

variable {w : World} {may : Bool} {t u : Own} {N mn mx : Nat}

theorem meets_search (hw : w ≠ .sound) (N : Nat) (elem : Edge) (start end_ : Nat) (t : Own) :
    Prog.Meets (locking w may) (binary_search N elem start end_ false)
      (fun a t' => Keeps w t t' ∧ t'.mode = t.mode ∧
        (w ≠ .crowd → exec (binary_search N elem start end_ false) t.s = .ok (a, t.s))) t :=
  meets_reads (only_reads_binary_search _ _ _ _) t fun h => absurd h hw

/-- The search that releases the shared locks of its range before it ends. -/
theorem meets_search_unlock (hw : w ≠ .sound) (elem : Edge) (start end_ : Nat)
    (ht : t.mode = range .shared (start / logN N) (end_ / logN N + 1)) :
    Prog.Meets (locking w may) (binary_search N elem start end_ true)
      (fun _ t' => Keeps w t t' ∧ t'.mode = no_locks) t := by
  have hunlock : ∀ (r : Nat × Nat) (t1 : Own), Keeps w t t1 → t1.mode = t.mode →
      Prog.Meets (locking w may)
        (do
          nodes_unlock_shared true (start / logN N) (end_ / logN N)
          pure r)
        (fun _ t' => Keeps w t t' ∧ t'.mode = no_locks) t1 := by
    intro r t1 hk1 hm1
    refine Prog.meets_seq (meets_give_range .shared (hm1.trans ht) fun h => absurd h hw) ?_
    rintro _ t2 rfl
    exact ⟨hk1, rfl⟩
  unfold binary_search
  simp only [get_node_id_find_leaf]
  refine Prog.meets_seq (meets_reads (only_reads_search_loop _ _ _ _ _) t fun h => absurd h hw) ?_
  rintro r t1 ⟨hk1, hm1, -⟩
  rcases r with found | ⟨a, b⟩
  · exact hunlock found t1 hk1 hm1
  · dsimp only
    refine Prog.meets_seq (meets_look _ t1 fun h => absurd h hw) ?_
    rintro ins_v t2 ⟨hk2, hm2, -⟩
    refine Prog.meets_seq (meets_look _ t2 fun h => absurd h hw) ?_
    rintro item t3 ⟨hk3, hm3, -⟩
    have hk := hk1.trans (hk2.trans hk3)
    have hm := hm3.trans (hm2.trans hm1)
    split
    · exact hunlock _ t3 hk hm
    · refine Prog.meets_seq (meets_look _ t3 fun h => absurd h hw) ?_
      rintro ins_v' t4 ⟨hk4, hm4, -⟩
      exact hunlock _ t4 (hk.trans hk4) (hm4.trans hm)

/-! ## The counters of neighbours -/

theorem Sized.of_eq {s s' : PCSR} (h : Sized s) (hN : s'.N = s.N) (hi : s'.items = s.items)
    (hv : s'.versions.length = s.versions.length) : Sized s' :=
  ⟨by rw [hN]; exact h.pow, by rw [hi, hN]; exact h.items, by rw [hv, hN]; exact h.versions⟩

/-- A counter of neighbours is outside the arrays. -/
theorem meets_count (hw : w ≠ .sound) (v : Nat) (f : Nat → Nat) (h : Free w N t) :
    Prog.Meets (locking w may) (change (·.count_neighbors v f)) (fun _ t' => Free w N t') t := by
  refine Prog.meets_mono (meets_change _ t fun h => absurd h hw) ?_
  rintro _ t' ⟨hm, s1, hs1, hc⟩
  obtain ⟨-, hs'⟩ := count_neighbors_ok hc
  refine ⟨⟨?_, h.pow, fun hc => ?_⟩, hm.trans h.mode⟩
  · rw [hs']
    exact hs1.1.trans h.size
  · rw [hs', hs1.2 hc]
    exact (h.sized hc).of_eq rfl rfl rfl

/-! ## Insertions -/

/-- The operation holds no leaf lock, and the array fits. -/
def Ready (w : World) (t : Own) : Prop := ∃ N, Free w N t

/-- A call of the global lock: another array may stand there behind it. -/
theorem meets_global_ready (c : GlobalCall) (h : Free w N t) :
    Prog.Meets (locking w may) (global c)
      (fun _ t' => Ready w t' ∧ (w ≠ .crowd → t'.s = t.s)) t := by
  refine Prog.meets_mono (meets_global c t h.mode) ?_
  rintro _ t' ⟨hm, hpow, hs⟩
  refine ⟨?_, hs⟩
  by_cases hw : w = .crowd
  · exact ⟨t'.s.N, ⟨rfl, hpow hw, fun hc => absurd hw hc⟩, hm⟩
  · have hs := hs hw
    exact ⟨N, ⟨by rw [hs]; exact h.size, h.pow, fun hc => by rw [hs]; exact h.sized hc⟩, hm⟩

theorem meets_look_free {β : Type} (hw : w ≠ .sound) (f : PCSR → Res β) (h : Free w N t) :
    Prog.Meets (locking w may) (look f)
      (fun b t' => Free w N t' ∧ Keeps w t t' ∧ ∃ s1, Sees w t.s s1 ∧ f s1 = .ok b) t := by
  refine Prog.meets_mono (meets_look f t fun hc => absurd hc hw) ?_
  rintro b t' ⟨hk, hm, hs⟩
  exact ⟨h.keeps hk hm, hk, hs⟩

theorem meets_add_search (hw : w ≠ .sound) (lock_bsearch : Bool) (e : Edge) (src : Nat)
    (node : Node) (h : Free w N t) :
    Prog.Meets (locking w may) (add_search N lock_bsearch e src node)
      (fun r t' => (r = none → Ready w t') ∧ (r ≠ none → Free w N t')) t := by
  unfold add_search
  dsimp only
  simp only [get_node_id_find_leaf]
  split
  · refine Prog.meets_seq (meets_take_range .shared _ _ h.mode fun hc => absurd hc hw) ?_
    rintro _ t1 ⟨-, rfl⟩
    refine Prog.meets_seq (meets_look _ _ fun hc => absurd hc hw) ?_
    rintro now t2 ⟨hk2, hm2, -⟩
    have hf : Fits w N t2 := (⟨h.size, h.pow, h.sized⟩ : Fits w N ⟨t.s, _⟩).keeps hk2
    refine Prog.meets_seq (meets_test _ _ t2) ?_
    rintro changed t3 ⟨rfl, -⟩
    split
    · refine Prog.meets_seq (meets_give_range .shared hm2 fun hc => absurd hc hw) ?_
      rintro _ t4 rfl
      have h4 : Free w N { t3 with mode := no_locks } := ⟨⟨hf.size, hf.pow, hf.sized⟩, rfl⟩
      refine Prog.meets_seq (meets_global_ready _ h4) ?_
      rintro _ t5 ⟨⟨N', h5⟩, -⟩
      refine Prog.meets_seq (meets_count hw _ _ h5) ?_
      rintro _ t6 h6
      exact ⟨fun _ => ⟨N', h6⟩, fun hne => absurd rfl hne⟩
    · refine Prog.meets_seq (meets_search_unlock hw _ _ _ hm2) ?_
      rintro bs t4 ⟨hk4, hm4⟩
      exact ⟨(fun hc => by cases hc), fun _ => ⟨hf.keeps hk4, hm4⟩⟩
  · refine Prog.meets_seq (meets_search hw _ _ _ _ t) ?_
    rintro bs t1 ⟨hk1, hm1, -⟩
    have h1 := h.keeps hk1 hm1
    split
    · refine Prog.meets_seq (meets_count hw _ _ h1) ?_
      rintro _ t2 h2
      refine Prog.meets_seq (meets_global_ready _ h2) ?_
      rintro _ t3 ⟨h3, -⟩
      exact ⟨fun _ => h3, fun hne => absurd rfl hne⟩
    · exact ⟨(fun hc => by cases hc), fun _ => h1⟩

/-- Where releases are not checked, a range may be given back in part before. -/
theorem meets_release_locks (hw : w ≠ .sound) (hle : mn ≤ mx)
    (hin : Within t.mode mn (mx + 1)) (hm : w = .lone → t.mode = range .exclusive mn (mx + 1)) :
    Prog.Meets (locking w may) (release_locks mn mx) (fun _ t' => t'.mode = no_locks) t := by
  unfold release_locks
  obtain ⟨n, hn⟩ : ∃ n, mx + 1 = mn + n := ⟨mx + 1 - mn, by omega⟩
  rw [hn] at hin hm ⊢
  rw [Nat.add_sub_cancel_left]
  clear hle hn
  induction n generalizing mn t with
  | zero => exact hin.no_locks (le_refl _)
  | succ n ih =>
    unfold release_loop
    refine Prog.meets_seq (meets_change _ t fun hc => absurd hc hw) ?_
    rintro _ t1 ⟨hm1, -⟩
    refine Prog.meets_seq (meets_leaf .unlock mn t1 (fun hl => ?_) fun hc => absurd hc hw) ?_
    · rw [hm1, hm hl]
      exact if_pos ⟨le_refl _, by omega⟩
    rintro _ t2 ⟨-, rfl⟩
    refine ih (t := { t1 with mode := after .unlock mn t1.mode }) (fun hl => ?_) ?_
    · rw [show mn + 1 + n = mn + (n + 1) by omega, hm1, hm hl]
      exact range_update_start _ _ _
    · rw [show mn + 1 + n = mn + (n + 1) by omega, hm1]
      exact hin.unlock

theorem meets_insert_global (hw : w ≠ .sound) (e : Edge) (src : Nat) (info : Option insertion_info)
    (h : Free w N t) :
    Prog.Meets (locking w may) (insert_global e src info) (fun _ t' => t'.mode = no_locks) t := by
  unfold insert_global
  refine Prog.meets_seq (meets_look_free hw _ h) ?_
  rintro N' t1 ⟨h1, -⟩
  refine Prog.meets_seq (meets_look_free hw _ h1) ?_
  rintro n t2 ⟨h2, -⟩
  refine Prog.meets_seq (meets_search hw _ _ _ _ t2) ?_
  rintro bs t3 ⟨-, hm3, -⟩
  refine Prog.meets_mono (meets_change _ t3 fun hc => absurd hc hw) ?_
  rintro _ t4 ⟨hm4, -⟩
  exact hm4.trans (hm3.trans h2.mode)

/-- What a try leaves: no leaf lock is held, and where another try comes, the array fits. -/
def Tried (w : World) (again : Bool) (t' : Own) : Prop :=
  t'.mode = no_locks ∧ (again = true → Ready w t')

theorem meets_global_end (c : GlobalCall) (h : t.mode = no_locks) :
    Prog.Meets (locking w may) (global c) (fun _ t' => t'.mode = no_locks) t :=
  Prog.meets_mono (meets_global c t h) fun _ _ hc => hc.1

theorem meets_add_commit (hw : w ≠ .sound) (lock_bsearch : Bool) (e : Edge) (src loc v : Nat)
    (h : Free w N t) :
    Prog.Meets (locking w may) (add_commit N lock_bsearch e src loc v) (Tried w) t := by
  unfold add_commit
  refine Prog.meets_seq (meets_acquire_insert_locks lock_bsearch loc e src v 4 none h
    (fun l hl => by cases hl) fun hc => absurd hc hw) ?_
  rintro ⟨acquired, info⟩ t1 hr
  rcases acquired with c | ⟨a, b⟩
  · obtain ⟨-, h1, -⟩ := hr
    have hglobal : Prog.Meets (locking w may)
        (do
          global .unlock_shared
          global .lock
          insert_global e src info
          global .unlock
          return false) (Tried w) t1 := by
      refine Prog.meets_seq (meets_global_ready _ h1) ?_
      rintro _ t2 ⟨⟨N2, h2⟩, -⟩
      refine Prog.meets_seq (meets_global_ready _ h2) ?_
      rintro _ t3 ⟨⟨N3, h3⟩, -⟩
      refine Prog.meets_seq (meets_insert_global hw _ _ _ h3) ?_
      rintro _ t4 h4
      refine Prog.meets_seq (meets_global_end _ h4) ?_
      rintro _ t5 h5
      exact ⟨h5, fun hc => by cases hc⟩
    cases c with
    | NEED_GLOBAL_WRITE => exact hglobal
    | EDGE_NOT_FOUND => exact hglobal
    | NEED_RETRY =>
      refine Prog.meets_seq (meets_count hw _ _ h1) ?_
      rintro _ t2 h2
      refine Prog.meets_seq (meets_global_ready _ h2) ?_
      rintro _ t3 ⟨⟨N3, h3⟩, -⟩
      exact ⟨h3.mode, fun _ => ⟨N3, h3⟩⟩
  · obtain ⟨-, h1, -⟩ := hr
    refine Prog.meets_seq (meets_change _ t1 fun hc => absurd hc hw) ?_
    rintro _ t2 ⟨hm2, -⟩
    have hm2 := hm2.trans h1.mode
    refine Prog.meets_seq (meets_release_locks hw h1.le ?_ fun _ => hm2) ?_
    · rw [hm2]
      exact within_range _ (le_refl _) (le_refl _)
    rintro _ t3 h3
    refine Prog.meets_seq (meets_global_end _ h3) ?_
    rintro _ t4 h4
    exact ⟨h4, fun hc => by cases hc⟩

theorem meets_add_edge_try (hw : w ≠ .sound) (e : Edge) (src : Nat) (h : Ready w t) :
    Prog.Meets (locking w may) (add_edge_try e src) (Tried w) t := by
  obtain ⟨N0, h⟩ := h
  unfold add_edge_try
  refine Prog.meets_seq (meets_global_ready _ h) ?_
  rintro _ t1 ⟨⟨N, h1⟩, -⟩
  refine Prog.meets_seq (meets_look_free hw _ h1) ?_
  rintro N' t2 ⟨h2, -, s1, hs1, hN⟩
  obtain rfl : N' = N := by
    rw [← h1.size, ← hs1.1]
    exact (Except.ok.inj hN).symm
  refine Prog.meets_seq (meets_look_free hw _ h2) ?_
  rintro lock_bsearch t3 ⟨h3, -⟩
  refine Prog.meets_seq (meets_look_free hw _ h3) ?_
  rintro node t4 ⟨h4, -⟩
  refine Prog.meets_seq (meets_count hw _ _ h4) ?_
  rintro _ t5 h5
  refine Prog.meets_seq (meets_add_search hw _ _ _ _ h5) ?_
  rintro r t6 ⟨hnone, hsome⟩
  rcases r with _ | ⟨loc, v⟩
  · obtain ⟨N6, h6⟩ := hnone rfl
    exact ⟨h6.mode, fun _ => ⟨N6, h6⟩⟩
  · exact meets_add_commit hw _ _ _ _ _ (hsome (by simp))

theorem meets_add_edge_parallel (hw : w ≠ .sound) (src dest value tries : Nat) (h : Ready w t) :
    Prog.Meets (locking w may) (add_edge_parallel src dest value tries)
      (fun _ t' => t'.mode = no_locks) t := by
  induction tries generalizing t with
  | zero =>
    obtain ⟨N, h⟩ := h
    unfold add_edge_parallel
    refine Prog.meets_seq (meets_look_free hw _ h) ?_
    rintro n t1 ⟨h1, -⟩
    split
    · refine Prog.meets_seq (meets_global_ready _ h1) ?_
      rintro _ t2 ⟨⟨N2, h2⟩, -⟩
      refine Prog.meets_seq (meets_count hw _ _ h2) ?_
      rintro _ t3 h3
      refine Prog.meets_seq (meets_insert_global hw _ _ _ h3) ?_
      rintro _ t4 h4
      exact meets_global_end _ h4
    · exact h1.mode
  | succ tries ih =>
    obtain ⟨N, h⟩ := h
    unfold add_edge_parallel
    refine Prog.meets_seq (meets_look_free hw _ h) ?_
    rintro n t1 ⟨h1, -⟩
    split
    · refine Prog.meets_seq (meets_add_edge_try hw _ _ ⟨N, h1⟩) ?_
      rintro again t2 ⟨hm, hagain⟩
      split
      · exact ih (hagain ‹_›)
      · exact hm
    · exact h1.mode

/-! ## Removals: where the locks go wrong -/

/-- The region of `src` starts and ends in these leaves. -/
def Region (s : PCSR) (src first last : Nat) : Prop :=
  ∃ node, s.node src = .ok node ∧ first = (node.beginning + 1) / logN s.N ∧
    last = node.end_ / logN s.N

/-- With `lock_bsearch`, a removal that finds the node changed calls `unlock` on locks that it
holds shared: those of the region, where there are any. -/
def UnlocksShared (s : PCSR) (src : Nat) : Prop :=
  s.lock_bsearch = true ∧ ∃ first last, Region s src first last ∧ first ≤ last ∧
    last < s.N / logN s.N

/-- The number of leaves shrinks when the array is halved. -/
def LosesLeaves (N : Nat) : Prop := N / 2 / logN (N / 2) < N / logN N

/-- The removal gets as far as `half_list`, which unlocks the locks that go: the shared locks of
the region can be taken, the edge is found and is the last item that keeps its windows dense
enough, the accesses of the validation and of the removal are inside the array, and there are
leaves that go. -/
def UnlocksDropped (s : PCSR) (src dest : Nat) : Prop :=
  (s.lock_bsearch = true → ∃ first last, Region s src first last ∧
    (first ≤ last → last < s.N / logN s.N)) ∧
  (∃ index, find_in_node s ⟨src, dest, 1⟩ src = .ok index ∧ StoredAt s index ⟨src, dest, 1⟩ ∧
    PositionRead s src index ∧ SparseToRoot s s.N index ∧
    ∃ r, remove_items s index ⟨src, dest, 1⟩ = .ok r) ∧
  LosesLeaves s.N

theorem node_counts {c : Nat → Nat} {s : PCSR} {v : Nat} {n : Node} :
    (with_counts c s).node v = .ok n ↔
      ∃ n0, s.node v = .ok n0 ∧ n = { n0 with num_neighbors := c v } := by
  unfold PCSR.node with_counts
  simp only [List.getElem?_mapIdx]
  cases s.nodes[v]? with
  | none => simp
  | some n0 => simp [eq_comm]

theorem region_counts {c : Nat → Nat} {s : PCSR} {src first last : Nat} :
    Region (with_counts c s) src first last ↔ Region s src first last := by
  unfold Region
  constructor
  · rintro ⟨n, hn, h1, h2⟩
    obtain ⟨n0, hn0, rfl⟩ := node_counts.mp hn
    exact ⟨n0, hn0, h1, h2⟩
  · rintro ⟨n0, hn0, h1, h2⟩
    exact ⟨_, node_counts.mpr ⟨n0, hn0, rfl⟩, h1, h2⟩

theorem find_in_node_eq {s : PCSR} {e : Edge} {src : Nat} {n : Node} (hn : s.node src = .ok n)
    {a : Nat × Nat}
    (ha : exec (binary_search s.N e (n.beginning + 1) n.end_ false) s = .ok (a, s)) :
    find_in_node s e src = .ok a.1 := by
  unfold find_in_node
  rw [hn]
  simp only [bind, Except.bind, ha]
  rfl

theorem find_in_node_ok {s : PCSR} {e : Edge} {src index : Nat}
    (h : find_in_node s e src = .ok index) :
    ∃ n v, s.node src = .ok n ∧
      exec (binary_search s.N e (n.beginning + 1) n.end_ false) s = .ok ((index, v), s) := by
  unfold find_in_node at h
  obtain ⟨n, hn, h⟩ := bind_ok h
  obtain ⟨⟨⟨loc, v⟩, s'⟩, ha, h⟩ := bind_ok h
  cases h
  refine ⟨n, v, hn, ?_⟩
  rw [exec_reads (only_reads_binary_search _ _ _ _) ha] at ha
  exact ha

theorem find_in_node_counts {c : Nat → Nat} {s : PCSR} {e : Edge} {src index : Nat} :
    find_in_node (with_counts c s) e src = .ok index ↔ find_in_node s e src = .ok index := by
  constructor
  · intro h
    obtain ⟨n, v, hn, ha⟩ := find_in_node_ok h
    obtain ⟨n0, hn0, rfl⟩ := node_counts.mp hn
    rw [exec_reads_counts (only_reads_binary_search _ _ _ _)] at ha
    obtain ⟨⟨a, s'⟩, hr, he⟩ := map_ok ha
    obtain ⟨rfl, -⟩ := Prod.mk.inj he
    rw [exec_reads (only_reads_binary_search _ _ _ _) hr] at hr
    exact find_in_node_eq hn0 hr
  · intro h
    obtain ⟨n, v, hn, ha⟩ := find_in_node_ok h
    refine find_in_node_eq (a := (index, v)) (node_counts.mpr ⟨n, hn, rfl⟩) ?_
    rw [exec_reads_counts (only_reads_binary_search _ _ _ _)]
    simp only [with_counts_N, ha, Except.map]

theorem unlocksShared_counts {c : Nat → Nat} {s : PCSR} {src : Nat} :
    UnlocksShared (with_counts c s) src ↔ UnlocksShared s src := by
  unfold UnlocksShared
  simp only [region_counts]
  rfl

theorem unlocksDropped_counts {c : Nat → Nat} {s : PCSR} {src dest : Nat} :
    UnlocksDropped (with_counts c s) src dest ↔ UnlocksDropped s src dest := by
  have hread : ∀ index, PositionRead (with_counts c s) src index ↔ PositionRead s src index := by
    intro index
    unfold PositionRead PCSR.get_n
    rw [with_counts_length]
    rfl
  have hitems : ∀ index e, (∃ r, remove_items (with_counts c s) index e = .ok r) ↔
      ∃ r, remove_items s index e = .ok r := by
    intro index e
    rw [remove_items_counts]
    cases remove_items s index e with
    | error f => simp [Except.map]
    | ok r => simp [Except.map]
  unfold UnlocksDropped
  simp only [region_counts, find_in_node_counts, hread, hitems]
  rfl

/-! ## Removals -/

/-- No lock is taken, and where releases are checked, none is given back. -/
def GivesOnly (w : World) (t t' : Own) : Prop :=
  (w = .lone → t'.mode = t.mode) ∧ ∀ i, t'.mode i ≠ none → t.mode i ≠ none

theorem GivesOnly.of_eq (h : u.mode = t.mode) : GivesOnly w t u :=
  ⟨fun _ => h, fun i hi => by rwa [← h]⟩

theorem GivesOnly.trans {v : Own} (h : GivesOnly w t u) (h' : GivesOnly w u v) : GivesOnly w t v :=
  ⟨fun hl => (h'.1 hl).trans (h.1 hl), fun i hi => h.2 i (h'.2 i hi)⟩

theorem meets_drop_locks (hw : w ≠ .sound) (rest a : Nat) (hrest : w = .lone → rest = 0) :
    Prog.Meets (locking w may) (drop_locks rest a) (fun _ t' => GivesOnly w t t') t := by
  induction rest generalizing a t with
  | zero => exact GivesOnly.of_eq rfl
  | succ rest ih =>
    have hl : w ≠ .lone := fun hl => absurd (hrest hl) (Nat.succ_ne_zero _)
    unfold drop_locks
    refine Prog.meets_seq (meets_leaf _ _ _ (fun h => absurd h hl) fun h => absurd h hw) ?_
    rintro _ t1 ⟨-, rfl⟩
    refine Prog.meets_seq (meets_leaf _ _ _ (fun h => absurd h hl) fun h => absurd h hw) ?_
    rintro _ t2 ⟨-, rfl⟩
    refine Prog.meets_mono (ih (a + 1) fun h => absurd h hl) ?_
    rintro _ t3 h3
    refine ⟨fun h => absurd h hl, fun i hi => ?_⟩
    have := h3.2 i hi
    by_contra hn
    refine this ?_
    show Function.update t.mode a none i = none
    by_cases hia : i = a
    · subst hia
      exact Function.update_self _ _ _
    · rw [Function.update_of_ne hia]
      exact hn

theorem meets_half_list (hw : w ≠ .sound) (hlose : w = .lone → ¬ LosesLeaves t.s.N) :
    Prog.Meets (locking w may) half_list (fun _ t' => GivesOnly w t t') t := by
  have hfixed : w = .lone → w ≠ .crowd := fun hl => by rw [hl]; decide
  unfold half_list
  refine Prog.meets_seq (meets_look _ t fun h => absurd h hw) ?_
  rintro prev t1 ⟨hk1, hm1, s1, hs1, hprev⟩
  refine Prog.meets_seq (meets_change _ t1 fun h => absurd h hw) ?_
  rintro _ t2 ⟨hm2, s2, hs2, hhalf⟩
  refine Prog.meets_seq (meets_look _ t2 fun h => absurd h hw) ?_
  rintro new t3 ⟨hk3, hm3, s3, hs3, hnew⟩
  have hrest : w = .lone → prev - new = 0 := by
    intro hl
    have hc := hfixed hl
    have hN2 : t2.s.N = t.s.N / 2 := by
      rw [← Except.ok.inj hhalf, hs2.2 hc, hk1.2 hc]
      rfl
    have h1 : prev = t.s.N / logN t.s.N := by rw [← Except.ok.inj hprev, hs1.2 hc]
    have h2 : new = t.s.N / 2 / logN (t.s.N / 2) := by
      rw [← Except.ok.inj hnew, hs3.2 hc, hN2]
    have := hlose hl
    unfold LosesLeaves at this
    omega
  refine Prog.meets_seq (meets_drop_locks hw _ _ hrest) ?_
  rintro _ t4 h4
  refine Prog.meets_mono (meets_change _ t4 fun h => absurd h hw) ?_
  rintro _ t5 ⟨hm5, -⟩
  exact (GivesOnly.of_eq (hm3.trans (hm2.trans hm1))).trans (h4.trans (GivesOnly.of_eq hm5))

theorem meets_remove (hw : w ≠ .sound) (index : Nat) (elem : Edge)
    (hlose : w = .lone → ∀ s', remove_items t.s index elem = .ok (true, s') → ¬ LosesLeaves t.s.N) :
    Prog.Meets (locking w may) (remove index elem) (fun _ t' => GivesOnly w t t') t := by
  have hfixed : w = .lone → w ≠ .crowd := fun hl => by rw [hl]; decide
  unfold remove
  refine ⟨fun h => absurd h hw, fun halve t1 hc => ?_⟩
  obtain ⟨s1, hs1, hr, hm1⟩ := hc
  show Prog.Meets _ (if halve then half_list else pure ()) _ t1
  split
  · rename_i hh
    subst hh
    refine Prog.meets_mono (meets_half_list hw fun hl => ?_) ?_
    · rw [hs1.2 (hfixed hl)] at hr
      rw [(remove_items_frame hr).N]
      exact hlose hl _ hr
    · rintro _ t2 h2
      exact (GivesOnly.of_eq hm1).trans h2
  · exact GivesOnly.of_eq hm1

theorem count_with_counts {s s' : PCSR} {v : Nat} {f : Nat → Nat}
    (h : s.count_neighbors v f = .ok s') : ∃ c, s' = with_counts c s := by
  obtain ⟨-, rfl⟩ := count_neighbors_ok h
  refine ⟨fun i => (fun k => if v = i then f k else k)
    ((s.nodes[i]?.map Node.num_neighbors).getD 0), ?_⟩
  unfold with_counts
  congr 1
  refine List.ext_getElem? fun i => ?_
  rw [List.getElem?_modify, List.getElem?_mapIdx]
  cases hn : s.nodes[i]? with
  | none => rfl
  | some n =>
    by_cases hv : v = i
    · simp [hv, hn]
    · simp [hv, hn]

theorem with_counts_twice (c c' : Nat → Nat) (s : PCSR) :
    with_counts c (with_counts c' s) = with_counts c s := by
  unfold with_counts
  congr 1
  refine List.ext_getElem? fun i => ?_
  simp only [List.getElem?_mapIdx]
  cases s.nodes[i]? <;> rfl

theorem with_counts_exists (s : PCSR) : ∃ c, s = with_counts c s := ⟨_, (with_own_counts s).symm⟩

variable {s0 : PCSR}

/-- The array is `s0` up to the counters, where the operation is alone. -/
def Same (w : World) (s0 : PCSR) (t : Own) : Prop := w = .lone → ∃ c, t.s = with_counts c s0

theorem Same.of_eq (h : Same w s0 t) (hs : w ≠ .crowd → u.s = t.s) : Same w s0 u := by
  intro hl
  obtain ⟨c, hc⟩ := h hl
  exact ⟨c, (hs (by rw [hl]; decide)).trans hc⟩

theorem meets_count_same (hw : w ≠ .sound) (v : Nat) (f : Nat → Nat) (h : Free w N t)
    (hs : Same w s0 t) :
    Prog.Meets (locking w may) (change (·.count_neighbors v f))
      (fun _ t' => Free w N t' ∧ Same w s0 t') t := by
  refine Prog.meets_mono (meets_change _ t fun h => absurd h hw) ?_
  rintro _ t' ⟨hm, s1, hs1, hc⟩
  obtain ⟨c, hs'⟩ := count_with_counts hc
  refine ⟨⟨⟨?_, h.pow, fun hc => ?_⟩, hm.trans h.mode⟩, fun hl => ?_⟩
  · rw [hs']
    exact hs1.1.trans h.size
  · rw [hs', hs1.2 hc]
    exact (h.sized hc).of_eq rfl rfl rfl
  · obtain ⟨c0, hc0⟩ := hs hl
    refine ⟨c, ?_⟩
    rw [hs', hs1.2 (by rw [hl]; decide), hc0, with_counts_twice]

/-- The search phase of a removal. -/
theorem meets_remove_search (hw : w ≠ .sound) (lock_bsearch : Bool) (e : Edge) (src : Nat)
    (node : Node) (h : Free w N t)
    (hnode : w = .lone → t.s.node src = .ok node ∧ t.s.lock_bsearch = lock_bsearch)
    (hbad : w = .lone → may = true → ¬ UnlocksShared t.s src) :
    Prog.Meets (locking w may) (remove_search N lock_bsearch e src node)
      (fun r t' => (r = none → Ready w t' ∧ (w ≠ .crowd → t'.s = t.s)) ∧
        ∀ loc v, r = some (loc, v) → Free w N t' ∧ (w ≠ .crowd → t'.s = t.s) ∧
          (w = .lone → find_in_node t.s e src = .ok loc ∧
            (t.s.lock_bsearch = true → ∃ first last, Region t.s src first last ∧
              (first ≤ last → last < t.s.N / logN t.s.N)))) t := by
  have hfixed : w = .lone → w ≠ .crowd := fun hl => by rw [hl]; decide
  unfold remove_search
  dsimp only
  simp only [get_node_id_find_leaf]
  split
  · rename_i hlock
    have hregion : w = .lone → Region t.s src ((node.beginning + 1) / logN N)
        (node.end_ / logN N) := fun hl => ⟨node, (hnode hl).1, by rw [h.size], by rw [h.size]⟩
    refine Prog.meets_seq (meets_take_range .shared _ _ h.mode fun hc => absurd hc hw) ?_
    rintro _ t1 ⟨htab, rfl⟩
    have hf : Fits w N ⟨t.s, range .shared ((node.beginning + 1) / logN N)
      (node.end_ / logN N + 1)⟩ := ⟨h.size, h.pow, h.sized⟩
    refine Prog.meets_seq (meets_look _ _ fun hc => absurd hc hw) ?_
    rintro now t2 ⟨hk2, hm2, -⟩
    have hf2 := hf.keeps hk2
    refine Prog.meets_seq (meets_test _ _ t2) ?_
    rintro changed t3 ⟨rfl, -, hmay⟩
    split
    · rename_i hch
      -- the locks are shared, and they are released as if they were exclusive
      have hunlock : Prog.Meets (locking w may)
          (release_locks_no_inc ((node.beginning + 1) / logN N) (node.end_ / logN N))
          (fun _ t' => t' = { t3 with mode := no_locks }) t3 := by
        by_cases hl : w = .lone
        · have hmt : may = true := by
            by_contra hne
            have := hmay rfl (by simpa using hne)
            rw [hch] at this
            cases this
          have hgt : ¬ (node.beginning + 1) / logN N ≤ node.end_ / logN N := by
            intro hle
            exact hbad hl hmt ⟨(hnode hl).2.trans hlock, _, _, hregion hl, hle, htab hle⟩
          unfold release_locks_no_inc leaf_range
          rw [show node.end_ / logN N + 1 - (node.beginning + 1) / logN N = 0 by omega]
          have hm3 : t3.mode = no_locks := hm2.trans (range_empty _ (by omega))
          show t3 = { t3 with mode := no_locks }
          rw [← hm3]
        · have hcrowd : w = .crowd := by
            cases w with
            | crowd => rfl
            | lone => exact absurd rfl hl
            | sound => exact absurd rfl hw
          refine meets_unlock_all hcrowd _ ?_
          rw [hm2]
          exact within_range _ (le_refl _) (by omega)
      refine Prog.meets_seq hunlock ?_
      rintro _ t4 rfl
      have h4 : Free w N { t3 with mode := no_locks } := ⟨⟨hf2.size, hf2.pow, hf2.sized⟩, rfl⟩
      refine Prog.meets_seq (meets_global_ready _ h4) ?_
      rintro _ t5 ⟨h5, hs5⟩
      refine ⟨fun _ => ⟨h5, fun hc => (hs5 hc).trans (hk2.2 hc)⟩, fun loc v hc => by cases hc⟩
    · refine Prog.meets_seq (meets_search hw _ _ _ _ t3) ?_
      rintro ⟨loc, v0⟩ t4 ⟨hk4, hm4, hfound⟩
      refine Prog.meets_seq (meets_look _ t4 fun hc => absurd hc hw) ?_
      rintro v t5 ⟨hk5, hm5, -⟩
      refine Prog.meets_seq (meets_give_range .shared (hm5.trans (hm4.trans hm2))
        fun hc => absurd hc hw) ?_
      rintro _ t6 rfl
      have hk := hk2.trans (hk4.trans hk5)
      have hf5 := hf.keeps hk
      refine ⟨fun hc => (by cases hc), fun loc' v' hc => ?_⟩
      cases hc
      refine ⟨⟨⟨hf5.size, hf5.pow, hf5.sized⟩, rfl⟩, hk.2, fun hl => ⟨?_, fun _ => ?_⟩⟩
      · have := hfound (hfixed hl)
        rw [hk2.2 (hfixed hl)] at this
        refine find_in_node_eq (a := (loc, v0)) (hnode hl).1 ?_
        rw [h.size]
        exact this
      · exact ⟨_, _, hregion hl, htab⟩
  · rename_i hlock
    refine Prog.meets_seq (meets_look_free hw _ h) ?_
    rintro now t1 ⟨h1, hk1, s1, hs1, hnow⟩
    refine Prog.meets_seq (meets_search hw _ _ _ _ t1) ?_
    rintro ⟨loc, v⟩ t2 ⟨hk2, hm2, hfound⟩
    have hk := hk1.trans hk2
    refine ⟨fun hc => (by cases hc), fun loc' v' hc => ?_⟩
    cases hc
    refine ⟨h1.keeps hk2 hm2, hk.2, fun hl => ⟨?_, fun hlb => ?_⟩⟩
    · have hc := hfixed hl
      have := hfound hc
      rw [hk1.2 hc] at this
      rw [hs1.2 hc] at hnow
      refine find_in_node_eq (a := (loc, v)) hnow ?_
      rw [h.size]
      exact this
    · rw [(hnode hl).2] at hlb
      exact absurd hlb hlock

theorem meets_remove_global (hw : w ≠ .sound) (e : Edge) (src : Nat) (h : Free w N t)
    (hlose : w = .lone → ∀ index s', find_in_node t.s e src = .ok index →
      remove_items t.s index e = .ok (true, s') → ¬ LosesLeaves t.s.N) :
    Prog.Meets (locking w may) (remove_global e src) (fun _ t' => t'.mode = no_locks) t := by
  have hfixed : w = .lone → w ≠ .crowd := fun hl => by rw [hl]; decide
  unfold remove_global
  refine Prog.meets_seq (meets_look_free hw _ h) ?_
  rintro N' t1 ⟨h1, hk1, s1, hs1, hN⟩
  refine Prog.meets_seq (meets_look_free hw _ h1) ?_
  rintro n t2 ⟨h2, hk2, s2, hs2, hn⟩
  refine Prog.meets_seq (meets_search hw _ _ _ _ t2) ?_
  rintro ⟨loc, v⟩ t3 ⟨hk3, hm3, hfound⟩
  refine Prog.meets_mono (meets_remove hw loc e fun hl s' hr => ?_) ?_
  · have hc := hfixed hl
    have hs3 : t3.s = t.s := (hk3.2 hc).trans ((hk2.2 hc).trans (hk1.2 hc))
    have hfound := hfound hc
    have hN' : N' = t.s.N := by
      rw [← hs1.2 hc]
      exact (Except.ok.inj hN).symm
    rw [hs2.2 hc, hk1.2 hc] at hn
    rw [hk2.2 hc, hk1.2 hc, hN'] at hfound
    rw [hs3] at hr ⊢
    exact hlose hl loc s' (find_in_node_eq (a := (loc, v)) hn hfound) hr
  · rintro _ t4 h4
    funext i
    by_contra hi
    have := h4.2 i hi
    rw [hm3, h2.mode] at this
    exact this rfl

theorem meets_remove_commit (hw : w ≠ .sound) (src dest loc v : Nat) (h : Free w N t)
    (hs : Same w s0 t)
    (hstop : w = .lone → ∀ s s', Sized s → (∃ j, StopsAt s s.N loc j) →
      remove_items s loc ⟨src, dest, 1⟩ ≠ .ok (true, s'))
    (hdrop : w = .lone → ¬ UnlocksDropped t.s src dest)
    (hfound : w = .lone → find_in_node t.s ⟨src, dest, 1⟩ src = .ok loc ∧
      (t.s.lock_bsearch = true → ∃ first last, Region t.s src first last ∧
        (first ≤ last → last < t.s.N / logN t.s.N))) :
    Prog.Meets (locking w may) (remove_commit N ⟨src, dest, 1⟩ src loc v)
      (fun again t' => Tried w again t' ∧ (again = true → Same w s0 t')) t := by
  have hfixed : w = .lone → w ≠ .crowd := fun hl => by rw [hl]; decide
  unfold remove_commit
  refine Prog.meets_seq (meets_acquire_remove_locks loc ⟨src, dest, 1⟩ src v (N + 2) none h
    (fun l hl => by cases hl) (fun hc => absurd hc hw) fun hc => absurd hc hw) ?_
  rintro acquired t1 ⟨hk1, hend⟩
  have hs1 := hs.of_eq hk1.2
  rcases acquired with (_ | _ | _) | ⟨a, b⟩
  · -- `NEED_GLOBAL_WRITE`
    obtain ⟨hheld, hroot, -⟩ := hend
    dsimp only
    refine Prog.meets_seq (meets_release hheld) ?_
    rintro _ t2 ⟨hk2, h2⟩
    refine Prog.meets_seq (meets_global_ready _ h2) ?_
    rintro _ t3 ⟨⟨N3, h3⟩, hs3⟩
    refine Prog.meets_seq (meets_global_ready _ h3) ?_
    rintro _ t4 ⟨⟨N4, h4⟩, hs4⟩
    refine Prog.meets_seq (meets_remove_global hw _ _ h4 fun hl index s' hf hr hlose => ?_) ?_
    · have hc := hfixed hl
      have heq : t4.s = t.s :=
        (hs4 hc).trans ((hs3 hc).trans ((hk2.2 hc).trans (hk1.2 hc)))
      rw [heq] at hf hr hlose
      have hindex : index = loc := by
        rw [(hfound hl).1] at hf
        exact (Except.ok.inj hf).symm
      subst hindex
      obtain ⟨hst, hpr, hsp⟩ := hroot hc
      rw [← h.size] at hsp
      exact hdrop hl ⟨(hfound hl).2, ⟨index, hf, hst, hpr, hsp, _, hr⟩, hlose⟩
    rintro _ t5 h5
    refine Prog.meets_seq (meets_global_end _ h5) ?_
    rintro _ t6 h6
    exact ⟨⟨h6, fun hc => by cases hc⟩, fun hc => by cases hc⟩
  · -- `NEED_RETRY`
    obtain ⟨h1, -⟩ := hend
    refine Prog.meets_seq (meets_count_same hw _ _ h1 hs1) ?_
    rintro _ t2 ⟨h2, hs2⟩
    refine Prog.meets_seq (meets_global_ready _ h2) ?_
    rintro _ t3 ⟨⟨N3, h3⟩, hs3⟩
    exact ⟨⟨h3.mode, fun _ => ⟨N3, h3⟩⟩, fun _ => hs2.of_eq hs3⟩
  · -- `EDGE_NOT_FOUND`
    obtain ⟨h1, -⟩ := hend
    refine Prog.meets_seq (meets_global_end _ h1.mode) ?_
    rintro _ t2 h2
    exact ⟨⟨h2, fun hc => by cases hc⟩, fun hc => by cases hc⟩
  · obtain ⟨hheld, hst, -⟩ := hend
    refine Prog.meets_seq (meets_remove hw loc _ fun hl s' hr => ?_) ?_
    · have hc := hfixed hl
      obtain ⟨-, j, hj⟩ := hst hc
      refine absurd hr (hstop hl _ s' (hheld.sized hc) ⟨j, ?_⟩)
      rw [hheld.size, hk1.2 hc]
      exact hj.1
    rintro _ t2 h2
    refine Prog.meets_seq (meets_release_locks hw hheld.le (fun i hi => ?_) fun hl => ?_) ?_
    · have := h2.2 i hi
      rw [hheld.mode] at this
      exact within_range _ (le_refl _) (le_refl _) i this
    · rw [h2.1 hl, hheld.mode]
    rintro _ t3 h3
    refine Prog.meets_seq (meets_global_end _ h3) ?_
    rintro _ t4 h4
    exact ⟨⟨h4, fun hc => by cases hc⟩, fun hc => by cases hc⟩

theorem meets_remove_edge (hw : w ≠ .sound) (src dest calls : Nat) (h : Ready w t)
    (hs : Same w s0 t)
    (hstop : w = .lone → ∀ loc s s', Sized s → (∃ j, StopsAt s s.N loc j) →
      remove_items s loc ⟨src, dest, 1⟩ ≠ .ok (true, s'))
    (hshared : w = .lone → may = true → ¬ UnlocksShared s0 src)
    (hdrop : w = .lone → ¬ UnlocksDropped s0 src dest) :
    Prog.Meets (locking w may) (remove_edge src dest calls) (fun _ t' => t'.mode = no_locks) t := by
  have hfixed : w = .lone → w ≠ .crowd := fun hl => by rw [hl]; decide
  induction calls generalizing t with
  | zero => exact meets_stuck hw
  | succ calls ih =>
    obtain ⟨N0, h⟩ := h
    unfold remove_edge
    have htry : Prog.Meets (locking w may) (remove_edge_try src dest)
        (fun again t' => Tried w again t' ∧ (again = true → Same w s0 t')) t := by
      unfold remove_edge_try
      refine Prog.meets_seq (meets_global_ready _ h) ?_
      rintro _ t1 ⟨⟨N, h1⟩, hs1⟩
      refine Prog.meets_seq (meets_look_free hw _ h1) ?_
      rintro N' t2 ⟨h2, hk2, s2, hs2, hN⟩
      obtain rfl : N' = N := by
        rw [← h1.size, ← hs2.1]
        exact (Except.ok.inj hN).symm
      refine Prog.meets_seq (meets_look_free hw _ h2) ?_
      rintro lock_bsearch t3 ⟨h3, hk3, s3, hs3, hlb⟩
      refine Prog.meets_seq (meets_look_free hw _ h3) ?_
      rintro node t4 ⟨h4, hk4, s4, hs4, hnode⟩
      have hsame : Same w s0 t4 :=
        ((hs.of_eq hs1).of_eq hk2.2).of_eq (hk3.trans hk4).2
      have hnode' : w = .lone → t4.s.node src = .ok node ∧ t4.s.lock_bsearch = lock_bsearch := by
        intro hl
        have hc := hfixed hl
        constructor
        · rw [hk4.2 hc, ← hs4.2 hc]
          exact hnode
        · rw [hk4.2 hc, hk3.2 hc, ← hs3.2 hc]
          exact Except.ok.inj hlb
      refine Prog.meets_seq (meets_remove_search hw lock_bsearch _ src node h4 hnode'
        fun hl hm hbad => ?_) ?_
      · obtain ⟨c, hc⟩ := hsame hl
        rw [hc] at hbad
        exact hshared hl hm (unlocksShared_counts.mp hbad)
      rintro r t5 ⟨hnone, hsome⟩
      rcases r with _ | ⟨loc, v⟩
      · obtain ⟨⟨N5, h5⟩, hs5⟩ := hnone rfl
        exact ⟨⟨h5.mode, fun _ => ⟨N5, h5⟩⟩, fun _ => hsame.of_eq hs5⟩
      · obtain ⟨h5, hs5, hfound⟩ := hsome loc v rfl
        have hsame5 := hsame.of_eq hs5
        refine Prog.meets_seq (meets_count_same hw _ _ h5 hsame5) ?_
        rintro _ t6 ⟨h6, hsame6⟩
        refine meets_remove_commit hw src dest loc v h6 hsame6 (fun hl => hstop hl loc)
          (fun hl hbad => ?_) fun hl => ?_
        · obtain ⟨c, hc⟩ := hsame6 hl
          rw [hc] at hbad
          exact hdrop hl (unlocksDropped_counts.mp hbad)
        · obtain ⟨hf, hreg⟩ := hfound hl
          obtain ⟨c, hc⟩ := hsame hl
          obtain ⟨c', hc'⟩ := hsame6 hl
          rw [hc] at hf hreg
          rw [hc']
          refine ⟨find_in_node_counts.mpr (find_in_node_counts.mp hf), fun hlb => ?_⟩
          obtain ⟨first, last, hr, hlt⟩ := hreg hlb
          exact ⟨first, last, region_counts.mpr (region_counts.mp hr), hlt⟩
    refine Prog.meets_seq htry ?_
    rintro again t1 ⟨⟨hm, hready⟩, hsame⟩
    split
    · exact ih (hready ‹_›) (hsame ‹_›)
    · exact hm

end

end packed_csr
