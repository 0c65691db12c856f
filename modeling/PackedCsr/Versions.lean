-- What the version of a leaf is good for. Between the search of a thread and its commit, other threads
-- change the array. The law: a leaf with the version of the search holds what it held, and a slot with
-- an item on both sides in its leaf is still the place of its edge.
import PackedCsr.Commits

namespace packed_csr

open effects

section

variable {s s' u : PCSR} {e : Edge} {p v : Nat}

/-! ## Slots -/

/-- The leaf of slot `p` holds an item before the slot, and one from the slot on. -/
def Surrounded (s : PCSR) (p : Nat) : Prop :=
  (∃ i x, i < p ∧ i / logN s.N = p / logN s.N ∧ s.items[i]? = some x ∧ full x = true) ∧
    ∃ j y, p ≤ j ∧ j / logN s.N = p / logN s.N ∧ s.items[j]? = some y ∧ full y = true

theorem leaf_between {N a b i : Nat} (ha : a / logN N = p / logN N) (hb : b / logN N = p / logN N)
    (hai : a ≤ i) (hib : i ≤ b) : i / logN N = p / logN N := by
  apply Nat.le_antisymm
  · rw [← hb]
    exact Nat.div_le_div_right hib
  · rw [← ha]
    exact Nat.div_le_div_right hai

/-- The place of an edge, behind changes in other leaves. -/
theorem Place.kept (h : Place s e p) (hw : WellFormed s') (he : is_sentinel e = false) (hN : s'.N = s.N)
    (hsame : ∀ k, k / logN s.N = p / logN s.N → s'.items[k]? = s.items[k]?) (hp : Surrounded s p) :
    Place s' e p := by
  by_cases hst : Stores s e p
  · apply Stores.place hw he
    obtain ⟨x, hx, hx'⟩ := hst
    exact ⟨x, (hsame p rfl).trans hx, hx'⟩
  obtain ⟨⟨a, x, hap, ha, hx, hfx⟩, b, y, hpb, hb, hy, hfy⟩ := hp
  have hx' : s'.items[a]? = some x := (hsame a ha).trans hx
  have hy' : s'.items[b]? = some y := (hsame b hb).trans hy
  have hafter : Before e y := by
    rcases Nat.eq_or_lt_of_le hpb with rfl | hlt
    · exact h.at_before hst hy hfy
    · exact h.after b y hlt hy hfy
  refine ⟨by rw [hN]; exact h.lt, h.pos, ?_, ?_, ?_⟩
  · intro i z hip hz hfz
    rcases Nat.lt_or_ge i a with hia | hai
    · exact (sorted_slots hw.arranged.sorted hz hx' hfz hfx hia).trans (h.before a x hap hx hfx)
    · rw [hsame i (leaf_between ha hb hai (by omega))] at hz
      exact h.before i z hip hz hfz
  · intro z hz hfz
    rw [hsame p rfl] at hz
    exact .inr ((h.at_ z hz hfz).resolve_left hst)
  · intro i z hpi hz hfz
    rcases Nat.lt_or_ge b i with hbi | hib
    · exact hafter.trans (sorted_slots hw.arranged.sorted hy' hz hfy hfz hbi)
    · rw [hsame i (leaf_between ha hb (by omega) hib)] at hz
      exact h.after i z hpi hz hfz

/-! ## The test of the version -/

theorem load_eq : s.load p = .ok v ↔ s.versions[p]? = some v := by
  unfold PCSR.load
  split
  · rename_i w hw
    rw [hw, Except.ok.injEq, Option.some.injEq]
  · rename_i hnone
    simp [hnone]

/-- A plan of leaves has found the version that the search has read. -/
theorem Call.Plans.version {c : Call} {a b : Nat} {info : Option insertion_info} (hg : Good s)
    (hc : c.Valid s.get_n) (hpos : 0 < p) (hp : p < s.N) (h : c.Plans s p v (.range a b) info u) :
    s.load (p / logN s.N) = .ok v := by
  have he := hc.is_edge
  cases c with
  | add_edge src dest value =>
    obtain ⟨-, htested⟩ := acquire_insert_answers (e := ⟨src, dest, value⟩) hg.wf hp hpos
      (fun l hl => by cases hl) h
    exact (htested a b info rfl).1
  | remove_edge src dest =>
    obtain ⟨s1, hcount, -, hrun⟩ := h
    obtain ⟨c, hcount', -⟩ := count_exists decr32 he.src
    cases hcount.symm.trans hcount'
    obtain ⟨hsteady, -⟩ := count_steady hg decr32_lt he.src hcount
    have hw := hsteady.good.wf
    have hlen : p ≤ s.items.length := by
      rw [hg.wf.sized.items]
      exact hp.le
    have hfree : Free .sound s.N ⟨with_counts c s, no_locks⟩ := ⟨⟨rfl, hg.wf.sized.pow, fun _ => hw.sized⟩, rfl⟩
    have hread : PositionRead (with_counts c s) src p :=
      .inr (prev_item_exists (j := 0) hlen hpos hg.wf.first (by simp))
    have hleaf : p / logN s.N < s.N + 2 := by
      have := Nat.div_le_self p (logN s.N)
      omega
    obtain ⟨r, u', hrun', -, hend⟩ := meets_exec (meets_acquire_remove_locks p ⟨src, dest, 1⟩ src v
      (s.N + 2) none hfree (fun l hl => by cases hl) (fun _ => ⟨hp, hread⟩) fun _ => hleaf)
    cases hrun.symm.trans hrun'
    exact (hend.2.2 rfl rfl).2

end

/-! ## Steps -/

section

variable {T : Type} [DecidableEq T] {m m' : Crowd T} {l : Option Call} {i : T} {c : Call} {p v : Nat}

theorem CrowdStep.sound (h : m.Sound) (hstep : CrowdStep m l m') : m'.Sound :=
  (hstep.follows ⟨h, holds_map_of h.good.wf⟩).1

/-- No step resizes the array while a thread is between its search and its commit. -/
theorem CrowdStep.guarded (h : m.Sound) (hi : m.stage i = some (.ticket c p v))
    (hsize : logN m.s.N * 2 ≤ m.s.N) (hstep : CrowdStep m l m') : Guarded m.s m'.s := by
  cases hstep with
  | search hidle hc hrun =>
    obtain ⟨-, -, hguarded, -⟩ := hrun.steady h.good hc
    exact hguarded
  | commit hj hplan hleaves hright hrun =>
    obtain ⟨hc, hpos, hp⟩ := h.ticket _ _ _ _ hj
    obtain ⟨again, s', hrun', -, -, hguarded, -⟩ :=
      commit_returns h.good hc hpos hp hplan hleaves hright
    cases hrun.symm.trans hrun'
    exact hguarded hsize
  | escalate hj hplan =>
    obtain ⟨hc, hpos, hp⟩ := h.ticket _ _ _ _ hj
    obtain ⟨-, -, hguarded, -⟩ := plans_whole h.good hc hpos hp hplan
    exact hguarded
  | whole hj hclear hfit hrun => exact absurd hi (hclear i c p v)
  | locked hclear hc hfit hrun => exact absurd hi (hclear i c p v)

/-- A step of the others, while the thread `i` is between its search and its commit. -/
def Beside (i : T) (c : Call) (p v : Nat) (m : Crowd T) (l : Option Call) (m' : Crowd T) : Prop :=
  CrowdStep m l m' ∧ m'.stage i = some (.ticket c p v)

theorem Beside.run {ls : List (Option Call)} (h : m.Sound) (hi : m.stage i = some (.ticket c p v))
    (hsize : logN m.s.N * 2 ≤ m.s.N) (hrun : traces.Run (Beside i c p v) m ls m') :
    (m'.Sound ∧ m'.stage i = some (.ticket c p v)) ∧ Guarded m.s m'.s := by
  apply hrun.keeps (I := fun m' : Crowd T => (m'.Sound ∧ m'.stage i = some (.ticket c p v)) ∧
    Guarded m.s m'.s)
  · rintro m1 l m2 ⟨⟨hs, hi1⟩, hguarded⟩ ⟨hstep, hi2⟩
    refine ⟨⟨hstep.sound hs, hi2⟩, hguarded.trans (hstep.guarded hs hi1 ?_)⟩
    rw [hguarded.N]
    exact hsize
  · exact ⟨⟨h, hi⟩, .of_same rfl rfl rfl⟩

/-! ## The law -/

end

end packed_csr
