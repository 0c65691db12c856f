-- What one thread does to an array call by call: each call that fits keeps the array good,
-- and says what it does to the items and to the counters of neighbours.
import PackedCsr.Calls
import PackedCsr.RemovalPlans

namespace packed_csr

open effects

/-! ## Good states -/

/-- What the calls keep: a well-formed array, with no item in the last slot behind a gap, and
counters that are values of their type. -/
structure Good (s : PCSR) : Prop where
  wf : WellFormed s
  end_full : EndFull s
  counted : Counted s
  size : 4 ≤ s.N

section

variable {s s' : PCSR} {e x : Edge} {p : Nat}

theorem Alike.good (h : Alike s s') (hg : Good s) (hc : Counted s') : Good s' := by
  refine ⟨h.well_formed hg.wf, h.end_full hg.end_full, hc, ?_⟩
  rw [h.N]
  exact hg.size

theorem PastEnd.lt (h : PastEnd s e p) (hw : WellFormed s) : p < s.N := by
  have := h.last
  have := hw.sized.pow.pos
  omega

/-- The search for an edge, and where its slot is. -/
theorem Good.finds (hg : Good s) (he : IsEdge s.get_n e) : ∃ p v, Finds s e p v ∧
    find_in_node s e e.src = .ok p ∧ (Place s e p ∨ PastEnd s e p) ∧ p < s.N ∧ 0 < p := by
  obtain ⟨node, p, v, hnode, hrun, hv, hp⟩ := search_place hg.wf (.inl hg.end_full) he rfl
  refine ⟨p, v, ⟨⟨node, hnode, hrun⟩, hv⟩, find_in_node_of hnode hrun, hp, ?_⟩
  rcases hp with hp | hp
  · exact ⟨hp.lt, hp.pos⟩
  · have := hg.size
    have := hp.last
    exact ⟨hp.lt hg.wf, by omega⟩

/-- An item behind the place of an edge belongs to its vertex, which is the last one. -/
theorem PastEnd.item_there (h : PastEnd s e p) (hw : WellFormed s) (he : IsEdge s.get_n e) :
    e.src + 1 = s.get_n ∧ ∃ x, s.items[p]? = some x ∧ packed_csr.full x = true ∧
      x.src = e.src ∧ Before x e := by
  obtain ⟨x, hx, hf, hbefore, -⟩ := h.full
  have hlast : ∀ v < s.get_n, sentinel v = x ∨ Before (sentinel v) x := by
    intro v hv
    obtain ⟨i, hi⟩ := hw.arranged.sentinel_slot hv
    rcases Nat.lt_trichotomy i p with hlt | rfl | hgt
    · exact .inr (sorted_slots hw.arranged.sorted hi hx (full_sentinel v) hf hlt)
    · rw [hi] at hx
      cases hx
      exact .inl rfl
    · have hlen := (List.getElem?_eq_some_iff.mp hi).1
      rw [hw.sized.items] at hlen
      have := h.last
      omega
  have hsrc : ∀ v < s.get_n, v ≤ x.src := by
    intro v hv
    rcases hlast v hv with rfl | hb
    · exact le_refl _
    · exact before_src hb
  have hxe := before_src hbefore
  have hex := hsrc e.src he.src
  refine ⟨?_, x, hx, hf, by omega, hbefore⟩
  have hn := hsrc (s.get_n - 1) (by have := hw.n_pos; omega)
  have := he.src
  omega

/-- The validation rejects the slot. -/
theorem PastEnd.rejected (h : PastEnd s e p) (hw : WellFormed s) (he : IsEdge s.get_n e) (h2 : 2 ≤ s.N) :
    correct_position s e.src p e.dest = false := by
  obtain ⟨hlast, x, hx, hf, hsrc, hbefore⟩ := h.item_there hw he
  rw [Bool.eq_false_iff]
  intro hcorrect
  obtain ⟨hforeign, hdest, -, -⟩ := (correct_position_iff hx).mp hcorrect
  have hnull : x.is_null = false := by simpa [packed_csr.full] using hf
  rcases (hw.arranged.slot_item hx hf).cases with hs | hs
  · have hle := hdest hf hs
    have hlt := (before_edges hs he.not_sentinel hsrc).mp hbefore
    omega
  · -- the sentinel of the vertex itself is in the last slot
    have hzero : x.value ≠ UINT32_MAX := by
      intro hv
      rw [hs, hsrc, sentinel_first (lt_of_lt_of_le he.src hw.n_le)] at hv
      rw [hsrc, hv] at hs
      have hp : p = 0 := by
        by_contra hne
        have hb := sorted_slots hw.arranged.sorted hw.first hx (full_sentinel 0) hf
          (Nat.pos_of_ne_zero hne)
        rw [hs] at hb
        exact before_irrefl _ hb
      have := h.last
      omega
    have hsent : is_sentinel x = true := by
      rw [hs]
      rfl
    simp [foreign_item, hnull, hsent, hlast, hzero] at hforeign

theorem leaves_mono {N M : Nat} (hN : Pow N) (hM : Pow M) (hle : N ≤ M) : N / logN N ≤ M / logN M := by
  obtain ⟨k, rfl⟩ := hM
  obtain ⟨j, rfl⟩ := hN
  have hjk : j ≤ k := (Nat.pow_le_pow_iff_right (by decide)).mp hle
  induction k, hjk using Nat.le_induction with
  | base => exact le_refl _
  | succ k hjk ih =>
    have hle' := leaves_le_double (N := 2 ^ k) ⟨k, rfl⟩
    rw [← Nat.pow_succ] at hle'
    exact (ih (Nat.pow_le_pow_right (by decide) hjk)).trans hle'

/-! ## Calls -/

/-- The edge that a call is about. -/
def Call.edge : Call → Edge
  | .add_edge src dest value => ⟨src, dest, value⟩
  | .remove_edge src dest => ⟨src, dest, 1⟩

/-- A call that fits the array: an edge comes in only where the array takes it at the slot that the
search gives. -/
def Call.Fits (s : PCSR) : Call → Prop
  | .add_edge src dest value => ∀ p, find_in_node s ⟨src, dest, value⟩ src = .ok p →
      Takes s ⟨src, dest, value⟩ p
  | .remove_edge _ _ => True

theorem Call.Valid.is_edge {n : Nat} {c : Call} (h : c.Valid n) : IsEdge n c.edge := by
  cases c with
  | add_edge src dest value => exact ⟨h.1, h.2.1, h.2.2.1, h.2.2.2⟩
  | remove_edge src dest => exact ⟨h.1, h.2, Nat.one_pos, (by decide : 1 < UINT32_MAX)⟩

theorem incr32_lt (x : Nat) : incr32 x < 4294967296 := Nat.mod_lt _ (by decide)

theorem decr32_lt (x : Nat) : decr32 x < 4294967296 := Nat.mod_lt _ (by decide)

theorem Alike.takes (h : Alike s s') : Takes s' e p ↔ Takes s e p := by
  unfold Takes Slides Room
  simp only [h.stores, h.gap, h.items, h.N]

theorem Inserted.leaves (h : Inserted s s' e) (hw : WellFormed s) :
    s.versions.length ≤ s'.versions.length := by
  rw [hw.sized.versions, h.wf.sized.versions]
  exact leaves_mono hw.sized.pow h.wf.sized.pow h.size

/-- What a call that adds an edge does. -/
structure Grows (s s' : PCSR) (e : Edge) : Prop where
  good : Good s'
  n : s'.get_n = s.get_n
  lock_bsearch : s'.lock_bsearch = s.lock_bsearch
  contents : Added e (s.items.filter full) (s'.items.filter full)
  size : s.N ≤ s'.N
  tallies : packed_csr.tallies s' = (packed_csr.tallies s).modify e.src incr32

/-- Where the array takes an edge, its insertion comes to an end, whatever the counters are. -/
theorem Good.inserts (hg : Good s) (he : IsEdge s.get_n e) (hp : Place s e p ∨ PastEnd s e p)
    (hfit : Takes s e p) (c : Nat → Nat) {info : Option insertion_info} (hplan : PlanOf (with_counts c s) p info) :
    ∃ s2, insert (with_counts c s) p e e.src info = .ok s2 ∧ Inserted (with_counts c s) s2 e := by
  have halike := alike_with_counts c s
  apply insert_spec (halike.well_formed hg.wf)
  · rw [halike.get_n]
    exact he
  · rw [halike.N]
    exact hg.size
  · rcases hp with hp | hp
    · exact .inl (halike.place hp)
    · exact .inr (halike.past_end hp)
  · exact halike.takes.mpr hfit
  · exact hplan.ok

theorem add_edge_adds {src dest value : Nat} (hg : Good s) (he : IsEdge s.get_n ⟨src, dest, value⟩)
    (hfit : (Call.add_edge src dest value).Fits s) :
    ∃ p s', find_in_node s ⟨src, dest, value⟩ src = .ok p ∧
      exec (add_edge src dest value) s = .ok ((), s') ∧ Adds s p ⟨src, dest, value⟩ s' ∧
      (Place s ⟨src, dest, value⟩ p ∨ PastEnd s ⟨src, dest, value⟩ p) ∧ Takes s ⟨src, dest, value⟩ p := by
  obtain ⟨p, v, hf, hfind, hp, hpN, hpos⟩ := hg.finds he
  have hins : ∀ c, CanInsert (with_counts c s) p ⟨src, dest, value⟩ := by
    intro c info hplan
    obtain ⟨s2, hs2, hres⟩ := hg.inserts he hp (hfit p hfind) c hplan
    exact ⟨s2, hs2, hres.leaves ((alike_with_counts c s).well_formed hg.wf)⟩
  obtain ⟨s', hrun, hadds⟩ := exec_add_edge hg.wf hg.counted hpN hpos (Nat.ne_of_gt he.value_pos) hf hins
  exact ⟨p, s', hfind, hrun, hadds, hp, hfit p hfind⟩

/-- A call of `add_edge` that fits. -/
theorem add_edge_grows {src dest value : Nat} (hg : Good s) (he : IsEdge s.get_n ⟨src, dest, value⟩)
    (hfit : (Call.add_edge src dest value).Fits s) :
    ∃ s', exec (add_edge src dest value) s = .ok ((), s') ∧ Grows s s' ⟨src, dest, value⟩ := by
  obtain ⟨p, s', -, hrun, ⟨c, htally, info, s2, hplan, hs2, hsame, htally'⟩, hp, htakes⟩ :=
    add_edge_adds hg he hfit
  obtain ⟨s2', hs2', hres⟩ := hg.inserts he hp htakes c hplan
  cases hs2.symm.trans hs2'
  have htallies : tallies s' = (tallies s).modify src incr32 :=
    htally'.trans ((insert_tallies hs2).trans htally)
  refine ⟨s', hrun, ?_, ?_, ?_, ?_, ?_, htallies⟩
  · refine ⟨hsame.well_formed hres.wf, ?_, hg.counted.modify incr32_lt htallies, ?_⟩
    · exact hsame.end_full (hres.end_full ((alike_with_counts c s).end_full hg.end_full))
    · rw [hsame.N]
      exact hg.size.trans hres.size
  · rw [hsame.get_n, hres.n, (alike_with_counts c s).get_n]
  · rw [hsame.lock_bsearch, hres.lock_bsearch]
    rfl
  · rw [hsame.items]
    exact hres.added
  · rw [hsame.N]
    exact hres.size

/-- What a call that removes an edge does. -/
structure Shrinks (s s' : PCSR) (e : Edge) : Prop where
  good : Good s'
  n : s'.get_n = s.get_n
  lock_bsearch : s'.lock_bsearch = s.lock_bsearch
  absent : (∀ p, ¬ Stores s e p) → s'.items = s.items ∧ s'.N = s.N
  contents : ∀ p x, Stores s e p → s.items[p]? = some x →
    s'.items.filter full = (s.items.filter full).erase x
  size : ∀ p, Stores s e p →
    (¬ SparseToRoot s s.N p ∧ s'.N = s.N) ∨ (SparseToRoot s s.N p ∧ 8 ≤ s.N ∧ s'.N = s.N / 2 ∧
      EvenlySpaced s' ∧ s'.versions = s.versions.take (s'.N / logN s'.N))
  tallies : packed_csr.tallies s' = (packed_csr.tallies s).modify e.src decr32

/-- A removal at the place of its edge. -/
theorem Deletes.shrinks (hg : Good s) (he : IsEdge s.get_n e) (hplace : Place s e p) (h : Deletes s p e s') :
    Shrinks s s' e := by
  obtain ⟨c, htally, hres⟩ := h
  have hsame := alike_with_counts c s
  have hcounted : Counted (with_counts c s) := hg.counted.modify decr32_lt htally
  rcases hres with ⟨hno, rfl⟩ | ⟨hst, s2, hs2, hsame2, htally2, hversions2⟩
  · have hno' : ∀ q, ¬ Stores s e q := by
      intro q hq
      obtain rfl := hplace.stores he.not_sentinel hq
      obtain ⟨x, hx, hfull, -, -, hdest⟩ := hq
      exact hno ⟨x, hx, by simpa [full] using hfull, he.not_sentinel, hdest⟩
    refine ⟨hsame.good hg hcounted, hsame.get_n, rfl, fun _ => ⟨rfl, rfl⟩, ?_, ?_, htally⟩
    · intro q x hq
      exact absurd hq (hno' q)
    · intro q hq
      exact absurd hq (hno' q)
  · rw [hsame.stored_at] at hst
    have hstores : Stores s e p := by
      by_contra hno
      exact not_stored_of_place (.inl hplace) hno hst
    have hstores' := hstores
    obtain ⟨x, hx, hfull, hs, -, hdest⟩ := hstores
    obtain ⟨s3, hs3, hk, hcontents, -, hN⟩ := exec_remove_stored (hsame.well_formed hg.wf) hx hfull
      he.not_sentinel hs hdest
    cases hs2.symm.trans hs3
    have htallies : tallies s' = (tallies s).modify e.src decr32 :=
      htally2.trans ((exec_remove_tallies hs2).trans htally)
    refine ⟨⟨hsame2.well_formed hk.wf, ?_, hg.counted.modify decr32_lt htallies, ?_⟩, ?_, ?_, ?_, ?_,
      ?_, htallies⟩
    · exact hsame2.end_full (hk.end_full (hsame.end_full hg.end_full))
    · have := hg.size
      have := hsame.N
      rw [hsame2.N]
      rcases hN with ⟨-, hN⟩ | ⟨-, h8, hN, -⟩
      · omega
      · omega
    · rw [hsame2.get_n, hk.n, hsame.get_n]
    · rw [hsame2.lock_bsearch, hk.lock_bsearch]
      rfl
    · intro hno
      exact absurd hstores' (hno p)
    · intro q y hq hy
      obtain rfl := hplace.stores he.not_sentinel hq
      rw [hx] at hy
      cases hy
      rw [hsame2.items]
      exact hcontents
    · intro q hq
      obtain rfl := hplace.stores he.not_sentinel hq
      rcases hN with ⟨hdense, hN⟩ | ⟨hsparse, h8, hN, -, hspaced, hversions⟩
      · rw [hsame2.N]
        exact .inl ⟨hdense, hN⟩
      · have hNs : (with_counts c s).N = s.N := rfl
        rw [hversions2 (by omega)]
        exact .inr ⟨hsparse, h8, hN, hspaced, hversions⟩

/-- A call of `remove_edge`, where no item before the place of the edge stands in the last slot. -/
theorem remove_edge_deletes {src dest : Nat} (hg : Good s) (he : IsEdge s.get_n ⟨src, dest, 1⟩)
    (hin : ∀ p, find_in_node s ⟨src, dest, 1⟩ src = .ok p → ¬ PastEnd s ⟨src, dest, 1⟩ p) :
    ∃ p s', (∀ calls, exec (remove_edge src dest (calls + 1)) s = .ok ((), s')) ∧
      Place s ⟨src, dest, 1⟩ p ∧ Deletes s p ⟨src, dest, 1⟩ s' := by
  obtain ⟨p, v, hf, hfind, hp, hpN, hpos⟩ := hg.finds he
  have hplace : Place s ⟨src, dest, 1⟩ p := hp.resolve_right (hin p hfind)
  have haccepted := hplace.accepted hg.wf.laid_out he
  obtain ⟨s', hrun, hres⟩ := exec_remove_edge hg.wf hg.counted hpN hpos he.dest hf haccepted
  exact ⟨p, s', hrun, hplace, hres⟩

theorem remove_edge_shrinks {src dest : Nat} (hg : Good s) (he : IsEdge s.get_n ⟨src, dest, 1⟩)
    (hin : ∀ p, find_in_node s ⟨src, dest, 1⟩ src = .ok p → ¬ PastEnd s ⟨src, dest, 1⟩ p) :
    ∃ s', (∀ calls, exec (remove_edge src dest (calls + 1)) s = .ok ((), s')) ∧
      Shrinks s s' ⟨src, dest, 1⟩ := by
  obtain ⟨p, s', hrun, hplace, hres⟩ := remove_edge_deletes hg he hin
  exact ⟨s', hrun, hres.shrinks hg he hplace⟩

/-- Where an item before the place of the edge stands in the last slot, a call of `remove_edge`
never ends. -/
theorem remove_edge_never_ends {src dest : Nat} (hg : Good s) (he : IsEdge s.get_n ⟨src, dest, 1⟩)
    (hpast : ∃ p, find_in_node s ⟨src, dest, 1⟩ src = .ok p ∧ PastEnd s ⟨src, dest, 1⟩ p)
    (calls : Nat) : exec (remove_edge src dest calls) s = .error .fuel := by
  obtain ⟨p, v, hf, hfind, -, hpN, hpos⟩ := hg.finds he
  obtain ⟨p', hfind', hpast⟩ := hpast
  cases hfind.symm.trans hfind'
  have h2 : 2 ≤ s.N := le_trans (by decide) hg.size
  exact exec_remove_edge_stuck hg.wf hg.counted hpN hpos he.dest hf (hpast.rejected hg.wf he h2) calls

/-- Where a call of `remove_edge` returns, no item before the place of the edge stands in the last slot. -/
theorem remove_edge_returned {src dest calls : Nat} (hg : Good s) (he : IsEdge s.get_n ⟨src, dest, 1⟩)
    (hrun : exec (remove_edge src dest calls) s = .ok ((), s')) :
    ∀ p, find_in_node s ⟨src, dest, 1⟩ src = .ok p → ¬ PastEnd s ⟨src, dest, 1⟩ p := by
  intro p hfind hpast
  have hstuck := remove_edge_never_ends hg he ⟨p, hfind, hpast⟩ calls
  cases hstuck.symm.trans hrun

end

end packed_csr
