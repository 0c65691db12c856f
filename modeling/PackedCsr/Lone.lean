-- An edge that goes among gaps: the search, the plan and the insertion, step by step.
import PackedCsr.Termination

namespace packed_csr

open effects

section

variable {s : PCSR} {e : Edge} {p v : Nat}

/-! ## The search -/

/-- A search among gaps gives the midpoint. -/
theorem exec_search_gaps (elem : Edge) (start end_ : Nat) (hs : Sized s) (h1 : 1 ≤ start) (hend : end_ < s.N)
    (hwide : start + 1 < end_) (hgaps : ∀ j, start ≤ j → j < end_ → IsGap s j) :
    ∃ v, exec (binary_search s.N elem start end_ false) s = .ok (((start + end_) / 2, v), s) ∧
      s.load ((start + end_) / 2 / logN s.N) = .ok v := by
  generalize hmid : (start + end_) / 2 = mid
  have hlt : mid < s.items.length := by
    rw [hs.items]
    omega
  obtain ⟨item, check, hfan, hfound⟩ := fan_spec hs h1 hend hwide hmid.symm
    (List.getElem?_eq_getElem hlt)
  rcases hfound with ⟨hf, hget, hc1, hc2, -⟩ | ⟨hf, hc, -⟩
  · exact not_gap (hgaps check hc1 hc2) hget hf
  have hnull : item.is_null = true := by simpa [full] using hf
  obtain ⟨v, hv, hload⟩ := load_leaf hs (show check < s.N by omega)
  obtain ⟨v2, hv2, hload2⟩ := load_leaf (i := mid) hs (by omega)
  have hloop : exec (search_loop s.N elem.dest (end_ - start + 1) start end_) s =
      .ok (.inl (mid, v2), s) := by
    unfold search_loop
    rw [if_pos hwide]
    dsimp only
    rw [hmid, exec_look_bind (item_of_lt hlt), exec_bind_ok hfan]
    dsimp only
    rw [exec_look_bind hload, exec_look_bind hload2]
    simp only [hnull, Bool.true_or, if_true, Bool.not_true, Bool.false_and, Bool.false_eq_true, if_false]
    rfl
  refine ⟨v2, ?_, hv2⟩
  unfold binary_search
  dsimp only
  rw [exec_bind_ok hloop]
  rfl

/-! ## The plan -/

theorem exec_lock_up_to_zero (mx : Nat) : exec (lock_up_to 0 mx) s = .ok (mx, s) := rfl

/-- The climb stops at a leaf with room. -/
theorem exec_insert_plan_climb {leaf mn mx rest : Nat} (hs : Sized s) (hleaf : leaf + logN s.N ≤ s.N)
    (hfew : filled s.items leaf (logN s.N) + 1 < logN s.N) :
    exec (insert_plan_climb s.N (rest + 1) (logN s.N) (height s.N) leaf mn mx) s =
      .ok (.window (logN s.N) leaf mn mx, s) := by
  obtain ⟨b, hb⟩ := density_bound_exists (N := s.N) (show 0 ≤ (height s.N : Int) by omega) (le_refl _)
  obtain ⟨d, hd⟩ := get_density_exists
    (show leaf + logN s.N ≤ s.items.length by rw [hs.items]; exact hleaf)
  have hL : (0 : ℚ) < logN s.N := by exact_mod_cast logN_pos s.N
  have hroom : too_full (d + 1 / (logN s.N : ℚ)) b = false := by
    rw [Bool.eq_false_iff]
    intro hfull
    obtain ⟨-, -, rfl⟩ := density_bound_ok hb
    obtain ⟨-, rfl⟩ := get_density_ok hd
    by_cases hh : height s.N = 0
    · rw [if_pos hh] at hfull
      cases hfull
    · rw [if_neg hh] at hfull
      simp only [too_full, decide_eq_true_eq] at hfull
      have hhq : ((height s.N : Int) : ℚ) ≠ 0 := by exact_mod_cast hh
      have hone : (1 : ℚ) ≤ (filled s.items leaf (logN s.N) + 1) / logN s.N := by
        rw [add_div]
        refine le_trans (le_of_eq ?_) hfull
        push_cast at hhq ⊢
        field_simp
        norm_num
      rw [le_div_iff₀ hL, one_mul] at hone
      have hone' : logN s.N ≤ filled s.items leaf (logN s.N) + 1 := by exact_mod_cast hone
      omega
  unfold insert_plan_climb
  rw [exec_look_bind (b := b) hb]
  unfold density_of
  rw [exec_look_bind hd, hroom]
  rfl

/-- The plan of an insertion at a gap of a leaf with room: that leaf alone is held. -/
theorem exec_acquire_lone (hs : Sized s) (hp : p < s.N - 1) (hgap : IsGap s p)
    (hv : s.load (p / logN s.N) = .ok v)
    (hfew : filled s.items (find_leaf s.N p) (logN s.N) + 1 < logN s.N) (src : Nat) :
    exec (acquire_insert_locks s.N true p e src v 4 none) s =
      .ok ((.range (p / logN s.N) (p / logN s.N), some ⟨logN s.N, find_leaf s.N p, false⟩), s) := by
  have hpN : p < s.N := by omega
  have hL := logN_pos s.N
  have htable : p / logN s.N < s.versions.length := by
    rw [hs.versions]
    exact slot_in_table hs.pow hpN
  obtain ⟨x, hx, hnull⟩ := hgap
  have hitem : s.item p = .ok x := by
    unfold PCSR.item
    rw [hx]
  have hin : find_leaf s.N p + logN s.N ≤ s.N := find_node_add_le (pow_logN s.N) hs.pow (logN_le hs.pow) hpN
  obtain ⟨d, hd⟩ := get_density_exists
    (show find_leaf s.N p + logN s.N ≤ s.items.length by rw [hs.items]; exact hin)
  have hfull : decide (d + 1 / (logN s.N : ℚ) = 1) = false := by
    obtain ⟨-, rfl⟩ := get_density_ok hd
    have hne : (logN s.N : ℚ) ≠ 0 := by exact_mod_cast hL.ne'
    rw [decide_eq_false_iff_not, ← add_div, div_eq_one_iff_eq hne]
    intro hc
    have hc' : filled s.items (find_leaf s.N p) (logN s.N) + 1 = logN s.N := by exact_mod_cast hc
    omega
  have hself : find_node (find_leaf s.N p) (logN s.N) = find_leaf s.N p :=
    find_node_of_dvd (by rw [find_leaf_eq]; exact dvd_find_node p _)
  have hnext : get_node_id s.N (find_leaf s.N (find_leaf s.N p + logN s.N)) = p / logN s.N + 1 := by
    rw [get_node_id_find_leaf]
    unfold find_leaf
    rw [Nat.add_div_right _ hL, Nat.mul_div_cancel _ hL]
  have hwindow : exec (insert_plan_window s.N (find_leaf s.N p) (p / logN s.N) (p / logN s.N)) s =
      .ok (.window (logN s.N) (find_leaf s.N p) (p / logN s.N) (p / logN s.N), s) := by
    unfold insert_plan_window density_of
    dsimp only
    rw [exec_look_bind hd]
    simp only [hfull, Bool.false_and, Bool.false_eq_true, if_false, leaf_if, Prog.pure_eq, Prog.ret_bind]
    rw [exec_bind_ok (exec_insert_plan_climb hs hin hfew)]
    dsimp only
    rw [hself, if_neg (lt_irrefl _), hnext, Nat.sub_self, exec_bind_ok (exec_lock_up_to_zero _)]
    rfl
  have hslide : exec (insert_plan_slide s.N p (logN s.N) (find_leaf s.N p) (p / logN s.N) (p / logN s.N)) s =
      .ok (.inr (.range (p / logN s.N) (p / logN s.N), some ⟨logN s.N, find_leaf s.N p, false⟩), s) := by
    unfold insert_plan_slide
    dsimp only
    rw [exec_look_bind hitem, if_pos hnull]
    rfl
  have hfirst : exec (insert_first_locks true (p / logN s.N) none) s = .ok (p / logN s.N, s) := by
    unfold insert_first_locks
    simp only [Bool.not_true, Bool.false_eq_true, and_false, if_false]
    rw [exec_bind_ok (exec_leaf .lock htable)]
    rfl
  have htry : exec (insert_try s.N true p e src v none) s =
      .ok (.inr (.range (p / logN s.N) (p / logN s.N), some ⟨logN s.N, find_leaf s.N p, false⟩), s) := by
    unfold insert_try
    dsimp only
    rw [get_node_id_find_leaf, exec_bind_ok hfirst, exec_look_bind hv, exec_bind_ok (exec_test _ _)]
    simp only [ne_eq, not_true_eq_false, decide_false, Bool.false_eq_true, if_false]
    rw [exec_look_bind hitem, if_neg (by omega)]
    simp only [if_true, Prog.pure_eq, Prog.ret_bind, Bool.not_true, Bool.false_eq_true, if_false]
    rw [exec_bind_ok hwindow]
    exact hslide
  unfold acquire_insert_locks
  rw [exec_bind_ok htry]
  rfl

/-! ## The insertion -/

/-- What an insertion at a gap of a leaf with room does: the edge is in that leaf, and all else is where
it was. -/
structure LoneInserted (s s' : PCSR) (e : Edge) (p : Nat) : Prop where
  frame : SameFrame s s'
  outside : ∀ i, ¬ (find_leaf s.N p ≤ i ∧ i < find_leaf s.N p + logN s.N) → s'.items[i]? = s.items[i]?
  around : ∀ i len, i ≤ find_leaf s.N p → find_leaf s.N p + logN s.N ≤ i + len →
    filled s'.items i len = filled s.items i len + 1

theorem insert_lone (hw : WellFormed s) (he : IsEdge s.get_n e) (hp : Place s e p) (hgap : IsGap s p)
    (hfew : filled s.items (find_leaf s.N p) (logN s.N) + 1 < logN s.N) :
    ∃ s', insert s p e e.src (some ⟨logN s.N, find_leaf s.N p, false⟩) = .ok s' ∧ LoneInserted s s' e p := by
  obtain ⟨s1, hput, hpl⟩ := place_gap hw he hp hgap
  have hN1 := hpl.frame.N
  obtain ⟨-, hs1⟩ := put_ok hput
  have hitems1 : s1.items = s.items.set p e := by rw [hs1]
  obtain ⟨s2, hrun, -, hred⟩ := redistribute_leaf hpl.wf (show p < s1.N by rw [hN1]; exact hp.lt)
  rw [hN1] at hrun hred
  obtain ⟨x, hx, hnull⟩ := hgap
  have hread : s.item p = .ok x := by
    unfold PCSR.item
    rw [hx]
  have hin := find_leaf_lt_succ s.N p
  have haround : ∀ i len, i ≤ find_leaf s.N p → find_leaf s.N p + logN s.N ≤ i + len →
      filled s1.items i len = filled s.items i len + 1 := by
    intro i len hi hlen
    have hset := gapped.count_set full e hx (i := i) (show i ≤ p by omega) (show p < i + len by omega)
    rw [if_pos he.full, if_neg (by simp [full, hnull])] at hset
    rw [hitems1]
    exact hset
  have hleaf := haround (find_leaf s.N p) (logN s.N) (le_refl _) (le_refl _)
  obtain ⟨d, hd⟩ := get_density_exists (show find_leaf s.N p + logN s.N ≤ s1.items.length by
    rw [hpl.frame.items, hw.sized.items]
    exact find_node_add_le (pow_logN s.N) hw.sized.pow (logN_le hw.sized.pow) hp.lt)
  have hdne : d ≠ 1 := by
    intro hd1
    have hfull := (filled_full (logN_pos s.N) hd).mp hd1
    omega
  have hN2 : s2.N = s.N := hred.frame.N.trans hN1
  refine ⟨s2, ?_, hpl.frame.trans hred.frame, ?_, ?_⟩
  · unfold insert insert_calls insert_item insert_finish
    simp only [hread, bind, Except.bind, hnull, if_true, hput, hd, hdne, if_false, hrun, hN2,
      Bool.false_eq_true, pure, Except.pure, lt_irrefl]
  · intro i hi
    rw [hred.outside i hi, hitems1, List.getElem?_set_ne (by omega)]
  · intro i len hi hlen
    rw [hred.filled hi hlen]
    exact haround i len hi hlen

/-! ## The call -/

theorem exec_release_one {l : Nat} (h : l < s.versions.length) :
    exec (release_locks l l) s = .ok ((), { s with versions := s.versions.modify l (· + 1) }) := by
  have hbump : s.bump l = .ok { s with versions := s.versions.modify l (· + 1) } := if_pos h
  unfold release_locks
  rw [show l + 1 - l = 0 + 1 by omega]
  unfold release_loop
  rw [exec_bind_ok (exec_change hbump), exec_bind_ok (exec_leaf .unlock _)]
  · rfl
  · simp only [List.length_modify]
    exact h

/-- A call of `add_edge` whose edge goes to a gap of a leaf with room: the version of that leaf alone goes
up. -/
theorem exec_add_edge_lone {src dest value : Nat} (hw : WellFormed s)
    (hlock : s.lock_bsearch = true) (he : IsEdge s.get_n ⟨src, dest, value⟩)
    (hf : Finds s ⟨src, dest, value⟩ p v) (hp : Place s ⟨src, dest, value⟩ p) (hlast : p < s.N - 1)
    (hgap : IsGap s p) (hfew : filled s.items (find_leaf s.N p) (logN s.N) + 1 < logN s.N) :
    ∃ s2 s', LoneInserted s s2 ⟨src, dest, value⟩ p ∧
      exec (add_edge src dest value) s = .ok ((), s') ∧ s'.items = s2.items ∧ s'.N = s.N ∧
      s'.versions = s.versions.modify (p / logN s.N) (· + 1) := by
  obtain ⟨node, hnode, hend, hrun⟩ := hf.region hw
  obtain ⟨c, hcount, -⟩ := count_exists incr32 hf.src_lt
  have halike := alike_with_counts c s
  have hwc := halike.well_formed hw
  obtain ⟨s2, hins, hlone⟩ := insert_lone hwc (by rw [halike.get_n]; exact he) (halike.place hp)
    (halike.gap.mpr hgap) hfew
  have htable : p / logN s.N < s2.versions.length := by
    rw [hlone.frame.versions]
    change p / logN s.N < s.versions.length
    rw [hw.sized.versions]
    exact slot_in_table hw.sized.pow hp.lt
  have hcommit : exec (add_commit s.N true ⟨src, dest, value⟩ src p v) (with_counts c s) =
      .ok (false, { s2 with versions := s2.versions.modify (p / logN s.N) (· + 1) }) := by
    have hacquire := exec_acquire_lone (e := ⟨src, dest, value⟩) hwc.sized hlast (halike.gap.mpr hgap)
      hf.version hfew src
    simp only [with_counts_N] at hacquire hins
    unfold add_commit
    rw [exec_bind_ok hacquire]
    dsimp only
    rw [exec_bind_ok (exec_change hins), exec_bind_ok (exec_release_one htable), exec_bind_ok (exec_global _)]
    rfl
  have htry : exec (add_edge_try ⟨src, dest, value⟩ src) s =
      .ok (false, { s2 with versions := s2.versions.modify (p / logN s.N) (· + 1) }) := by
    unfold add_edge_try
    rw [exec_bind_ok (exec_global _), exec_look_bind (b := s.N) rfl,
      exec_look_bind (b := s.lock_bsearch) rfl, exec_look_bind hnode, exec_bind_ok (exec_change hcount),
      hlock, exec_bind_ok (exec_add_search_locked hw hnode hrun hend c)]
    exact hcommit
  refine ⟨s2, { s2 with versions := s2.versions.modify (p / logN s.N) (· + 1) }, ?_, ?_, rfl,
    hlone.frame.N, ?_⟩
  · refine ⟨?_, hlone.outside, hlone.around⟩
    have hnodes : (with_counts c s).nodes.length = s.nodes.length := halike.get_n
    exact ⟨hlone.frame.N, hlone.frame.items, hlone.frame.nodes.trans hnodes, hlone.frame.versions,
      hlone.frame.lock_bsearch⟩
  · unfold add_edge add_edge_parallel
    rw [exec_look_bind (b := s.get_n) rfl, if_pos ⟨Nat.ne_of_gt he.value_pos, he.src⟩, exec_bind_ok htry]
    rfl
  · change s2.versions.modify _ _ = _
    rw [hlone.frame.versions]
    rfl

end

end packed_csr
