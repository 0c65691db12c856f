-- Doubling and halving: the items stay, in order, in an array of the new size
-- with its table of leaf locks.
import PackedCsr.Slides

namespace packed_csr

open effects

/-- What a change of the size gives: the same items in an array of `N` slots, and the node table
that knows them. -/
structure Rebuilt (s s' : PCSR) (N : Nat) : Prop where
  N : s'.N = N
  sized : Sized s'
  contents : s'.items.filter full = s.items.filter full
  nodes : s'.nodes.length = s.nodes.length
  lock_bsearch : s'.lock_bsearch = s.lock_bsearch
  first : s'.items[0]? = some (sentinel 0)
  linked : ∀ i, LinkedAt s' i
  ends : EndsAt s'.nodes s'.N

/-- The same for an array whose edges are in order. -/
structure Resized (s s' : PCSR) (N : Nat) : Prop where
  wf : WellFormed s'
  N : s'.N = N
  contents : s'.items.filter full = s.items.filter full
  nodes : s'.nodes.length = s.nodes.length
  lock_bsearch : s'.lock_bsearch = s.lock_bsearch

theorem Rebuilt.resized {s s' : PCSR} {N : Nat} (h : Rebuilt s s' N) (hw : WellFormed s) :
    Resized s s' N := by
  have hget : s'.get_n = s.get_n := h.nodes
  refine ⟨⟨h.sized, ?_, ?_, ?_, h.first, h.linked, h.ends⟩, h.N, h.contents, h.nodes, h.lock_bsearch⟩
  · rw [hget]
    exact hw.n_pos
  · rw [hget]
    exact hw.n_le
  · rw [h.contents, hget]
    exact hw.arranged

/-- The last step of a change of the size: a redistribution of the whole array, of which the
node table knows nothing yet. -/
theorem redistribute_all {s : PCSR} (hs : Sized s) (hn : 0 < s.get_n) (hle : s.get_n ≤ UINT32_MAX)
    (hgrp : Grouped s.get_n (s.items.filter full)) :
    ∃ s', redistribute s 0 s.N = .ok s' ∧ Rebuilt s s' s.N ∧
      ((s.items.filter full).length < s.N → IsGap s' (s.N - 1)) ∧
      ((s.items.filter full).length * 2 ≤ s.N → Apart s'.items) := by
  have hNpos := hs.pow.pos
  have hmem : ∀ v < s.get_n, sentinel v ∈ s.items := fun v hv =>
    (List.mem_filter.mp (hgrp.sentinels v hv)).1
  have hitems : s.items = [] ++ (s.items ++ []) := by simp
  have hne : s.items.filter full ≠ [] := List.ne_nil_of_mem (hgrp.sentinels 0 hn)
  have hout : LinkedOutside s 0 (0 + s.items.length) := by
    intro i hi v hv
    rw [List.getElem?_eq_none (by omega)] at hv
    cases hv
  obtain ⟨s', W, hrun, hframe, hitems', hspread, hlink, hends⟩ :=
    redistribute_spec (A := []) hitems (.inr hne) (List.length_pos_iff.mp (by rw [hs.items]; omega))
      hle hgrp.itemized hout
  simp only [List.length_nil, hs.items, List.nil_append, List.append_nil] at hrun hitems'
  have hcontents : s'.items.filter full = s.items.filter full := by rw [hitems', hspread.items]
  have hlen : W.length = s.N := by rw [hspread.length, hs.items]
  refine ⟨s', hrun, ?_, ?_, ?_⟩
  · refine ⟨hframe.N, ⟨?_, ?_, ?_⟩, hcontents, hframe.nodes, hframe.lock_bsearch, ?_, hlink, ?_⟩
    · rw [hframe.N]
      exact hs.pow
    · rw [hframe.items, hframe.N]
      exact hs.items
    · rw [hframe.versions, hframe.N]
      exact hs.versions
    · rw [hitems', hspread.front (by rw [hspread.items]; exact hne), hspread.items]
      rw [← List.head?_eq_getElem?]
      exact hgrp.head hn
    · exact hends (.inr (hmem _ (Nat.sub_lt hn Nat.one_pos)))
  · intro hlt
    rw [isGap_iff]
    obtain ⟨e, he, hf⟩ := hspread.back (by rw [hspread.items, hlen]; exact hlt)
    exact ⟨e, by rw [hitems', ← hlen]; exact he, hf⟩
  · intro hhalf
    rw [hitems']
    exact hspread.apart (by rw [hspread.items, hlen]; exact hhalf)

/-! ## Doubling -/

theorem double_list_rebuilt {s : PCSR} (hs : Sized s) (hn : 0 < s.get_n) (hle : s.get_n ≤ UINT32_MAX)
    (hgrp : Grouped s.get_n (s.items.filter full)) :
    ∃ s', double_list s = .ok s' ∧ Rebuilt s s' (s.N * 2) ∧ IsGap s' (s.N * 2 - 1) ∧
      Apart s'.items := by
  have hNpos := hs.pow.pos
  unfold double_list
  dsimp only [resizeEdgeArray]
  generalize hs1 : ({ s with N := s.N * 2, versions := _, items := _ } : PCSR) = s1
  have hs1N : s1.N = s.N * 2 := by rw [← hs1]
  have hs1n : s1.get_n = s.get_n := by rw [← hs1]; rfl
  have hs1i : s1.items = s.items ++ List.replicate (s.N * 2 - s.N * 2 / 2) null_edge := by rw [← hs1]
  have hfilter : s1.items.filter full = s.items.filter full := by
    rw [hs1i]
    simp [List.filter_append]
  have hsized : Sized s1 := by
    refine ⟨by rw [hs1N]; exact hs.pow.double, ?_, ?_⟩
    · rw [hs1i, hs1N]
      simp [hs.items]
      omega
    · rw [← hs1]
      have hle := leaves_le_double hs.pow
      simp [hs.versions]
      omega
  have hcount := List.length_filter_le full s.items
  rw [hs.items] at hcount
  obtain ⟨s', hrun, hreb, hback, hapart⟩ :=
    redistribute_all hsized (by rw [hs1n]; exact hn) (by rw [hs1n]; exact hle)
      (by rw [hs1n, hfilter]; exact hgrp)
  rw [hs1N, hfilter] at hback hapart
  rw [hs1N] at hrun
  refine ⟨s', hrun, ?_, hback (by omega), hapart (by omega)⟩
  refine ⟨by rw [hreb.N, hs1N], hreb.sized, by rw [hreb.contents, hfilter], ?_, ?_, hreb.first,
    hreb.linked, hreb.ends⟩
  · rw [hreb.nodes, ← hs1]
  · rw [hreb.lock_bsearch, ← hs1]

theorem double_list_spec {s : PCSR} (h : WellFormed s) :
    ∃ s', double_list s = .ok s' ∧ Resized s s' (s.N * 2) ∧ IsGap s' (s.N * 2 - 1) := by
  obtain ⟨s', hrun, hreb, hgap, -⟩ := double_list_rebuilt h.sized h.n_pos h.n_le h.arranged.grouped
  exact ⟨s', hrun, hreb.resized h, hgap⟩

/-! ## Halving -/

/-- The items `C` are at the front, and `J` is what is left between them and the slots `R` that
are still to come. -/
theorem half_pack_loop_spec (R C J : List Edge) : ∃ J', J'.length + (R.filter full).length =
      J.length + R.length ∧
    half_pack_loop R.length (C.length + J.length) C.length (C ++ (J ++ R)) =
      (C.length + (R.filter full).length, C ++ (R.filter full ++ J')) := by
  induction R generalizing C J with
  | nil => exact ⟨J, by simp, by simp [half_pack_loop]⟩
  | cons r R ih =>
    have hread : (C ++ (J ++ r :: R)).getD (C.length + J.length) null_edge = r := by
      simp
    simp only [List.length_cons, half_pack_loop, hread]
    cases hr : r.is_null with
    | true =>
      have hf : full r = false := by simp [full, hr]
      obtain ⟨J', hlen, hih⟩ := ih C (J ++ [r])
      refine ⟨J', ?_, ?_⟩
      · simp [hf] at hlen ⊢
        omega
      · simp only [List.length_append, List.length_singleton, List.append_assoc,
          List.singleton_append] at hih
        simp only [if_true, List.filter_cons, hf, Bool.false_eq_true, if_false]
        rw [← hih, Nat.add_assoc]
    | false =>
      have hf : full r = true := by simp [full, hr]
      have hmove : ∃ J2, J2.length = J.length ∧
          (C ++ (J ++ r :: R)).set C.length r = C ++ (r :: (J2 ++ R)) := by
        cases J with
        | nil => exact ⟨[], rfl, by simp⟩
        | cons x J1 => exact ⟨J1 ++ [r], by simp, by simp⟩
      obtain ⟨J2, hlen2, hset⟩ := hmove
      obtain ⟨J', hlen, hih⟩ := ih (C ++ [r]) J2
      refine ⟨J', ?_, ?_⟩
      · simp [hf] at hlen ⊢
        omega
      · simp only [List.length_append, List.length_singleton, List.append_assoc,
          List.singleton_append, hlen2] at hih
        simp only [Bool.false_eq_true, if_false, hset, List.filter_cons, hf, if_true,
          List.length_cons, List.cons_append]
        rw [show C.length + J.length + 1 = C.length + 1 + J.length by omega, hih]
        congr 1
        omega

theorem half_clear_loop_spec (P J B : List Edge) : ∃ J', J'.length = J.length ∧
    (∀ e ∈ J', full e = false) ∧
    half_clear_loop J.length P.length (P ++ (J ++ B)) = P ++ (J' ++ B) := by
  induction J generalizing P with
  | nil => exact ⟨[], rfl, by simp, rfl⟩
  | cons x J ih =>
    simp only [List.length_cons, half_clear_loop, List.cons_append]
    rw [getD_mid, set_mid]
    generalize hy : ({ x with dest := 0, value := 0 } : Edge) = y
    have hyfull : full y = false := by
      rw [← hy]
      rfl
    obtain ⟨J', hlen, hholes, hrun⟩ := ih (P ++ [y])
    refine ⟨y :: J', by simp [hlen], ?_, ?_⟩
    · intro e he
      rcases List.mem_cons.mp he with rfl | he
      · exact hyfull
      · exact hholes e he
    · simp only [List.length_append, List.length_singleton, List.append_assoc,
        List.singleton_append] at hrun
      rw [hrun]
      rfl

/-- The array behind the first two loops of `half_list`. -/
theorem half_items_spec {s : PCSR} (hs : Sized s) (hN : 2 ≤ s.N)
    (hfit : (s.items.filter full).length ≤ s.N / 2) :
    ∃ items, half_items s = { s with N := s.N / 2, items } ∧ items.length = s.N ∧
      (items.take (s.N / 2)).filter full = s.items.filter full := by
  have hhalf := hs.pow.half hN
  obtain ⟨J, hlen, hpack⟩ := half_pack_loop_spec s.items [] []
  simp only [List.nil_append, List.length_nil, Nat.add_zero, Nat.zero_add, hs.items] at hlen hpack
  generalize hC : s.items.filter full = C at *
  have hsplit : J = J.take (s.N / 2 - C.length) ++ J.drop (s.N / 2 - C.length) :=
    (List.take_append_drop _ _).symm
  have hJlen : (J.take (s.N / 2 - C.length)).length = s.N / 2 - C.length := by
    simp
    omega
  obtain ⟨J', hlen', hholes, hclear⟩ :=
    half_clear_loop_spec C (J.take (s.N / 2 - C.length)) (J.drop (s.N / 2 - C.length))
  rw [← hsplit, hJlen] at hclear
  refine ⟨C ++ (J' ++ J.drop (s.N / 2 - C.length)), ?_, ?_, ?_⟩
  · unfold half_items
    simp only [resizeEdgeArray, hhalf.2, hpack, hclear]
  · simp only [List.length_append, List.length_drop, hlen', hJlen]
    omega
  · have hfront : (C ++ J').length = s.N / 2 := by
      rw [List.length_append, hlen', hJlen]
      omega
    have hCfull : C.filter full = C := by
      rw [← hC, List.filter_filter]
      simp
    rw [← List.append_assoc, List.take_left' hfront, List.filter_append, hCfull, filter_holes hholes,
      List.append_nil]

theorem exec_drop_locks {s : PCSR} (rest a : Nat) (h : a + rest ≤ s.versions.length) :
    exec (drop_locks rest a) s = .ok ((), s) := by
  induction rest generalizing a with
  | zero => rfl
  | succ rest ih =>
    unfold drop_locks
    have hleaf : ∀ c, exec (leaf c a) s = .ok ((), s) := by
      intro c
      have hi : alone (.leaf c a) s = .ok ((), s) := if_pos (by omega)
      exact (Prog.run_op_ok alone hi).trans rfl
    rw [exec_bind_ok (hleaf _), exec_bind_ok (hleaf _)]
    exact ih (a + 1) (by omega)

theorem exec_half_list_rebuilt {s : PCSR} (hs : Sized s) (hn : 0 < s.get_n)
    (hle : s.get_n ≤ UINT32_MAX) (hgrp : Grouped s.get_n (s.items.filter full)) (hN : 2 ≤ s.N)
    (hfit : (s.items.filter full).length ≤ s.N / 2) :
    ∃ s', exec half_list s = .ok ((), s') ∧ Rebuilt s s' (s.N / 2) ∧
      ((s.items.filter full).length < s.N / 2 → IsGap s' (s.N / 2 - 1)) ∧
      ((s.items.filter full).length * 2 ≤ s.N / 2 → Apart s'.items) := by
  have hhalf := hs.pow.half hN
  obtain ⟨items, hitems, hlen, hfilter⟩ := half_items_spec hs hN hfit
  generalize hs1 : ({ s with N := s.N / 2, items } : PCSR) = s1 at hitems
  have hs1v : s1.versions = s.versions := by rw [← hs1]
  have hs1N : s1.N = s.N / 2 := by rw [← hs1]
  have hleaves : s1.N / logN s1.N ≤ s.N / logN s.N := by
    have := leaves_le_double hhalf.1
    rw [hhalf.2] at this
    rw [hs1N]
    exact this
  generalize hs2 : ({ s1 with
    versions := s1.versions.take (s1.N / logN s1.N)
    items := s1.items.take s1.N } : PCSR) = s2
  have hs2N : s2.N = s.N / 2 := by rw [← hs2, hs1N]
  have hs2n : s2.get_n = s.get_n := by rw [← hs2, ← hs1]; rfl
  have hs2i : s2.items.filter full = s.items.filter full := by
    rw [← hs2, ← hs1]
    exact hfilter
  have hsized : Sized s2 := by
    refine ⟨by rw [hs2N]; exact hhalf.1, ?_, ?_⟩
    · rw [hs2N, ← hs2, ← hs1]
      simp [hlen]
      omega
    · rw [← hs2]
      simp only [List.length_take, hs1v, hs.versions]
      omega
  obtain ⟨s', hrun, hreb, hback, hapart⟩ :=
    redistribute_all hsized (by rw [hs2n]; exact hn) (by rw [hs2n]; exact hle)
      (by rw [hs2n, hs2i]; exact hgrp)
  rw [hs2N, hs2i] at hback hapart
  have hfinish : half_finish s1 = .ok s' := by
    unfold half_finish
    dsimp only
    rw [hs2, show s1.N = s2.N by rw [hs2N, hs1N]]
    exact hrun
  refine ⟨s', ?_, ?_, hback, hapart⟩
  · unfold half_list
    rw [exec_look_bind (b := s.N / logN s.N) rfl]
    have hchange : exec (change fun s => .ok (half_items s)) s = .ok ((), s1) :=
      exec_change (congrArg Except.ok hitems)
    rw [exec_bind_ok hchange]
    rw [exec_look_bind (b := s1.N / logN s1.N) rfl]
    rw [exec_bind_ok (exec_drop_locks _ _ (by rw [hs1v, hs.versions]; omega))]
    exact exec_change hfinish
  · refine ⟨by rw [hreb.N, hs2N], hreb.sized, by rw [hreb.contents, hs2i], ?_, ?_, hreb.first,
      hreb.linked, hreb.ends⟩
    · rw [hreb.nodes, ← hs2, ← hs1]
    · rw [hreb.lock_bsearch, ← hs2, ← hs1]

theorem exec_half_list {s : PCSR} (h : WellFormed s) (hN : 2 ≤ s.N)
    (hfit : (s.items.filter full).length < s.N / 2) :
    ∃ s', exec half_list s = .ok ((), s') ∧ Resized s s' (s.N / 2) ∧ IsGap s' (s.N / 2 - 1) := by
  obtain ⟨s', hrun, hreb, hgap, -⟩ :=
    exec_half_list_rebuilt h.sized h.n_pos h.n_le h.arranged.grouped hN hfit.le
  exact ⟨s', hrun, hreb.resized h, hgap hfit⟩

end packed_csr
