-- Growth: as long as a graph has no edges, its last slot stays free, and it takes one vertex after
-- the other. The second constructor builds its graph so.
import PackedCsr.Vertices

namespace packed_csr

/-- `add_node`, again and again. -/
def add_nodes : (count : Nat) → PCSR → Res PCSR
  | 0, s => pure s
  | count + 1, s => do
    let s ← add_node s
    add_nodes count s

/-- The array before the loop of the second constructor: all slots are free. -/
def blank_pcsr (N : Nat) (lock_search : Bool) : PCSR :=
  ⟨N, List.replicate N null_edge, [], List.replicate (N / logN N) 0, lock_search⟩

/-- `PCSR(init_n, cvs, lock_search)`. -/
def grown_pcsr (init_n : Nat) (lock_search : Bool) : Res PCSR :=
  add_nodes init_n (blank_pcsr (2 * 2 ^ Nat.log2 init_n) lock_search)

section

variable {s s1 s' : PCSR} {n p len ni : Nat}

/-! ## The last slot -/

/-- The window that the climb of an insertion settles on is not full. -/
theorem climb_has_room {rest : Nat} {level : Int} {ni' len' : Nat} (hheight : height s.N ≠ 0) (hlen : 0 < len)
    (h : insert_climb s rest len level ni = .ok (some (len', ni'))) : filled s.items ni' len' < len' := by
  induction rest generalizing len level ni with
  | zero => cases h
  | succ rest ih =>
    unfold insert_climb at h
    obtain ⟨b, hb, h⟩ := bind_ok h
    obtain ⟨d, hd, h⟩ := bind_ok h
    dsimp only at h
    split at h
    · split at h
      · exact ih (Nat.mul_pos hlen (by decide)) h
      · cases h
    · rename_i hroom
      cases h
      obtain ⟨-, hlevel, rfl⟩ := density_bound_ok hb
      obtain ⟨-, rfl⟩ := get_density_ok hd
      have hy := bound_y_le hheight hlevel
      rw [if_neg hheight] at hroom
      simp only [too_full, decide_eq_true_eq, not_le] at hroom
      have hpos : (0 : ℚ) < len' := by exact_mod_cast hlen
      have hlt := (div_lt_one hpos).mp (hroom.trans_le hy)
      exact_mod_cast hlt

/-- A redistribution that finds room leaves the last slot free. -/
theorem Redistributed.last_free (h : Redistributed s s' ni len) (hpow : Pow s.N) {i0 : Nat} (hi0 : i0 < s.N)
    (hwin : Window s.N i0 len ni) (hroom : filled s.items ni len < len)
    (hlast : ni + len < s.N → IsGap s (s.N - 1)) : IsGap s' (s'.N - 1) := by
  rw [h.frame.N]
  rcases hwin.end_or hpow hi0 with heq | hle
  · rw [← heq]
    exact h.back hroom
  · have hpos := hwin.len_pow.pos
    obtain ⟨x, hx, hnull⟩ := hlast (by omega)
    refine ⟨x, ?_, hnull⟩
    rw [h.outside _ (by omega)]
    exact hx

/-- The end of an insertion leaves the last slot free, where it was free before or the leaf is full and
lies in the last pair. -/
theorem finish_last_free (h : WellFormed s) (hheight : height s.N ≠ 0) (hni : ni < s.N)
    (hwin : Window s.N ni (logN s.N * 2 ^ 0) ni)
    (hlast : IsGap s (s.N - 1) ∨ filled s.items ni (logN s.N) = logN s.N ∧ s.N ≤ ni + logN s.N * 2)
    (hrun : insert_finish s ni none = .ok s') : IsGap s' (s'.N - 1) := by
  have hspec := insert_climb_spec h.sized hni hwin (lt_leaf_mul_two_pow s.N)
  rw [Nat.pow_zero, Nat.mul_one, Int.natCast_zero, sub_zero] at hspec
  obtain ⟨r, hclimb, hwindow⟩ := hspec
  unfold insert_finish at hrun
  simp only [hclimb, bind, Except.bind] at hrun
  cases r with
  | none =>
    obtain ⟨s2, hdouble, hres, hgap⟩ := double_list_spec h
    cases hdouble.symm.trans hrun
    rw [hres.N]
    exact hgap
  | some w =>
    obtain ⟨len, ni'⟩ := w
    have hw := hwindow len ni' rfl
    have hroom := climb_has_room hheight (logN_pos s.N) hclimb
    dsimp only at hrun
    split at hrun
    · rename_i hlt
      obtain ⟨s2, hred, -, hr⟩ := redistribute_window h hni hw
      cases hred.symm.trans hrun
      refine hr.last_free h.sized.pow hni hw hroom fun hin => hlast.resolve_right ?_
      rintro ⟨-, hpair⟩
      have hcover := lt_find_node_add ni hw.len_pow.pos
      rw [← hw.at_] at hcover
      have hle := (hw.end_or h.sized.pow hni).resolve_left (by omega)
      obtain ⟨j, hj⟩ := hw.pow
      have htwo : logN s.N * 2 ≤ len := by
        rw [hj] at hlt ⊢
        cases j with
        | zero => omega
        | succ j =>
          rw [Nat.pow_succ]
          exact Nat.mul_le_mul_left _ (Nat.le_mul_of_pos_left 2 (Nat.two_pow_pos j))
      omega
    · rename_i hlt
      cases hrun
      refine hlast.resolve_right ?_
      rintro ⟨hfull, -⟩
      obtain rfl : len = logN s.N := Nat.le_antisymm (Nat.le_of_not_lt hlt) hw.leaf_le
      have hat : ni' = ni := by
        rw [hw.at_]
        have hni' := hwin.at_
        rw [Nat.pow_zero, Nat.mul_one] at hni'
        exact hni'.symm
      rw [hat] at hroom
      omega

/-- The parts of an insertion: the write, the redistribution, and the end. -/
theorem insert_item_inv {i : Nat} {e : Edge} {info : Option insertion_info}
    (h : insert_item s i ni e info = .ok s') :
    ∃ s1 s2 len ni', s.put i e = .ok s1 ∧ redistribute s1 ni' len = .ok s2 ∧
      insert_finish s2 ni' info = .ok s' ∧
      (len = logN s.N ∧ ni' = ni ∨ len = logN s.N * 2 ∧ ni' = find_node ni (logN s.N * 2)) := by
  unfold insert_item at h
  dsimp only at h
  obtain ⟨s1, hput, h⟩ := bind_ok h
  obtain ⟨d, -, h⟩ := bind_ok h
  split at h
  · obtain ⟨s2, hred, h⟩ := bind_ok h
    exact ⟨s1, s2, _, _, hput, hred, h, .inr ⟨rfl, rfl⟩⟩
  · obtain ⟨s2, hred, h⟩ := bind_ok h
    exact ⟨s1, s2, _, _, hput, hred, h, .inl ⟨rfl, rfl⟩⟩

/-- The sentinel of a new vertex does not come to stand in the last slot. -/
theorem Awaits.last_free (h : Awaits s n p) (h8 : 8 ≤ s.N)
    (hrun : packed_csr.insert s p (sentinel n) n none = .ok s') : IsGap s' (s'.N - 1) := by
  have hlt : p < s.items.length := by
    rw [h.sized.items]
    exact h.lt
  have hput := put_of_lt (sentinel n) hlt
  generalize hs1 : ({ s with items := s.items.set p (sentinel n) } : PCSR) = s1 at hput
  obtain ⟨-, hloose⟩ := h.put hput
  have hframe := put_frame hput
  have hN := hframe.N
  obtain ⟨x, hx, hnull⟩ := h.free p (le_refl p) h.lt
  have hread : s.item p = .ok x := by
    unfold PCSR.item
    rw [hx]
  unfold packed_csr.insert insert_calls at hrun
  simp only [hread, bind, Except.bind, hnull, if_true] at hrun
  obtain ⟨t, s2, len, ni, hput', hred, hfin, hcase⟩ := insert_item_inv hrun
  cases hput.symm.trans hput'
  have hp1 : p < s1.N := by
    rw [hN]
    exact h.lt
  have hpow : Pow s1.N := by
    rw [hN]
    exact h.sized.pow
  have hsized : Sized s1 := (hloose p (p + 1) (le_refl _) (Nat.lt_succ_self p)).sized
  have hleaf := leaf_window hsized p
  have hwin : Window s1.N p len ni := by
    rw [← hN] at hcase
    rcases hcase with ⟨rfl, rfl⟩ | ⟨rfl, rfl⟩
    · rw [Nat.pow_zero, Nat.mul_one] at hleaf
      exact hleaf
    · have hup := hleaf.up (by rw [Nat.pow_zero, Nat.mul_one]; exact two_leaves hpow (by omega))
      rw [Nat.pow_zero, Nat.mul_one] at hup
      exact hup
  have hni : ni ≤ p := by
    rw [hwin.at_]
    exact find_node_le p len
  have hcover : p < ni + len := by
    rw [hwin.at_]
    exact lt_find_node_add p hwin.len_pow.pos
  obtain ⟨s2', hred', hk, hr⟩ := redistribute_loose_window (hloose ni (ni + len) hni hcover) hp1 hwin
  cases hred.symm.trans hred'
  have hN2 := hr.frame.N
  have hni2 : ni < s2.N := by
    rw [hN2]
    omega
  have hheight : height s2.N ≠ 0 := by
    rw [hN2, height_ne_zero hpow]
    omega
  rw [← hN2] at hwin
  refine finish_last_free hk.wf hheight hni2 hwin.leaf_of ?_ hfin
  rw [hN2] at hwin ⊢
  have hle : len ≤ logN s1.N * 2 := by
    rw [hN]
    rcases hcase with ⟨rfl, -⟩ | ⟨rfl, -⟩ <;> omega
  have hbehind : ni + len < s1.N → IsGap s1 (s1.N - 1) := by
    intro hin
    obtain ⟨y, hy, hynull⟩ := h.free (s.N - 1) (by omega) (by omega)
    refine ⟨y, ?_, hynull⟩
    rw [hN, ← hs1]
    dsimp only
    rw [List.getElem?_set, if_neg (by omega)]
    exact hy
  by_cases hroom : filled s1.items ni len < len
  · left
    rw [← hN2]
    exact hr.last_free hpow hp1 hwin hroom hbehind
  · rcases hwin.end_or hpow hp1 with heq | hin
    · right
      refine ⟨Nat.le_antisymm (gapped.count_le ..) (Nat.le_of_not_lt fun hlt => hroom ?_), by omega⟩
      obtain ⟨k, hk1, hk2, hhole⟩ := gapped.exists_hole (by
        have := hwin.leaf_le
        rw [hk.wf.sized.items, hN2]
        omega) hlt
      rw [← hr.inside]
      exact gapped.count_lt_of_hole hk1 (hk2.trans_le (Nat.add_le_add_left hwin.leaf_le ni)) hhole
    · left
      have hpos := hwin.len_pow.pos
      obtain ⟨y, hy, hynull⟩ := hbehind (by omega)
      refine ⟨y, ?_, hynull⟩
      rw [hr.outside _ (by omega)]
      exact hy

/-! ## Vertices without edges -/

/-- A graph of `n` vertices and no edges, whose last slot is free. -/
structure Edgeless (s : PCSR) (n : Nat) : Prop where
  wf : WellFormed s
  vertices : s.get_n = n
  contents : s.items.filter full = (List.range n).map sentinel
  tallies : tallies s = List.replicate n 0
  last : IsGap s (s.N - 1)

theorem Edgeless.good (h : Edgeless s n) (h4 : 4 ≤ s.N) : Good s := by
  refine ⟨h.wf, fun _ => h.last, fun x hx => ?_, h4⟩
  rw [h.tallies] at hx
  rw [List.eq_of_mem_replicate hx]
  decide

theorem Edgeless.edges_of (h : Edgeless s n) (v : Nat) : edges_of s v = [] := by
  apply List.eq_nil_iff_forall_not_mem.mpr
  intro x hx
  obtain ⟨hmem, hs, -⟩ := mem_edges_of.mp hx
  rw [h.contents] at hmem
  obtain ⟨k, -, rfl⟩ := List.mem_map.mp hmem
  rw [is_sentinel_sentinel] at hs
  cases hs

theorem Edgeless.get_neighbourhood (h : Edgeless s n) {u : Nat} (hu : u < n) :
    get_neighbourhood s u = .ok [] := by
  rw [← h.vertices] at hu
  rw [get_neighbourhood_eq h.wf hu, seen_eq_edges_of h.wf hu fun _ => endFree_of_gap h.last, h.edges_of]
  rfl

/-- A new vertex behind vertices without edges. -/
theorem Awaits.edgeless (h : Awaits (pushed s p) n p) (hroom : Room s p) (h8 : 8 ≤ s.N)
    (hcontents : s.items.filter full = (List.range n).map sentinel)
    (htallies : packed_csr.tallies s = List.replicate n 0) :
    ∃ s', packed_csr.insert (pushed s p) p (sentinel n) n none = .ok s' ∧ Edgeless s' (n + 1) ∧ s.N ≤ s'.N := by
  obtain ⟨s', hrun, hwf, -, hget, -, hle, hfull⟩ := h.insert hroom
  refine ⟨s', hrun, ⟨hwf, ?_, ?_, ?_, h.last_free h8 hrun⟩, hle⟩
  · rw [hget, h.vertices]
  · rw [hfull, List.range_succ, List.map_append, ← hcontents]
    rfl
  · rw [insert_tallies hrun, List.replicate_succ', ← htallies]
    unfold packed_csr.tallies pushed
    simp

theorem Edgeless.add_node (h : Edgeless s n) (h8 : 8 ≤ s.N) (hlt : n < UINT32_MAX) :
    ∃ s', add_node s = .ok s' ∧ Edgeless s' (n + 1) ∧ s.N ≤ s'.N := by
  have hawaits := (h.good (by omega)).awaits (by rw [h.vertices]; exact hlt) h.last
  rw [h.vertices] at hawaits
  rw [add_node_eq h.wf, h.vertices]
  exact hawaits.edgeless (fun _ => two_leaves h.wf.sized.pow h8) h8 h.contents h.tallies

theorem Blank.add_node (h : Blank s) (h8 : 8 ≤ s.N) :
    ∃ s', add_node s = .ok s' ∧ Edgeless s' 1 ∧ s.N ≤ s'.N := by
  rw [h.add_node_eq]
  refine h.awaits.edgeless (fun _ => two_leaves h.sized.pow h8) h8 (filter_gaps h.gaps) ?_
  unfold packed_csr.tallies
  rw [h.nodes]
  rfl

theorem Edgeless.add_nodes {count : Nat} (h : Edgeless s n) (h8 : 8 ≤ s.N) (hle : n + count ≤ UINT32_MAX) :
    ∃ s', add_nodes count s = .ok s' ∧ Edgeless s' (n + count) := by
  induction count generalizing s n with
  | zero => exact ⟨s, rfl, h⟩
  | succ count ih =>
    obtain ⟨s1, hrun, h1, hN⟩ := h.add_node h8 (by omega)
    obtain ⟨s', hrun', h'⟩ := ih h1 (h8.trans hN) (by omega)
    refine ⟨s', ?_, ?_⟩
    · unfold packed_csr.add_nodes
      rw [hrun]
      exact hrun'
    · rw [show n + (count + 1) = n + 1 + count by omega]
      exact h'

theorem Blank.add_nodes {count : Nat} (h : Blank s) (h8 : 8 ≤ s.N) (hpos : 0 < count)
    (hle : count ≤ UINT32_MAX) : ∃ s', add_nodes count s = .ok s' ∧ Edgeless s' count := by
  obtain ⟨k, rfl⟩ : ∃ k, count = k + 1 := ⟨count - 1, by omega⟩
  obtain ⟨s1, hrun, h1, hN⟩ := h.add_node h8
  have hle1 : 1 + k ≤ UINT32_MAX := by omega
  obtain ⟨s', hrun', h'⟩ := h1.add_nodes (h8.trans hN) hle1
  refine ⟨s', ?_, ?_⟩
  · unfold packed_csr.add_nodes
    rw [hrun]
    exact hrun'
  · rw [Nat.add_comm k 1]
    exact h'

/-! ## The constructors -/

theorem new_pcsr_edgeless (lock_search : Bool) (hn : 0 < n) (hle : n ≤ UINT32_MAX) :
    Edgeless (new_pcsr n n lock_search) n := by
  have hget := new_pcsr_get_n n lock_search
  refine ⟨new_pcsr_well_formed lock_search hn hle, hget, new_pcsr_contents lock_search hn, ?_,
    new_pcsr_last lock_search hn⟩
  have hlen : (tallies (new_pcsr n n lock_search)).length = n := by
    unfold tallies
    rw [List.length_map]
    exact hget
  rw [List.eq_replicate_of_mem (new_pcsr_tallies n lock_search), hlen]

theorem blank_pcsr_blank {N : Nat} (hpow : Pow N) (lock_search : Bool) : Blank (blank_pcsr N lock_search) := by
  refine ⟨⟨hpow, List.length_replicate, List.length_replicate⟩, rfl, fun x hx => ?_⟩
  rw [List.eq_of_mem_replicate hx]
  exact full_null_edge

instance decidableEdgeless (s : PCSR) (n : Nat) : Decidable (Edgeless s n) :=
  decidable_of_iff (WellFormed s ∧ s.get_n = n ∧ s.items.filter full = (List.range n).map sentinel ∧
      tallies s = List.replicate n 0 ∧ s.items[s.N - 1]?.map Edge.is_null = some true)
    ⟨fun ⟨h1, h2, h3, h4, h5⟩ => ⟨h1, h2, h3, h4, Option.map_eq_some_iff.mp h5⟩,
      fun h => ⟨h.wf, h.vertices, h.contents, h.tallies, Option.map_eq_some_iff.mpr h.last⟩⟩

/-- Up to three vertices there is one leaf, and no level above it. -/
theorem grown_few (lock_search : Bool) {n : Nat} (hlt : n < 4) (hpos : 0 < n) :
    ∃ s, grown_pcsr n lock_search = .ok s ∧ Edgeless s n := by
  have hall : ∀ lock_search, ∀ n < 4, 0 < n →
      (grown_pcsr n lock_search).toOption.any (fun s => decide (Edgeless s n)) = true := by
    decide +kernel
  have hany := hall lock_search n hlt hpos
  cases hrun : grown_pcsr n lock_search with
  | error e =>
    rw [hrun] at hany
    cases hany
  | ok s =>
    rw [hrun] at hany
    exact ⟨s, rfl, of_decide_eq_true hany⟩

end

/-! ## The law -/

end packed_csr
