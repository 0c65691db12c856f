-- Arrays with sentinels alone, evenly spaced. An edge that is added behind the last one
-- and removed again halves the array, so that runs reach small arrays: with one vertex,
-- arrays that are a single leaf.
import PackedCsr.Lone
import PackedCsr.Construction

namespace packed_csr

open effects

/-- An array with the sentinels of the vertices `0..last` alone, `g` slots apart. The versions of the
first `m` leaves are new. -/
structure Bare (last m g : Nat) (s : PCSR) : Prop where
  good : Good s
  n : s.get_n = last + 1
  N : s.N = (last + 1) * g
  lock : s.lock_bsearch = true
  contents : s.items.filter full = (List.range (last + 1)).map sentinel
  spaced : EvenlySpaced s
  tallies : packed_csr.tallies s = List.replicate (last + 1) 0
  versions : ∀ i < m, s.versions[i]? = some 0

section

variable {s s' : PCSR} {last m g i k v p : Nat} {e : Edge}

/-! ## The slots -/

theorem spread_slot_even (n g k : Nat) (hn : 0 < n) : spread_slot 0 (n * g) n k = k * g := by
  unfold spread_slot
  rw [Nat.zero_add, show k * (n * g) = k * g * n by ring, Nat.mul_div_cancel _ hn]

theorem Bare.slot (h : Bare last m g s) (hk : k ≤ last) : s.items[k * g]? = some (sentinel k) := by
  have hplaced := h.spaced.placed k (sentinel k)
  rw [h.contents, h.N] at hplaced
  simp only [List.length_map, List.length_range] at hplaced
  rw [spread_slot_even _ _ _ (Nat.succ_pos last)] at hplaced
  apply hplaced
  simp only [List.getElem?_map, List.getElem?_range (show k < last + 1 by omega), Option.map_some]

theorem Bare.null (h : Bare last m g s) (hi : i < (last + 1) * g) (hno : ∀ k ≤ last, i ≠ k * g) :
    s.items[i]? = some null_edge := by
  apply h.spaced.clear i (by rw [h.N]; exact hi)
  intro k hk
  rw [h.contents] at hk ⊢
  simp only [List.length_map, List.length_range] at hk ⊢
  rw [h.N, spread_slot_even _ _ _ (Nat.succ_pos last)]
  exact hno k (by omega)

theorem Bare.gap (h : Bare last m g s) (hi : i < (last + 1) * g) (hno : ∀ k ≤ last, i ≠ k * g) :
    IsGap s i := ⟨null_edge, h.null hi hno, rfl⟩

/-- Behind a sentinel there are gaps up to the next one. -/
theorem Bare.gap_behind (h : Bare last m g s) (hk : k ≤ last) (hi : k * g < i) (hi' : i < (k + 1) * g) :
    IsGap s i := by
  have hend : (k + 1) * g ≤ (last + 1) * g := Nat.mul_le_mul_right g (by omega)
  apply h.gap (by omega)
  intro k' _ heq
  rw [heq] at hi hi'
  have := Nat.lt_of_mul_lt_mul_right hi
  have := Nat.lt_of_mul_lt_mul_right hi'
  omega

theorem Bare.node (h : Bare last m g s) (hv : v ≤ last) : s.nodes[v]? =
    some ⟨v * g, if v = last then (last + 1) * g - 1 else (v + 1) * g, 0⟩ := by
  have hlen : s.nodes.length = last + 1 := h.n
  have hvlt : v < s.nodes.length := by omega
  have hget := List.getElem?_eq_getElem hvlt
  have hbeg := (h.good.wf.linked _ v (h.slot hv)).1
  have htally : (packed_csr.tallies s)[v]? = some 0 := by
    rw [h.tallies, List.getElem?_replicate, if_pos (by omega)]
  unfold packed_csr.tallies at htally
  rw [List.getElem?_map] at htally
  have hend : s.nodes[v]?.map Node.end_ =
      some (if v = last then (last + 1) * g - 1 else (v + 1) * g) := by
    split
    · have hends := h.good.wf.ends
      unfold EndsAt at hends
      rw [hlen, h.N] at hends
      rw [show v = last + 1 - 1 by omega]
      exact hends
    · exact (h.good.wf.linked _ (v + 1) (h.slot (show v + 1 ≤ last by omega))).2 (Nat.succ_pos v)
  generalize s.nodes[v] = node at hget
  rw [hget] at hbeg hend htally ⊢
  simp only [Option.map_some, Option.some.injEq] at hbeg hend htally
  rw [← hbeg, ← hend, ← htally]

/-! ## The number of items in a window -/

theorem filled_gaps {len : Nat} (h : ∀ k, i ≤ k → k < i + len → IsGap s k) : filled s.items i len = 0 := by
  induction len with
  | zero => exact gapped.count_zero _ _
  | succ len ih =>
    obtain ⟨x, hx, hf⟩ := isGap_iff.mp (h (i + len) (by omega) (by omega))
    rw [filled_eq, gapped.count_add, gapped.count_one hx, if_neg (by simp [hf]), Nat.add_zero]
    exact ih fun k hk hk' => h k hk (by omega)

/-- The last regions hold their sentinels alone. -/
theorem Bare.filled_tail (h : Bare last m g s) (hg : 0 < g) {r : Nat} (hr : r ≤ last + 1) :
    filled s.items ((last + 1 - r) * g) (r * g) ≤ r := by
  induction r with
  | zero =>
    rw [Nat.zero_mul]
    exact (gapped.count_zero _ _).le
  | succ r ih =>
    obtain ⟨d, rfl⟩ : ∃ d, last = r + d := ⟨last - r, by omega⟩
    have hstart : r + d + 1 - (r + 1) = d := by omega
    have hnext : r + d + 1 - r = d + 1 := by omega
    have hrest := ih (by omega)
    rw [hnext, Nat.succ_mul] at hrest
    have hgaps : filled s.items (d * g + 1) (g - 1) = 0 := by
      apply filled_gaps
      intro k hk hk'
      apply h.gap_behind (show d ≤ r + d by omega) (by omega)
      rw [Nat.succ_mul]
      omega
    have hone : gapped.count full s.items (d * g) g =
        gapped.count full s.items (d * g) 1 + gapped.count full s.items (d * g + 1) (g - 1) := by
      rw [← gapped.count_add, show 1 + (g - 1) = g by omega]
    have hle : gapped.count full s.items (d * g) 1 ≤ 1 := gapped.count_le _ _ _
    rw [hstart, Nat.succ_mul, Nat.add_comm (r * g), filled_eq, gapped.count_add]
    rw [filled_eq] at hrest hgaps
    omega

/-! ## The edge behind the last sentinel -/

/-- The slot in the middle of the last region. -/
theorem Bare.finds (h : Bare last m g s) (hg : 4 ≤ g) (heven : g / 2 * 2 = g)
    (hsrc : e.src = last) :
    ∃ v, Finds s e (last * g + g / 2) v ∧ find_in_node s e e.src = .ok (last * g + g / 2) := by
  have hnode : s.node e.src = .ok ⟨last * g, (last + 1) * g - 1, 0⟩ := by
    unfold PCSR.node
    rw [hsrc, h.node (le_refl last), if_pos rfl]
  have hN := h.N
  have hmul : (last + 1) * g = last * g + g := Nat.succ_mul _ _
  obtain ⟨v, hrun, hv⟩ := exec_search_gaps e (last * g + 1) ((last + 1) * g - 1) h.good.wf.sized
    (by omega) (by omega) (by omega) (by
      intro j hj hj'
      exact h.gap_behind (le_refl last) (by omega) (by omega))
  rw [show (last * g + 1 + ((last + 1) * g - 1)) / 2 = last * g + g / 2 by omega] at hrun hv
  exact ⟨v, ⟨⟨_, hnode, hrun⟩, hv⟩, find_in_node_of hnode hrun⟩

/-- `c` items are few on each level. -/
theorem below_of_few {N j : Nat} {c : ℚ} (hh : height N ≠ 0)
    (h8 : 8 * c < (logN N * 2 ^ j : Nat)) : Below N j c := by
  refine ⟨hh, ?_⟩
  have hpos : (0 : ℚ) < (logN N * 2 ^ j : Nat) := by
    exact_mod_cast Nat.mul_pos (logN_pos N) (Nat.two_pow_pos j)
  have hhq : (0 : ℚ) < height N := by exact_mod_cast Nat.pos_of_ne_zero hh
  have hle : (1 / 8 * ((height N - j : Int) : ℚ)) / height N ≤ 1 / 8 := by
    rw [div_le_iff₀ hhq]
    push_cast
    have : (0 : ℚ) ≤ j := Nat.cast_nonneg j
    linarith
  have hlt : c / (logN N * 2 ^ j : Nat) < 1 / 8 := by
    rw [div_lt_iff₀ hpos]
    linarith
  linarith

/-- The small windows over that slot hold none. -/
theorem Bare.filled_small (h : Bare last m g s) (hg : Pow g) (h2 : 2 ≤ g) {len : Nat} (hlen : Pow len)
    (hle : len ≤ g / 2) : find_node (last * g + g / 2) len = last * g + g / 2 ∧
      filled s.items (last * g + g / 2) len = 0 := by
  obtain ⟨hhalf, heven⟩ := hg.half h2
  have hmul : (last + 1) * g = last * g + g := Nat.succ_mul _ _
  have hdvd : len ∣ last * g + g / 2 := by
    have hhalfdvd := hlen.dvd hhalf hle
    exact Nat.dvd_add ((hhalfdvd.trans ⟨2, heven.symm⟩).trans (Nat.dvd_mul_left _ _)) hhalfdvd
  refine ⟨find_node_of_dvd hdvd, filled_gaps fun k hk hk' => ?_⟩
  apply h.gap_behind (le_refl last)
  · omega
  · omega

/-- The window of each level over that slot holds few items. -/
theorem Bare.few (h : Bare last m g s) (hg : Pow g) (h16 : 16 ≤ g) {len : Nat} (hlen : Pow len)
    (hle : len ≤ (last + 1) * g) :
    8 * filled s.items (find_node (last * g + g / 2) len) len < len := by
  obtain ⟨hhalf, heven⟩ := hg.half (by omega)
  have hN := h.good.wf.sized.pow
  rw [h.N] at hN
  have hmul : (last + 1) * g = last * g + g := Nat.succ_mul _ _
  have hpos := hlen.pos
  rcases Nat.lt_or_ge (g / 2) len with hbig | hsmall
  · -- the window is a number of regions at the end
    have hge : g ≤ len := by
      obtain ⟨c, hc⟩ := hhalf.dvd hlen hbig.le
      have hc2 : 2 ≤ c := by
        by_contra hc2
        have : c ≤ 1 := by omega
        have : g / 2 * c ≤ g / 2 * 1 := Nat.mul_le_mul_left _ this
        omega
      have : g / 2 * 2 ≤ g / 2 * c := Nat.mul_le_mul_left _ hc2
      omega
    obtain ⟨r, rfl⟩ := hg.dvd hlen hge
    obtain ⟨d, hd⟩ := hlen.dvd hN hle
    have hr : r ≤ last + 1 := by
      rw [Nat.mul_comm] at hle
      exact Nat.le_of_mul_le_mul_right hle hg.pos
    have hstart : find_node (last * g + g / 2) (g * r) = (last + 1 - r) * g := by
      have hdpos : 0 < d := by
        rw [Nat.pos_iff_ne_zero]
        rintro rfl
        rw [Nat.mul_zero] at hd
        have := hg.pos
        omega
      have hlast : (d - 1) * (g * r) + g * r = (last + 1) * g := by
        rw [← Nat.succ_mul, hd, show (d - 1).succ = d by omega, Nat.mul_comm]
      have hquot : (last * g + g / 2) / (g * r) = d - 1 := by
        rw [Nat.div_eq_iff hpos]
        omega
      have hsub : (last + 1 - r) * g = (last + 1) * g - g * r := by rw [Nat.sub_mul, Nat.mul_comm r g]
      unfold find_node
      rw [hquot]
      omega
    have hcount := h.filled_tail hg.pos hr
    rw [hstart, Nat.mul_comm g r]
    have h8 : r * 16 ≤ r * g := Nat.mul_le_mul_left r h16
    have hrpos : 0 < r := Nat.pos_of_mul_pos_left hpos
    omega
  · obtain ⟨hnode, hnone⟩ := h.filled_small hg (by omega) hlen hsmall
    rw [hnode, hnone]
    omega

/-! ## One round -/

/-- The edge comes in. -/
theorem Bare.add (h : Bare last m g s) (hg : Pow g) (h8 : 8 ≤ g) (h2 : logN s.N * 2 ≤ g)
    (he : IsEdge s.get_n ⟨last, 1, 1⟩) :
    ∃ s1 s2, Returns s (.add_edge last 1 1) s1 ∧ Grows s s1 ⟨last, 1, 1⟩ ∧
      LoneInserted s s2 ⟨last, 1, 1⟩ (last * g + g / 2) ∧ s1.items = s2.items ∧ s1.N = s.N ∧
      s1.versions = s.versions.modify ((last * g + g / 2) / logN s.N) (· + 1) := by
  obtain ⟨hhalf, heven⟩ := hg.half (by omega)
  have hN := h.N
  have hmul : (last + 1) * g = last * g + g := Nat.succ_mul _ _
  obtain ⟨v, hf, hfind⟩ := h.finds (by omega) heven (e := ⟨last, 1, 1⟩) rfl
  obtain ⟨q, -, -, hfind', hp, -, -⟩ := h.good.finds he
  cases hfind.symm.trans hfind'
  have hplace : Place s ⟨last, 1, 1⟩ (last * g + g / 2) := by
    apply hp.resolve_right
    intro hpast
    have := hpast.last
    omega
  have hgap : IsGap s (last * g + g / 2) := h.gap_behind (le_refl last) (by omega) (by omega)
  have hfew : filled s.items (find_leaf s.N (last * g + g / 2)) (logN s.N) + 1 < logN s.N := by
    obtain ⟨hnode, hnone⟩ := h.filled_small hg (by omega) (pow_logN s.N) (by omega)
    have := two_le_logN h.good.wf.sized.pow (by omega)
    rw [find_leaf_eq, hnode, hnone]
    omega
  obtain ⟨s2, s1, hlone, hrun, hitems, hN1, hversions⟩ :=
    exec_add_edge_lone h.good.wf h.lock he hf hplace (by omega) hgap hfew
  obtain ⟨s1', hrun', hgrows⟩ := add_edge_grows h.good he (by
    intro p' hfind'
    cases hfind.symm.trans hfind'
    refine .inr (.inr ⟨.inl ⟨_, le_refl _, hgap⟩, fun hfull => ?_⟩)
    omega)
  have hsame : s1' = s1 := congrArg Prod.snd (Except.ok.inj (hrun'.symm.trans hrun))
  rw [hsame] at hgrows
  exact ⟨s1, s2, ⟨0, hrun⟩, hgrows, hlone, hitems, hN1, hversions⟩

/-- The edge is in its leaf, and stands among the sentinels of the other vertices. -/
theorem Bare.added (h : Bare last m g s) (hgrows : Grows s s' e) :
    ∃ X Y, s'.items.filter full = X ++ e :: Y ∧ X ++ Y = s.items.filter full ∧ e ∉ X := by
  have hsent : ∀ x ∈ s.items.filter full, is_sentinel x = true := by
    intro x hx
    rw [h.contents] at hx
    obtain ⟨v, -, rfl⟩ := List.mem_map.mp hx
    exact is_sentinel_sentinel v
  obtain ⟨X, Y, hc', hX, -, hc | ⟨x, hs, -, -, hc⟩⟩ := hgrows.contents
  · exact ⟨X, Y, hc', hc.symm, fun hmem => before_irrefl e (hX e hmem)⟩
  · have hx := hsent x (by rw [hc]; simp)
    rw [hs] at hx
    cases hx

theorem LoneInserted.there {s2 : PCSR} {q : Nat} (h : LoneInserted s s2 e p) (hnone : e ∉ s.items)
    (hq : s2.items[q]? = some e) : find_leaf s.N p ≤ q ∧ q < find_leaf s.N p + logN s.N := by
  by_contra hout
  rw [h.outside q hout] at hq
  exact hnone (List.mem_of_getElem? hq)

theorem find_node_of_leaf {N q len : Nat} (hdvd : logN N ∣ len) (h1 : find_leaf N p ≤ q)
    (h2 : q < find_leaf N p + logN N) : find_node q len = find_node p len := by
  have hleaf : find_leaf N q = find_leaf N p := by
    have hquot : q / logN N = p / logN N := by
      rw [Nat.div_eq_iff (logN_pos N)]
      unfold find_leaf at h1 h2
      omega
    unfold find_leaf
    rw [hquot]
  rw [← find_node_find_node (i := q) hdvd (logN_pos N), ← find_leaf_eq, hleaf, find_leaf_eq,
    find_node_find_node hdvd (logN_pos N)]

/-- With the edge in it, the array is sparse around it. -/
theorem Bare.sparse {s1 s2 : PCSR} {q : Nat} (h : Bare last m g s) (hg : Pow g) (h16 : 16 ≤ g)
    (hlone : LoneInserted s s2 e (last * g + g / 2)) (hitems : s1.items = s2.items) (hN : s1.N = s.N)
    (hq : find_leaf s.N (last * g + g / 2) ≤ q ∧ q < find_leaf s.N (last * g + g / 2) + logN s.N) :
    SparseToRoot s1 s1.N q := by
  intro j hj
  have hpow := h.good.wf.sized.pow
  have hge : g ≤ s.N := by
    rw [h.N]
    exact Nat.le_mul_of_pos_left _ (Nat.succ_pos last)
  have hlen : Pow (logN s.N * 2 ^ j) := pow_window
  have hle : logN s.N * 2 ^ j ≤ s.N := by
    conv_rhs => rw [height_eq hpow]
    rw [hN] at hj
    exact Nat.mul_le_mul_left _ (Nat.pow_le_pow_right (by decide) (by omega))
  have hdvd : logN s.N ∣ logN s.N * 2 ^ j := Nat.dvd_mul_right _ _
  rw [hN, hitems, find_node_of_leaf hdvd hq.1 hq.2]
  obtain ⟨hleft, hright⟩ := find_node_nest (last * g + g / 2) hdvd (logN_pos s.N) hlen.pos
  rw [hlone.around _ _ hleft hright]
  apply below_of_few ((height_ne_zero hpow).mpr (by omega))
  have hfew := h.few hg h16 hlen (by rw [← h.N]; exact hle)
  push_cast
  rw [add_sub_cancel_right]
  exact_mod_cast hfew

theorem logN_mono {N M : Nat} (h : N ≤ M) : logN N ≤ logN M := by
  unfold logN
  apply Nat.pow_le_pow_right (by decide)
  rw [Nat.log2_eq_log_two, Nat.log2_eq_log_two, Nat.log2_eq_log_two, Nat.log2_eq_log_two]
  apply Nat.log_mono_right
  have := Nat.log_mono_right (b := 2) h
  omega

/-- The edge comes in and goes out: the array is halved. -/
theorem Bare.halve (h : Bare last m g s) (hg : Pow g) (h8 : 8 ≤ g) (h2 : logN s.N * 2 ≤ g)
    (hsparse : 16 ≤ g ∨ (last = 0 ∧ g = 8)) (hle : last + 1 ≤ UINT32_MAX)
    (hm : m ≤ s.N / logN s.N / 2) :
    ∃ s1 s2, Returns s (.add_edge last 1 1) s1 ∧ s1.get_n = s.get_n ∧
      Returns s1 (.remove_edge last 1) s2 ∧ Bare last m (g / 2) s2 := by
  have hmul : (last + 1) * g = last * g + g := Nat.succ_mul _ _
  obtain ⟨hhalf, heven⟩ := hg.half (by omega)
  have hN := h.N
  have hpow := h.good.wf.sized.pow
  have he : IsEdge s.get_n ⟨last, 1, 1⟩ := by
    rw [h.n]
    exact ⟨Nat.lt_succ_self last, (by decide : 1 < UINT32_MAX), Nat.one_pos, (by decide : 1 < UINT32_MAX)⟩
  obtain ⟨s1, s0, hadd, hgrows, hlone, hitems, hN1, hversions⟩ := h.add hg h8 h2 he
  obtain ⟨X, Y, hc1, hc, hX⟩ := h.added hgrows
  have he1 : IsEdge s1.get_n ⟨last, 1, 1⟩ := by
    rw [hgrows.n]
    exact he
  -- where the edge stands
  have hnone : (⟨last, 1, 1⟩ : Edge) ∉ s.items := by
    intro hmem
    have hmem' := List.mem_filter.mpr ⟨hmem, he.full⟩
    rw [h.contents] at hmem'
    obtain ⟨v, -, hv⟩ := List.mem_map.mp hmem'
    have hs := he.not_sentinel
    rw [← hv, is_sentinel_sentinel] at hs
    cases hs
  have hmem1 : (⟨last, 1, 1⟩ : Edge) ∈ s1.items.filter full := by
    rw [hc1]
    simp
  obtain ⟨q, hq, hst⟩ := stores_of_mem hmem1 he.not_sentinel rfl rfl
  have hleaf := hlone.there hnone (by rw [← hitems]; exact hq)
  have hroot : SparseToRoot s1 s1.N q := by
    rcases hsparse with h16 | ⟨rfl, rfl⟩
    · exact h.sparse hg h16 hlone hitems hN1 hleaf
    · have hL : logN 8 = 4 := by decide +kernel
      rw [hN] at hleaf
      unfold find_leaf at hleaf
      norm_num [hL] at hleaf
      rw [halves_eight_iff hgrows.good.wf (by rw [hN1, hN]) hq he.full (by omega), hc1]
      refine ⟨hleaf.1, ?_⟩
      have hlen := congrArg List.length hc
      rw [h.contents] at hlen
      simp only [List.length_append, List.length_map, List.length_range] at hlen
      simp only [List.length_append, List.length_cons]
      omega
  -- and out again
  obtain ⟨s2, hrun, hshrinks⟩ := remove_edge_shrinks hgrows.good he1 (by
    intro p _ hpast
    exact hpast.not_stores hgrows.good.wf he.not_sentinel hst)
  rcases hshrinks.size q hst with ⟨hdense, -⟩ | ⟨-, -, hN2, hspaced, hversions2⟩
  · exact absurd hroot hdense
  have hN2' : s2.N = (last + 1) * (g / 2) := by
    have hmul2 : (last + 1) * (g / 2) * 2 = (last + 1) * g := by rw [Nat.mul_assoc, heven]
    rw [hN2, hN1, hN]
    omega
  refine ⟨s1, s2, hadd, hgrows.n, ⟨1, hrun 0⟩, hshrinks.good, ?_, hN2', ?_, ?_, hspaced, ?_, ?_⟩
  · rw [hshrinks.n, hgrows.n, h.n]
  · rw [hshrinks.lock_bsearch, hgrows.lock_bsearch, h.lock]
  · rw [hshrinks.contents q _ hst hq, hc1, List.erase_append_right _ hX, List.erase_cons_head, hc,
      h.contents]
  · rw [hshrinks.tallies, hgrows.tallies, h.tallies]
    apply List.ext_getElem?
    intro i
    simp only [List.getElem?_modify, List.getElem?_replicate]
    split
    · split <;> rfl
    · split <;> rfl
  · intro i hi
    have hleaf2 : s.N / logN s.N / 2 ≤ s2.N / logN s2.N := by
      have hle2 : s2.N ≤ s.N := by omega
      rw [Nat.div_div_eq_div_mul, Nat.mul_comm, ← Nat.div_div_eq_div_mul, ← hN1, ← hN2, hN1]
      exact Nat.div_le_div_left (logN_mono hle2) (logN_pos s2.N)
    have hout : s.N / logN s.N / 2 ≤ (last * g + g / 2) / logN s.N := by
      rw [Nat.div_div_eq_div_mul, Nat.mul_comm, ← Nat.div_div_eq_div_mul]
      exact Nat.div_le_div_right (by omega)
    rw [hversions2, List.getElem?_take, if_pos (by omega), hversions, List.getElem?_modify,
      h.versions i hi]
    exact congrArg some (if_neg (by omega))

/-! ## Runs to small arrays -/

theorem Reaches.mono {n : Nat} {lock_bsearch : Bool} {ok ok' : PCSR → Call → Prop} {s : PCSR}
    (h : Reaches n lock_bsearch ok s) (himp : ∀ s c, ok s c → ok' s c) : Reaches n lock_bsearch ok' s := by
  induction h with
  | start => exact .start
  | call c _ hc hok hr ih => exact ih.call c hc (himp _ c hok) hr

theorem new_pcsr_bare (hle : last + 1 ≤ UINT32_MAX) (hN : init_size (last + 1) = (last + 1) * g)
    (hm : m ≤ init_size (last + 1) / logN (init_size (last + 1))) :
    Bare last m g (new_pcsr (last + 1) (last + 1) true) := by
  have hpos := Nat.succ_pos last
  have hcontents := new_pcsr_contents true hpos
  refine ⟨new_pcsr_good true hpos hle, new_pcsr_get_n _ _, hN, rfl, hcontents, ⟨?_, ?_⟩, ?_, ?_⟩
  · intro k x hx
    rw [hcontents] at hx ⊢
    simp only [List.length_map, List.length_range]
    obtain ⟨hk, hx⟩ := List.getElem?_eq_some_iff.mp hx
    simp only [List.length_map, List.length_range] at hk
    rw [List.getElem_map, List.getElem_range] at hx
    rw [← hx, ← new_pcsr_sentinel true hpos hk]
    congr 1
    exact Nat.zero_add _
  · intro i hi hno
    apply new_pcsr_gap true hpos hi
    intro k hk
    rw [hcontents] at hno
    simp only [List.length_map, List.length_range] at hno
    have hne := hno k hk
    unfold spread_slot at hne
    rw [Nat.zero_add] at hne
    exact hne
  · rw [List.eq_replicate_iff, tallies_length]
    exact ⟨new_pcsr_get_n _ _, new_pcsr_tallies _ _⟩
  · intro i hi
    have hv : (new_pcsr (last + 1) (last + 1) true).versions =
        List.replicate (init_size (last + 1) / logN (init_size (last + 1))) 0 := rfl
    rw [hv, List.getElem?_replicate, if_pos (by omega)]

/-- `k` rounds. -/
theorem bare_rounds {k : Nat} (hg : Pow g) (hle : last + 1 ≤ UINT32_MAX)
    (hround : ∀ j < k, 8 ≤ g * 2 ^ (j + 1) ∧
      logN ((last + 1) * (g * 2 ^ (j + 1))) * 2 ≤ g * 2 ^ (j + 1) ∧
      (16 ≤ g * 2 ^ (j + 1) ∨ (last = 0 ∧ g * 2 ^ (j + 1) = 8)) ∧
      m ≤ (last + 1) * (g * 2 ^ (j + 1)) / logN ((last + 1) * (g * 2 ^ (j + 1))) / 2)
    (h : Bare last m (g * 2 ^ k) s)
    (hreach : Reaches (last + 1) true (fun s _ => s.get_n = last + 1) s) :
    ∃ s', Reaches (last + 1) true (fun s _ => s.get_n = last + 1) s' ∧ Bare last m g s' := by
  induction k generalizing s with
  | zero =>
    rw [Nat.pow_zero, Nat.mul_one] at h
    exact ⟨s, hreach, h⟩
  | succ k ih =>
    obtain ⟨h8, h2, hsparse, hm⟩ := hround k (Nat.lt_succ_self k)
    rw [← h.N] at h2 hm
    obtain ⟨s1, s2, hadd, hget, hremove, hbare⟩ := h.halve (hg.mul ⟨k + 1, rfl⟩) h8 h2 hsparse hle hm
    rw [show g * 2 ^ (k + 1) / 2 = g * 2 ^ k by
      rw [Nat.pow_succ, ← Nat.mul_assoc, Nat.mul_div_cancel _ Nat.two_pos]] at hbare
    apply ih (fun j hj => hround j (by omega)) hbare
    have hlast : last < last + 1 := Nat.lt_succ_self last
    have hone : 1 < UINT32_MAX := by decide
    have hmid := hreach.call (.add_edge last 1 1) ⟨hlast, hone, Nat.one_pos, hone⟩ h.n hadd
    exact hmid.call (.remove_edge last 1) ⟨hlast, hone⟩ (hget.trans h.n) hremove

/-- The array with the sentinels alone, `g` slots apart, with new versions. -/
def bare_pcsr (last g : Nat) : PCSR where
  N := (last + 1) * g
  items := (List.range ((last + 1) * g)).map fun i => if i % g = 0 then sentinel (i / g) else null_edge
  nodes := (List.range (last + 1)).map fun v =>
    ⟨v * g, if v = last then (last + 1) * g - 1 else (v + 1) * g, 0⟩
  versions := List.replicate ((last + 1) * g / logN ((last + 1) * g)) 0
  lock_bsearch := true

theorem Bare.eq (h : Bare last m g s) (hm : s.N / logN s.N ≤ m) : s = bare_pcsr last g := by
  have hitems : s.items = (bare_pcsr last g).items := by
    apply List.ext_getElem?
    intro i
    unfold bare_pcsr
    dsimp only
    by_cases hi : i < (last + 1) * g
    · rw [List.getElem?_map, List.getElem?_range hi, Option.map_some]
      split
      · rename_i hmod
        have hdiv : i / g * g = i := Nat.div_mul_cancel (Nat.dvd_of_mod_eq_zero hmod)
        have hk : i / g < last + 1 := Nat.div_lt_of_lt_mul (by rw [Nat.mul_comm]; exact hi)
        have hslot := h.slot (show i / g ≤ last by omega)
        rw [hdiv] at hslot
        exact hslot
      · rename_i hmod
        apply h.null hi
        rintro k - rfl
        exact hmod (Nat.mul_mod_left k g)
    · rw [List.getElem?_eq_none (by rw [h.good.wf.sized.items, h.N]; omega), List.getElem?_eq_none]
      simp only [List.length_map, List.length_range]
      omega
  have hnodes : s.nodes = (bare_pcsr last g).nodes := by
    have hlen : s.nodes.length = last + 1 := h.n
    apply List.ext_getElem?
    intro v
    unfold bare_pcsr
    dsimp only
    by_cases hv : v < last + 1
    · rw [h.node (by omega), List.getElem?_map, List.getElem?_range hv]
      rfl
    · rw [List.getElem?_eq_none (by omega), List.getElem?_eq_none]
      simp only [List.length_map, List.length_range]
      omega
  have hversions : s.versions = (bare_pcsr last g).versions := by
    unfold bare_pcsr
    dsimp only
    have hlen := h.good.wf.sized.versions
    rw [List.eq_replicate_iff, ← h.N]
    refine ⟨hlen, fun v hv => ?_⟩
    obtain ⟨i, hi⟩ := List.mem_iff_getElem?.mp hv
    have hlt := (List.getElem?_eq_some_iff.mp hi).1
    rw [h.versions i (by omega)] at hi
    exact (Option.some.inj hi).symm
  have hN := h.N
  have hlock := h.lock
  cases s
  simp only at hitems hnodes hversions hN hlock
  rw [hitems, hnodes, hversions, hN, hlock]
  rfl

/-- The array is reached from a new graph. -/
theorem bare_pcsr_reached {k : Nat} (hg : Pow g) (hle : last + 1 ≤ UINT32_MAX)
    (hN : init_size (last + 1) = (last + 1) * (g * 2 ^ k))
    (hm : (last + 1) * g / logN ((last + 1) * g) ≤ init_size (last + 1) / logN (init_size (last + 1)))
    (hround : ∀ j < k, 8 ≤ g * 2 ^ (j + 1) ∧
      logN ((last + 1) * (g * 2 ^ (j + 1))) * 2 ≤ g * 2 ^ (j + 1) ∧
      (16 ≤ g * 2 ^ (j + 1) ∨ (last = 0 ∧ g * 2 ^ (j + 1) = 8)) ∧
      (last + 1) * g / logN ((last + 1) * g) ≤
        (last + 1) * (g * 2 ^ (j + 1)) / logN ((last + 1) * (g * 2 ^ (j + 1))) / 2) :
    Reaches (last + 1) true (fun s _ => s.get_n = last + 1) (bare_pcsr last g) := by
  obtain ⟨s, hreach, hbare⟩ := bare_rounds hg hle hround (new_pcsr_bare hle hN hm) .start
  rw [← hbare.eq (by rw [hbare.N])]
  exact hreach

end

/-! ## The height of the tree -/

end packed_csr
