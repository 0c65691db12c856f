-- Arrays whose leaves are filled to an eighth. A redistribution gives each leaf of its window a
-- share of the items; and the leaves bound the size of the array and the scan of a region.
import PackedCsr.Halvings
import PackedCsr.Readers

namespace packed_csr

/-- A leaf that is filled to an eighth. -/
def FilledLeaf (s : PCSR) (i : Nat) : Prop :=
  logN s.N ≤ 8 * filled s.items (find_leaf s.N i) (logN s.N)

/-- So are all leaves. -/
def Dense (s : PCSR) : Prop := ∀ i < s.N, FilledLeaf s i

section

variable {s s' : PCSR} {items es : List Edge} {i0 index len ni L m c : Nat}

/-! ## What a redistribution gives to each part of its window -/

/-- The slots of the items between two parts of the window. -/
theorem spread_slot_part (index k : Nat) (hlen : len = m * L) (hj : 0 < j) (h1 : c * j ≤ k * m)
    (h2 : k * m < (c + 1) * j) (hL : 0 < L) :
    index + c * L ≤ spread_slot index len j k ∧ spread_slot index len j k < index + c * L + L := by
  have hge : c * L ≤ k * len / j := by
    rw [Nat.le_div_iff_mul_le hj]
    calc c * L * j = c * j * L := by ring
      _ ≤ k * m * L := Nat.mul_le_mul_right L h1
      _ = k * len := by rw [hlen, Nat.mul_assoc]
  have hlt : k * len / j < (c + 1) * L := by
    rw [Nat.div_lt_iff_lt_mul hj]
    calc k * len = k * m * L := by rw [hlen, Nat.mul_assoc]
      _ < (c + 1) * j * L := Nat.mul_lt_mul_of_pos_right h2 hL
      _ = (c + 1) * L * j := by ring
  rw [Nat.succ_mul] at hlt
  unfold spread_slot
  omega

/-- Of evenly spread items, each of the `m` parts of the window gets its share. -/
theorem share_le_filled (items : List Edge) (index : Nat) (hlen : len = m * L) (hL : 0 < L) (hc : c < m)
    (hle : es.length ≤ len)
    (hfull : ∀ e ∈ es, full e = true)
    (hat : ∀ k < es.length, items[spread_slot index len es.length k]? = es[k]?) :
    es.length / m ≤ filled items (index + c * L) L := by
  rcases Nat.eq_zero_or_pos es.length with hj | hj
  · rw [hj, Nat.zero_div]
    exact Nat.zero_le _
  have hm : 0 < m := by omega
  have hshare : es.length / m * m ≤ es.length := Nat.div_mul_le_self _ m
  -- the first item whose slot is in the part
  obtain ⟨a, ha1, ha2⟩ : ∃ a, c * es.length ≤ a * m ∧ a * m < c * es.length + m := by
    refine ⟨(c * es.length + (m - 1)) / m, ?_, ?_⟩
    · have := Nat.lt_div_mul_add (a := c * es.length + (m - 1)) hm
      omega
    · have := Nat.div_mul_le_self (c * es.length + (m - 1)) m
      omega
  have hsucc : (c + 1) * es.length = c * es.length + es.length := Nat.succ_mul _ _
  have hk : ∀ k < es.length / m, c * es.length ≤ (a + k) * m ∧ (a + k) * m < (c + 1) * es.length := by
    intro k hk
    have h1 : (k + 1) * m ≤ es.length / m * m := Nat.mul_le_mul_right m hk
    rw [Nat.add_mul] at h1
    rw [Nat.add_mul, hsucc]
    omega
  rw [filled_eq]
  refine gapped.le_count (f := fun k => spread_slot index len es.length (a + k)) ?_ ?_ ?_
  · exact (spread_slot_strict index hj hle).comp fun _ _ h => Nat.add_lt_add_left h a
  · intro k hlt
    obtain ⟨h1, h2⟩ := hk k hlt
    exact spread_slot_part index (a + k) hlen hj h1 h2 hL
  · intro k hlt
    have hin : a + k < es.length := by
      apply Nat.lt_of_mul_lt_mul_right (a := m)
      calc (a + k) * m < (c + 1) * es.length := (hk k hlt).2
        _ ≤ m * es.length := Nat.mul_le_mul_right _ hc
        _ = es.length * m := Nat.mul_comm _ _
    refine ⟨es[a + k], ?_, hfull _ (List.getElem_mem hin)⟩
    rw [hat _ hin, List.getElem?_eq_getElem hin]

/-- A share of a window that is filled to an eighth fills its part to an eighth. -/
theorem share_enough (h8 : 8 ∣ L) (hm : 0 < m) (h : m * L ≤ 8 * c) : L ≤ 8 * (c / m) := by
  obtain ⟨l, rfl⟩ := h8
  have hl : l ≤ c / m := by
    rw [Nat.le_div_iff_mul_le hm]
    have : m * (8 * l) = 8 * (l * m) := by ring
    omega
  omega

theorem eight_dvd_logN {N : Nat} (h16 : 16 ≤ N) : 8 ∣ logN N := by
  have h8 : 8 ≤ logN N := le_trans (by decide +kernel) (logN_mono h16)
  exact Pow.dvd ⟨3, rfl⟩ (pow_logN N) h8

/-! ## Redistributions -/

theorem find_node_inside {i : Nat} (h1 : find_node i0 len ≤ i) (h2 : i < find_node i0 len + len) :
    find_node i len = find_node i0 len := by
  unfold find_node at *
  rw [Nat.div_eq_of_lt_le h1 (by rw [Nat.succ_mul]; exact h2)]

/-- A leaf with a slot outside a window has none in it. -/
theorem leaf_outside {N i k : Nat} (hdvd : logN N ∣ len) (hlen : 0 < len)
    (hi : ¬ (find_node i0 len ≤ i ∧ i < find_node i0 len + len)) (hk : find_leaf N i ≤ k)
    (hk' : k < find_leaf N i + logN N) : ¬ (find_node i0 len ≤ k ∧ k < find_node i0 len + len) := by
  rintro ⟨h1, h2⟩
  have hnode : find_node i len = find_node i0 len := by
    rw [← find_node_inside h1 h2, find_node_of_leaf hdvd hk hk']
  have h3 := find_node_le i len
  have h4 := lt_find_node_add i hlen
  omega

/-- Each vertex has one sentinel in the array at most, and it is a vertex of the node table. -/
def OneSentinelEach (s : PCSR) : Prop :=
  (s.items.filter full).Pairwise OneVertex ∧ Named s.nodes.length (s.items.filter full)

theorem WellFormed.one_sentinel_each (h : WellFormed s) : OneSentinelEach s :=
  h.arranged.itemized.one_vertex h.n_le

/-- A redistribution of a window that is filled to an eighth fills its leaves to an eighth. -/
theorem redistribute_dense (hs : Sized s) (hone : OneSentinelEach s) (h16 : 16 ≤ s.N) (hi0 : i0 < s.N)
    (hwin : Window s.N i0 len ni) (hrun : redistribute s ni len = .ok s')
    (hall : len ≤ 8 * filled s.items ni len)
    (hout : ∀ i < s.N, ¬ (ni ≤ i ∧ i < ni + len) → FilledLeaf s i) : Dense s' := by
  have hin := hwin.in_array hs.pow hi0
  have hlenpos := hwin.len_pow.pos
  have hshuffled := redistribute_shuffled hrun
  obtain ⟨A, W, B, hitems, hA, hW⟩ := cut_window (show ni + len ≤ s.items.length by rw [hs.items]; exact hin)
  have hcount : filled s.items ni len = (W.filter full).length := by
    rw [hitems, ← hA, ← hW, filled_cut, List.countP_eq_length_filter]
  have hsub : (W.filter full).Sublist (s.items.filter full) := by
    rw [hitems, List.filter_append, List.filter_append]
    exact (List.sublist_append_left _ _).trans (List.sublist_append_right _ _)
  obtain ⟨s1, hrun1, hframe, hspaced, -, -⟩ := redistribute_spaces hitems
    (List.ne_nil_of_length_pos (by omega)) (.inr (List.ne_nil_of_length_pos (by omega)))
    (hone.1.sublist hsub) fun e he => hone.2 e (hsub.subset he)
  rw [hA, hW] at hrun1 hspaced
  cases hrun1.symm.trans hrun
  have hN : s'.N = s.N := hframe.N
  intro i hi
  rw [hN] at hi
  unfold FilledLeaf
  rw [hN]
  obtain ⟨lv, hlv⟩ := hwin.pow
  have hdvd : logN s.N ∣ len := ⟨2 ^ lv, hlv⟩
  obtain ⟨hleaf1, hleaf2⟩ := find_node_nest i hdvd (logN_pos s.N) hlenpos
  rw [← find_leaf_eq] at hleaf1 hleaf2
  have hni : ni = find_node i0 len := hwin.at_
  by_cases hinside : ni ≤ i ∧ i < ni + len
  · -- the leaf is a part of the window
    rw [hni] at hinside
    rw [find_node_inside hinside.1 hinside.2, ← hni] at hleaf1 hleaf2
    obtain ⟨c, hc⟩ : logN s.N ∣ find_leaf s.N i - ni := by
      apply Nat.dvd_sub (dvd_find_node i _)
      rw [hni]
      exact hdvd.trans (dvd_find_node i0 len)
    rw [Nat.mul_comm] at hc hlv
    have hcm : c < 2 ^ lv := by
      apply Nat.lt_of_mul_lt_mul_right (a := logN s.N)
      have := logN_pos s.N
      omega
    have hshare := share_le_filled _ _ hlv (logN_pos s.N) hcm
      (by rw [← hcount]; exact gapped.count_le s.items ni len) (fun e he => (List.mem_filter.mp he).2)
      hspaced.placed
    rw [← hc, Nat.add_sub_cancel' hleaf1, ← hcount] at hshare
    have henough := share_enough (eight_dvd_logN h16) (Nat.two_pow_pos lv)
      (show 2 ^ lv * logN s.N ≤ 8 * filled s.items ni len by rw [← hlv]; exact hall)
    omega
  · have hold := hout i hi hinside
    unfold FilledLeaf at hold
    rw [filled_eq] at hold ⊢
    rw [gapped.count_congr fun k hk hk' => hshuffled.outside k ?_]
    · exact hold
    · rw [hni] at hinside ⊢
      exact leaf_outside hdvd hlenpos hinside hk hk'

/-! ## Arrays of a new size -/

theorem filled_all (hs : Sized s) : filled s.items 0 s.N = (s.items.filter full).length := by
  unfold filled
  rw [List.drop_zero, List.take_of_length_le (by rw [hs.items]), List.countP_eq_length_filter]
  rfl

theorem whole_window (hs : Sized s) : Window s.N 0 s.N 0 :=
  ⟨⟨height s.N, height_eq hs.pow⟩, le_refl _, (find_node_of_dvd (Nat.dvd_zero s.N)).symm⟩

/-- An array that is filled to a quarter is doubled to one whose leaves are filled to an eighth. -/
theorem double_list_dense (h : WellFormed s) (h8 : 8 ≤ s.N) (hrun : double_list s = .ok s')
    (hall : s.N ≤ 4 * filled s.items 0 s.N) : Dense s' := by
  unfold double_list at hrun
  dsimp only [resizeEdgeArray] at hrun
  generalize hs1 : ({ s with N := s.N * 2, versions := _, items := _ } : PCSR) = s1 at hrun
  have hN1 : s1.N = s.N * 2 := by rw [← hs1]
  have hitems1 : s1.items = s.items ++ List.replicate (s.N * 2 - s.N * 2 / 2) null_edge := by rw [← hs1]
  have hfilter : s1.items.filter full = s.items.filter full := by
    rw [hitems1]
    simp [List.filter_append]
  have hs : Sized s1 := by
    refine ⟨by rw [hN1]; exact h.sized.pow.double, ?_, ?_⟩
    · rw [hitems1, hN1]
      simp [h.sized.items]
      omega
    · rw [← hs1]
      have hle := leaves_le_double h.sized.pow
      simp [h.sized.versions]
      omega
  have hone : OneSentinelEach s1 := by
    have hold := h.one_sentinel_each
    unfold OneSentinelEach at hold ⊢
    rw [hfilter, ← hs1]
    exact hold
  rw [filled_all h.sized, ← hfilter, ← filled_all hs] at hall
  apply redistribute_dense hs hone (by omega) (by omega : 0 < s1.N) (whole_window hs) (by rw [hN1]; exact hrun)
  · omega
  · intro i hi hno
    omega

theorem EvenlySpaced.dense (h : EvenlySpaced s) (hs : Sized s) (h16 : 16 ≤ s.N)
    (hall : s.N ≤ 8 * (s.items.filter full).length) : Dense s := by
  intro i hi
  have hN := height_eq hs.pow
  rw [Nat.mul_comm] at hN
  have hpart : i / logN s.N < 2 ^ height s.N := by
    rw [Nat.div_lt_iff_lt_mul (logN_pos s.N), ← hN]
    exact hi
  have hle : (s.items.filter full).length ≤ s.N := by
    rw [← filled_all hs]
    exact gapped.count_le s.items 0 s.N
  have hshare := share_le_filled s.items 0 hN (logN_pos s.N) hpart hle
    (fun e he => (List.mem_filter.mp he).2) fun k hk => by
      rw [h.placed k _ (List.getElem?_eq_getElem hk), List.getElem?_eq_getElem hk]
  have henough := share_enough (eight_dvd_logN h16) (Nat.two_pow_pos (height s.N))
    (show 2 ^ height s.N * logN s.N ≤ 8 * (s.items.filter full).length by rw [← hN]; exact hall)
  rw [Nat.zero_add] at hshare
  unfold FilledLeaf
  exact henough.trans (Nat.mul_le_mul_left 8 hshare)

/-! ## The items of a dense array -/

/-- The items of a dense array, by induction on its leaves. -/
theorem Dense.leaves (hd : Dense s) (m : Nat) (hm : m * logN s.N ≤ s.N) :
    m * logN s.N ≤ 8 * filled s.items 0 (m * logN s.N) := by
  induction m with
  | zero => omega
  | succ m ih =>
    rw [Nat.succ_mul] at hm ⊢
    have hleaf := hd (m * logN s.N) (by have := logN_pos s.N; omega)
    unfold FilledLeaf at hleaf
    rw [find_leaf_eq, find_node_of_dvd (Nat.dvd_mul_left _ m)] at hleaf
    have hfront := ih (by omega)
    rw [filled_eq] at hleaf hfront ⊢
    rw [gapped.count_add, Nat.zero_add]
    omega

theorem Dense.size_le (hd : Dense s) (hs : Sized s) : s.N ≤ 8 * filled s.items 0 s.N := by
  have hall := hd.leaves (2 ^ height s.N)
  rw [Nat.mul_comm, ← height_eq hs.pow] at hall
  exact hall (le_refl _)

/-! ## Scans -/

/-- A dense array has an item in each run of slots that is as long as two leaves. -/
theorem Dense.le_filled (hd : Dense s) (k : Nat) (hk : index + k * (2 * logN s.N) ≤ s.N) :
    k ≤ filled s.items index (k * (2 * logN s.N)) := by
  have hL := logN_pos s.N
  induction k with
  | zero => exact Nat.zero_le _
  | succ k ih =>
    rw [Nat.succ_mul] at hk ⊢
    have hfront := ih (by omega)
    -- the leaf around the last slot of the first half
    generalize hi : index + k * (2 * logN s.N) + (logN s.N - 1) = i
    have hleaf := hd i (by omega)
    have hin := find_leaf_lt_succ s.N i
    have hmono := gapped.count_mono full s.items
      (show index + k * (2 * logN s.N) ≤ find_leaf s.N i by omega)
      (show find_leaf s.N i + logN s.N ≤ index + k * (2 * logN s.N) + 2 * logN s.N by omega)
    unfold FilledLeaf at hleaf
    rw [filled_eq] at hleaf hfront ⊢
    rw [gapped.count_add]
    omega

/-- The slots between the boundaries of a vertex, against its neighbours. -/
theorem Dense.scan_le (hd : Dense s) (hw : WellFormed s) {u : Nat} (hu : u < s.get_n) : ∃ node vs,
    s.node u = .ok node ∧ get_neighbourhood s u = .ok vs ∧
      node.end_ - node.beginning ≤ 2 * logN s.N * (vs.length + 1) := by
  obtain ⟨b, en, hb⟩ := hw.bounds hu
  obtain ⟨node, hnode, rfl, rfl⟩ := id hb.node
  have hle := hb.e_lt hw
  refine ⟨node, _, hnode, get_neighbourhood_eq hw hu, ?_⟩
  rw [List.length_map, hb.seen_eq]
  generalize hlen : node.end_ - (node.beginning + 1) = len
  have hcount : (region s node.beginning node.end_).length = filled s.items (node.beginning + 1) len := by
    unfold region filled
    rw [hlen, List.countP_eq_length_filter]
    rfl
  have hpos : 0 < 2 * logN s.N := by
    have := logN_pos s.N
    omega
  have hfit := Nat.div_mul_le_self len (2 * logN s.N)
  have hall : node.beginning + 1 + len / (2 * logN s.N) * (2 * logN s.N) ≤ s.N := by
    have := hb.b_lt hw
    omega
  have hmany : len / (2 * logN s.N) ≤ (region s node.beginning node.end_).length := by
    rw [hcount]
    refine (hd.le_filled _ hall).trans ?_
    rw [filled_eq, filled_eq]
    exact gapped.count_mono full s.items (le_refl _) (by omega)
  have hlt := Nat.lt_div_mul_add (a := len) hpos
  have hmul : (len / (2 * logN s.N) + 1) * (2 * logN s.N) ≤
      2 * logN s.N * ((region s node.beginning node.end_).length + 1) := by
    rw [Nat.mul_comm]
    exact Nat.mul_le_mul_left _ (by omega)
  rw [Nat.succ_mul] at hmul
  omega

end

end packed_csr
