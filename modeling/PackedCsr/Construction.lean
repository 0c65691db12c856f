-- The empty graph that the constructor lays out: one sentinel for each vertex, spread
-- evenly, and a node table that agrees with them.
import PackedCsr.Runs

namespace packed_csr

section

variable {N n : Nat} {s : PCSR}

/-- A slot of the constructor that holds no sentinel is cleared. -/
theorem init_items_clear (hn : 0 < n) (rest i current : Nat) (hcur : current = 0 → i = 0) {e : Edge}
    (he : e ∈ init_items_loop N n rest i current) (hf : full e = false) : e = null_edge := by
  induction rest generalizing i current with
  | zero => cases he
  | succ rest ih =>
    unfold init_items_loop at he
    by_cases hi : i = init_slot N n current ∧ current < n
    · rw [if_pos hi] at he
      rcases List.mem_cons.mp he with rfl | he
      · -- the back pointer of a later vertex is not 0
        exfalso
        by_cases h0 : i = 0
        · simp [full, Edge.is_null, h0, UINT32_MAX] at hf
        · have hne : current ≠ 0 := fun hc => h0 (hcur hc)
          simp [full, Edge.is_null, h0, hne] at hf
      · exact ih (i + 1) (current + 1) (by omega) he
    · rw [if_neg hi] at he
      rcases List.mem_cons.mp he with rfl | he
      · rfl
      · apply ih (i + 1) current _ he
        intro hc
        have h0 := hcur hc
        apply absurd _ hi
        rw [hc, h0, init_slot_zero]
        exact ⟨rfl, hn⟩

/-- A reader finds nothing in a region of gaps. -/
theorem region_loop_gaps (rest i : Nat) (h : ∀ k, i ≤ k → k < i + rest → IsGap s k) :
    region_loop s rest i = .ok [] := by
  induction rest generalizing i with
  | zero => rfl
  | succ rest ih =>
    obtain ⟨e, he, hnull⟩ := h i (le_refl i) (by omega)
    have hread : s.item i = .ok e := by
      unfold PCSR.item
      rw [he]
    unfold region_loop
    simp only [hread, ih (i + 1) fun k hk hk' => h k (by omega) (by omega), bind, Except.bind, hnull,
      if_true]
    rfl

end

section

variable {n : Nat} (lock_search : Bool)

/-- The slot of a sentinel. -/
theorem new_pcsr_sentinel (hn : 0 < n) {k : Nat} (hk : k < n) :
    (new_pcsr n n lock_search).items[init_slot (init_size n) n k]? = some (sentinel k) := by
  have hmem : sentinel k ∈ (new_pcsr n n lock_search).items.filter full := by
    rw [new_pcsr_contents lock_search hn]
    exact List.mem_map.mpr ⟨k, List.mem_range.mpr hk, rfl⟩
  obtain ⟨i, hi⟩ := List.mem_iff_getElem?.mp (List.mem_filter.mp hmem).1
  obtain ⟨j, -, hj, rfl⟩ := new_pcsr_slot lock_search hi (full_sentinel k)
  obtain rfl : k = j := congrArg Edge.src hj
  exact hi

/-- A slot that is the slot of no sentinel. -/
theorem new_pcsr_gap (hn : 0 < n) {i : Nat} (hi : i < init_size n)
    (hno : ∀ k < n, i ≠ init_slot (init_size n) n k) :
    (new_pcsr n n lock_search).items[i]? = some null_edge := by
  have hlt : i < (new_pcsr n n lock_search).items.length := by
    rw [new_pcsr_items_length]
    exact hi
  have hget := List.getElem?_eq_getElem hlt
  generalize (new_pcsr n n lock_search).items[i] = e at hget
  have hf : full e = false := by
    by_contra hf
    obtain ⟨k, hk, -, hslot⟩ := new_pcsr_slot lock_search hget (by simpa using hf)
    exact hno k hk hslot
  rw [hget, init_items_clear hn _ 0 0 (fun _ => rfl) (List.mem_of_getElem? hget) hf]

/-- Between two neighbouring sentinels there are gaps. -/
theorem new_pcsr_region (hn : 0 < n) {k i : Nat} (hk : init_slot (init_size n) n k < i)
    (hi : i < init_slot (init_size n) n (k + 1)) (hN : i < init_size n) :
    IsGap (new_pcsr n n lock_search) i := by
  have hlt := lt_init_size n
  have hmono := (init_slot_strict (N := init_size n) hn (by omega)).monotone
  refine ⟨null_edge, new_pcsr_gap lock_search hn hN fun j _ hj => ?_, rfl⟩
  rcases Nat.lt_or_ge k j with hkj | hjk
  · have := hmono (show k + 1 ≤ j from hkj)
    omega
  · have := hmono hjk
    omega

theorem new_pcsr_neighbourhood (hn : 0 < n) {v : Nat} (hv : v < n) :
    get_neighbourhood (new_pcsr n n lock_search) v = .ok [] := by
  have hlt := lt_init_size n
  have hnode : (new_pcsr n n lock_search).node v = .ok ⟨init_slot (init_size n) n v,
      if v = n - 1 then init_size n - 1 else init_slot (init_size n) n (v + 1), 0⟩ := by
    unfold PCSR.node
    rw [new_pcsr_nodes, if_pos hv]
  have hget_n : v < (new_pcsr n n lock_search).get_n := by
    rw [new_pcsr_get_n]
    exact hv
  have hend : init_slot (init_size n) n n = init_size n := Nat.mul_div_cancel_left _ hn
  have hgaps := region_loop_gaps (s := new_pcsr n n lock_search)
    ((if v = n - 1 then init_size n - 1 else init_slot (init_size n) n (v + 1)) -
      (init_slot (init_size n) n v + 1)) (init_slot (init_size n) n v + 1) (by
    intro i hi hi'
    apply new_pcsr_region lock_search hn hi
    · by_cases hl : v = n - 1
      · rw [show v + 1 = n by omega, hend]
        rw [if_pos hl] at hi'
        omega
      · rw [if_neg hl] at hi'
        omega
    · have hmono := (init_slot_strict (N := init_size n) hn (by omega)).monotone hv
      by_cases hl : v = n - 1
      · rw [if_pos hl] at hi'
        omega
      · rw [if_neg hl] at hi'
        have hle := (init_slot_strict (N := init_size n) hn (by omega)).monotone (show v + 1 ≤ n from hv)
        rw [hend] at hle
        omega)
  unfold get_neighbourhood
  rw [if_pos hget_n, hnode]
  simp only [bind, Except.bind, hgaps]
  rfl

end

/-! ## The law -/

/-- The constructor lays out a consistent empty graph. The size fits an `int`, so that no
computation of it overflows. -/
theorem the_constructor_lays_out_an_empty_graph (src_n : Nat) (lock_search : Bool) (hn : 1 ≤ src_n)
    (hsize : 2 * src_n < 2 ^ 30) :
    ∃ N k, (new_pcsr src_n src_n lock_search).N = N ∧ N = 2 ^ k ∧ 2 * src_n < N ∧ N ≤ 2 ^ 30 ∧
      (new_pcsr src_n src_n lock_search).items.length = N ∧
      -- the slots of the sentinels
      (∀ i < src_n, (new_pcsr src_n src_n lock_search).items[i * N / src_n]? =
        some ⟨i, UINT32_MAX, if i = 0 then UINT32_MAX else i⟩) ∧
      (∀ j < N, (∀ i < src_n, j ≠ i * N / src_n) →
        (new_pcsr src_n src_n lock_search).items[j]? = some null_edge) ∧
      ((new_pcsr src_n src_n lock_search).items.filter full).length = src_n ∧
      (∀ i j, i < j → i * N / src_n < j * N / src_n) ∧ 0 * N / src_n = 0 ∧
      (new_pcsr src_n src_n lock_search).items[N - 1]? = some null_edge ∧
      -- the node table
      (new_pcsr src_n src_n lock_search).get_n = src_n ∧
      ∀ i < src_n, (new_pcsr src_n src_n lock_search).nodes[i]? =
          some ⟨i * N / src_n, if i + 1 = src_n then N - 1 else (i + 1) * N / src_n, 0⟩ ∧
        get_neighbourhood (new_pcsr src_n src_n lock_search) i = .ok [] := by
  have hlt := lt_init_size src_n
  obtain ⟨k, hk⟩ := init_size_pow src_n
  have hlast : ∀ i < src_n, init_size src_n - 1 ≠ init_slot (init_size src_n) src_n i := by
    intro i hi
    have := init_slot_lt_last (N := init_size src_n) (by omega) hi
    omega
  refine ⟨init_size src_n, k, rfl, hk, by omega, ?_, new_pcsr_items_length src_n lock_search,
    fun i hi => new_pcsr_sentinel lock_search hn hi, fun j hj hno => new_pcsr_gap lock_search hn hj hno,
    ?_, fun i j hij => init_slot_strict hn (by omega) hij, init_slot_zero _ _,
    new_pcsr_gap lock_search hn (by omega) hlast, new_pcsr_get_n src_n lock_search, ?_⟩
  · have hlog : Nat.log2 (max (src_n + src_n) 1024) < 30 := by
      rw [Nat.log2_lt (by omega)]
      omega
    unfold init_size
    rw [← Nat.pow_succ']
    exact Nat.pow_le_pow_right (by decide) hlog
  · rw [new_pcsr_contents lock_search hn]
    simp
  · intro i hi
    refine ⟨?_, new_pcsr_neighbourhood lock_search hn hi⟩
    rw [new_pcsr_nodes, if_pos hi]
    by_cases hl : i = src_n - 1
    · rw [if_pos hl, if_pos (by omega)]
      rfl
    · rw [if_neg hl, if_neg (by omega)]
      rfl

/-- The graph of 10 vertices of the tests. -/
theorem the_constructor_lays_out_ten_vertices :
    ∃ N k, (new_pcsr 10 10 true).N = N ∧ N = 2 ^ k ∧ 20 < N ∧ N ≤ 2 ^ 30 ∧
      (new_pcsr 10 10 true).items[N - 1]? = some null_edge := by
  obtain ⟨N, k, hN, hk, hlt, hle, -, -, -, -, -, -, hlast, -⟩ :=
    the_constructor_lays_out_an_empty_graph 10 true (by decide) (by decide)
  exact ⟨N, k, hN, hk, hlt, hle, hlast⟩

end packed_csr
