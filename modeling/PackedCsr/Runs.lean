-- The array that the constructor makes is well formed; and the runs of calls
-- that start there.
import PackedCsr.Resize

namespace packed_csr

open effects

/-! ## The slots of the first sentinels -/

section

variable {N n : Nat}

theorem init_slot_lt_succ (hn : 0 < n) (hle : n ≤ N) (k : Nat) :
    init_slot N n k < init_slot N n (k + 1) := by
  unfold init_slot
  rw [Nat.succ_mul]
  have h : k * N / n + 1 = (k * N + n) / n := (Nat.add_div_right _ hn).symm
  have hle' : (k * N + n) / n ≤ (k * N + N) / n := Nat.div_le_div_right (by omega)
  omega

theorem init_slot_strict (hn : 0 < n) (hle : n ≤ N) : StrictMono (init_slot N n) :=
  strictMono_nat_of_lt_succ (init_slot_lt_succ hn hle)

theorem init_slot_zero (N n : Nat) : init_slot N n 0 = 0 := by
  simp [init_slot]

/-- The last slot of the array holds no sentinel. -/
theorem init_slot_lt_last {k : Nat} (hlt : n < N) (hk : k < n) : init_slot N n k < N - 1 := by
  unfold init_slot
  apply Nat.div_lt_of_lt_mul
  obtain ⟨m, rfl⟩ : ∃ m, N = m + 1 := ⟨N - 1, by omega⟩
  rw [Nat.add_sub_cancel, Nat.mul_succ]
  have h : k * m ≤ n * m - m := by
    rw [← Nat.sub_one_mul]
    exact Nat.mul_le_mul_right m (by omega)
  have hpos : m ≤ n * m := Nat.le_mul_of_pos_left m (by omega)
  omega

/-! ## The items -/

theorem init_items_length (rest i current : Nat) :
    (init_items_loop N n rest i current).length = rest := by
  induction rest generalizing i current with
  | zero => rfl
  | succ rest ih =>
    unfold init_items_loop
    split
    · simp [ih]
    · simp [ih]

/-- The loop from slot `i` on, in front of the slot of sentinel `current`. -/
theorem init_items_filter (hn : 0 < n) (hle : n ≤ N) (rest i current : Nat)
    (hcur : current < n → i ≤ init_slot N n current) (hend : ∀ k < n, init_slot N n k < i + rest) :
    (init_items_loop N n rest i current).filter full = (List.range' current (n - current)).map sentinel := by
  induction rest generalizing i current with
  | zero =>
    have hc : n ≤ current := by
      by_contra hc
      have := hend current (by omega)
      have := hcur (by omega)
      omega
    rw [show n - current = 0 by omega]
    rfl
  | succ rest ih =>
    unfold init_items_loop
    have hstep := init_slot_lt_succ hn hle current
    by_cases hi : i = init_slot N n current ∧ current < n
    · have hs : (⟨current, UINT32_MAX, if i = 0 then UINT32_MAX else current⟩ : Edge) =
          sentinel current := by
        unfold sentinel
        congr 1
        have h0 : i = 0 ↔ current = 0 := by
          rw [hi.1]
          constructor
          · intro h
            by_contra hc
            have := init_slot_strict hn hle (Nat.pos_of_ne_zero hc)
            omega
          · intro h
            rw [h, init_slot_zero]
        simp [h0]
      rw [if_pos hi, hs, List.filter_cons_of_pos (full_sentinel _),
        ih (i + 1) (current + 1) (fun _ => by omega) fun k hk => by have := hend k hk; omega]
      obtain ⟨m, hm⟩ : ∃ m, n - current = m + 1 := ⟨n - current - 1, by omega⟩
      rw [hm, List.range'_succ, List.map_cons, show n - (current + 1) = m by omega]
    · rw [if_neg hi, List.filter_cons_of_neg (by simp)]
      apply ih (i + 1) current
      · intro hc
        have := hcur hc
        omega
      · intro k hk
        have := hend k hk
        omega

/-- A slot that is not null holds the sentinel whose slot it is. -/
theorem init_items_slot (rest i current : Nat)
    (hcur : i = 0 → current = 0) {j : Nat} {e : Edge}
    (h : (init_items_loop N n rest i current)[j]? = some e) (he : full e = true) :
    ∃ k < n, e = sentinel k ∧ i + j = init_slot N n k := by
  induction rest generalizing i current j with
  | zero =>
    simp [init_items_loop] at h
  | succ rest ih =>
    unfold init_items_loop at h
    by_cases hi : i = init_slot N n current ∧ current < n
    · rw [if_pos hi] at h
      cases j with
      | zero =>
        simp only [List.getElem?_cons_zero, Option.some.injEq] at h
        refine ⟨current, hi.2, ?_, hi.1⟩
        rw [← h]
        unfold sentinel
        congr 1
        have h0 : i = 0 ↔ current = 0 := by
          constructor
          · exact hcur
          · intro hc
            rw [hi.1, hc, init_slot_zero]
        simp [h0]
      | succ j =>
        obtain ⟨k, hk, hek, hslot⟩ := ih (i + 1) (current + 1) (by omega) h
        exact ⟨k, hk, hek, by omega⟩
    · rw [if_neg hi] at h
      cases j with
      | zero =>
        simp only [List.getElem?_cons_zero, Option.some.injEq] at h
        rw [← h] at he
        cases he
      | succ j =>
        obtain ⟨k, hk, hek, hslot⟩ := ih (i + 1) current (by omega) h
        exact ⟨k, hk, hek, by omega⟩

/-! ## The nodes -/

theorem init_nodes_get (rest i : Nat) (v : Nat) :
    (init_nodes_loop N n rest i (init_slot N n i))[v]? =
      if v < rest then some ⟨init_slot N n (i + v), init_slot N n (i + v + 1), 0⟩ else none := by
  induction rest generalizing i v with
  | zero => simp [init_nodes_loop]
  | succ rest ih =>
    unfold init_nodes_loop
    cases v with
    | zero => simp
    | succ v =>
      simp only [List.getElem?_cons_succ, ih, Nat.add_lt_add_iff_right]
      congr 3
      · congr 1
        omega
      · congr 1
        omega

end

/-! ## The constructor -/

section

variable (n : Nat) (lock_search : Bool)

/-- The first size of the array of `n` vertices. -/
def init_size (n : Nat) : Nat := 2 * 2 ^ Nat.log2 (max (n + n) 1024)

theorem init_size_pow : Pow (init_size n) := pow_two.mul ⟨_, rfl⟩

theorem lt_init_size : max (n + n) 1024 < init_size n := by
  unfold init_size
  rw [← Nat.pow_succ']
  exact Nat.lt_log2_self

theorem new_pcsr_items_length : (new_pcsr n n lock_search).items.length = init_size n :=
  init_items_length _ _ _

theorem new_pcsr_nodes (v : Nat) : (new_pcsr n n lock_search).nodes[v]? =
    if v < n then some ⟨init_slot (init_size n) n v,
      if v = n - 1 then init_size n - 1 else init_slot (init_size n) n (v + 1), 0⟩ else none := by
  have hnodes : (new_pcsr n n lock_search).nodes =
      (init_nodes_loop (init_size n) n n 0 (init_slot (init_size n) n 0)).modify (n - 1)
        fun n' => { n' with end_ := init_size n - 1 } := by
    rw [init_slot_zero]
    rfl
  rw [hnodes, List.getElem?_modify, init_nodes_get]
  by_cases hv : v < n
  · by_cases hl : v = n - 1
    · simp [hl]
    · simp [hv, hl, Ne.symm hl]
  · simp [hv]

theorem new_pcsr_get_n : (new_pcsr n n lock_search).get_n = n := by
  have h : ∀ v, v < (new_pcsr n n lock_search).nodes.length ↔ v < n := by
    intro v
    have hv := new_pcsr_nodes n lock_search v
    constructor
    · intro hlt
      by_contra hc
      rw [if_neg hc, List.getElem?_eq_none_iff] at hv
      omega
    · intro hlt
      by_contra hc
      rw [if_pos hlt, List.getElem?_eq_none (by omega)] at hv
      cases hv
  exact Nat.le_antisymm (Nat.le_of_not_lt fun hc => lt_irrefl _ ((h n).mp hc))
    (Nat.le_of_not_lt fun hc => lt_irrefl _ ((h _).mpr hc))

theorem new_pcsr_sized : Sized (new_pcsr n n lock_search) :=
  ⟨init_size_pow n, new_pcsr_items_length n lock_search, List.length_replicate⟩

variable {n}

theorem new_pcsr_slot {i : Nat} {e : Edge} (hi : (new_pcsr n n lock_search).items[i]? = some e)
    (he : full e = true) : ∃ k < n, e = sentinel k ∧ i = init_slot (init_size n) n k := by
  have hi' : (init_items_loop (init_size n) n (init_size n) 0 0)[i]? = some e := hi
  obtain ⟨k, hk, hek, hslot⟩ := init_items_slot _ _ _ (fun _ => rfl) hi' he
  rw [Nat.zero_add] at hslot
  exact ⟨k, hk, hek, hslot⟩

theorem new_pcsr_last (hn : 0 < n) :
    IsGap (new_pcsr n n lock_search) ((new_pcsr n n lock_search).N - 1) := by
  have hlt := lt_init_size n
  have hlast : init_size n - 1 < (new_pcsr n n lock_search).items.length := by
    rw [new_pcsr_items_length]
    omega
  refine ⟨_, List.getElem?_eq_getElem hlast, ?_⟩
  by_contra hc
  obtain ⟨k, hk, -, hslot⟩ := new_pcsr_slot lock_search (List.getElem?_eq_getElem hlast)
    (by simpa [full] using hc)
  have := init_slot_lt_last (N := init_size n) (by omega) hk
  omega

theorem new_pcsr_contents (hn : 0 < n) :
    (new_pcsr n n lock_search).items.filter full = (List.range n).map sentinel := by
  have hlt := lt_init_size n
  have h := init_items_filter (N := init_size n) hn (by omega) (init_size n) 0 0 (by omega)
    fun k hk => by have := init_slot_lt_last (N := init_size n) (by omega) hk; omega
  rw [Nat.sub_zero, ← List.range_eq_range'] at h
  exact h

theorem new_pcsr_well_formed (hn : 0 < n) (hle : n ≤ UINT32_MAX) :
    WellFormed (new_pcsr n n lock_search) := by
  have hlt := lt_init_size n
  have hget := new_pcsr_get_n n lock_search
  refine ⟨new_pcsr_sized n lock_search, by rw [hget]; exact hn, by rw [hget]; exact hle, ?_, ?_, ?_, ?_⟩
  · rw [new_pcsr_contents lock_search hn, hget]
    refine ⟨?_, ?_, ?_⟩
    · rw [List.pairwise_map]
      apply List.Pairwise.imp _ List.pairwise_lt_range
      intro a b hab
      rw [before_iff]
      exact .inl hab
    · intro e he
      obtain ⟨v, hv, rfl⟩ := List.mem_map.mp he
      exact .inr ⟨v, List.mem_range.mp hv, rfl⟩
    · intro v hv
      exact List.mem_map.mpr ⟨v, List.mem_range.mpr hv, rfl⟩
  · -- the first sentinel starts the array
    obtain ⟨m, hm⟩ : ∃ m, init_size n = m + 1 := ⟨init_size n - 1, by omega⟩
    show (init_items_loop (init_size n) n (init_size n) 0 0)[0]? = some (sentinel 0)
    rw [hm]
    unfold init_items_loop
    rw [if_pos ⟨(init_slot_zero _ _).symm, hn⟩]
    rfl
  · intro i v hv
    obtain ⟨k, hk, hek, hslot⟩ := new_pcsr_slot lock_search hv (full_sentinel v)
    obtain rfl : v = k := congrArg Edge.src hek
    constructor
    · rw [new_pcsr_nodes, if_pos hk, hslot]
      rfl
    · intro hpos
      rw [new_pcsr_nodes, if_pos (by omega), if_neg (by omega), hslot, Nat.sub_add_cancel hpos]
      rfl
  · have hlen : (new_pcsr n n lock_search).nodes.length = n := hget
    unfold EndsAt
    rw [hlen, new_pcsr_nodes, if_pos (by omega), if_pos rfl]
    rfl

end

/-! ## Runs -/

/-- The states that one thread reaches by calls that return, where each call meets `ok` in the
state that it starts in. -/
inductive Reaches (n : Nat) (lock_search : Bool) (ok : PCSR → Call → Prop) : PCSR → Prop
  | start : Reaches n lock_search ok (new_pcsr n n lock_search)
  | call {s s' : PCSR} (c : Call) (h : Reaches n lock_search ok s) (hc : c.Valid n) (hok : ok s c)
      (hr : Returns s c s') : Reaches n lock_search ok s'

/-- What holds of a new array, and is kept by each call that meets `ok`, holds in each state of
a run. -/
theorem reaches_invariant {n : Nat} {lock_search : Bool} {ok : PCSR → Call → Prop} {P : PCSR → Prop}
    (hstart : P (new_pcsr n n lock_search))
    (hstep : ∀ s c s', P s → c.Valid n → ok s c → Returns s c s' → P s') {s : PCSR}
    (h : Reaches n lock_search ok s) : P s := by
  induction h with
  | start => exact hstart
  | call c _ hc hok hr ih => exact hstep _ c _ ih hc hok hr

end packed_csr
