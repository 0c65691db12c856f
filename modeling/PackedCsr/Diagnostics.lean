-- The functions that are there for debugging: they check the order of the regions and count the edges.
import PackedCsr.References

namespace packed_csr

/-- The inner loop of `is_sorted`, from slot `j` on. -/
def sorted_loop (s : PCSR) : (rest j prev : Nat) → Res Bool
  | 0, _, _ => .ok true
  | rest + 1, j, prev => do
    let e ← s.item j
    if e.is_null then sorted_loop s rest (j + 1) prev
    else if e.dest < prev then return false
    else sorted_loop s rest (j + 1) e.dest

def is_sorted_loop (s : PCSR) : (rest i : Nat) → Res Bool
  | 0, _ => .ok true
  | rest + 1, i => do
    let n ← s.node i
    if ← sorted_loop s (n.end_ - (n.beginning + 1)) (n.beginning + 1) 0 then is_sorted_loop s rest (i + 1)
    else return false

/-- `true` if every neighbourhood is sorted. -/
def is_sorted (s : PCSR) : Res Bool := is_sorted_loop s s.get_n 0

/-- The loop over a region counts what a reader of it sees. -/
def count_total_edges_loop (s : PCSR) : (rest i t : Nat) → Res Nat
  | 0, _, t => .ok t
  | rest + 1, i, t => do
    let n ← s.node i
    let es ← region_loop s (n.end_ - (n.beginning + 1)) (n.beginning + 1)
    count_total_edges_loop s rest (i + 1) (t + es.length)

def count_total_edges (s : PCSR) : Res Nat := count_total_edges_loop s s.get_n 0 0

def count_elems_loop (s : PCSR) : (rest i j : Nat) → Res Nat
  | 0, _, j => .ok j
  | rest + 1, i, j => do
    let e ← s.item i
    count_elems_loop s rest (i + 1) (j + if !e.is_null && !is_sentinel e then 1 else 0)

/-- The number of edges in `[index, index + len)`. -/
def count_elems (s : PCSR) (index len : Nat) : Res Nat := count_elems_loop s len index 0

section

variable {s : PCSR} {m : Nat → Nat → Option Nat} {x : Edge} {u : Nat}

/-! ## The loops -/

theorem sorted_loop_spec {rest j prev : Nat} (hlen : j + rest ≤ s.items.length)
    (hsorted : ((((s.items.drop j).take rest).filter full).map Edge.dest).Pairwise (· < ·))
    (hprev : ∀ x ∈ ((s.items.drop j).take rest).filter full, prev ≤ x.dest) :
    sorted_loop s rest j prev = .ok true := by
  induction rest generalizing j prev with
  | zero => rfl
  | succ rest ih =>
    have hj : j < s.items.length := by omega
    have hcons : (s.items.drop j).take (rest + 1) = s.items[j] :: (s.items.drop (j + 1)).take rest := by
      rw [List.drop_eq_getElem_cons hj, List.take_succ_cons]
    rw [hcons, List.filter_cons] at hsorted hprev
    unfold sorted_loop
    rw [item_of_lt hj]
    simp only [bind, Except.bind, pure, Except.pure]
    cases hf : full s.items[j] with
    | false =>
      have hnull : s.items[j].is_null = true := by simpa [full] using hf
      rw [hf] at hsorted hprev
      rw [if_pos hnull]
      exact ih (by omega) hsorted hprev
    | true =>
      have hnull : ¬ s.items[j].is_null = true := by simpa [full] using hf
      rw [hf, if_pos rfl] at hsorted hprev
      have hle := hprev _ List.mem_cons_self
      rw [if_neg hnull, if_neg (Nat.not_lt.mpr hle)]
      rw [List.map_cons, List.pairwise_cons] at hsorted
      refine ih (by omega) hsorted.2 fun x hx => ?_
      exact (hsorted.1 _ (List.mem_map_of_mem hx)).le

theorem is_sorted_loop_spec (h : WellFormed s) {rest i : Nat} (hi : i + rest ≤ s.get_n) :
    is_sorted_loop s rest i = .ok true := by
  induction rest generalizing i with
  | zero => rfl
  | succ rest ih =>
    obtain ⟨b, en, hb⟩ := h.bounds (show i < s.get_n by omega)
    obtain ⟨node, hnode, rfl, rfl⟩ := id hb.node
    have hblt := hb.b_lt h
    have hle := hb.b_le h
    have hen := hb.e_lt h
    have hlen : node.beginning + 1 + (node.end_ - (node.beginning + 1)) ≤ s.items.length := by
      rw [h.sized.items]
      omega
    have hloop := sorted_loop_spec hlen (hb.region_ascending h) fun x _ => Nat.zero_le x.dest
    unfold is_sorted_loop
    rw [hnode]
    simp only [bind, Except.bind, hloop, if_true]
    exact ih (by omega)

theorem count_total_edges_loop_spec (h : WellFormed s) {rest i t : Nat} (hi : i + rest ≤ s.get_n) :
    count_total_edges_loop s rest i t = .ok (t + ((List.range' i rest).flatMap (seen s)).length) := by
  induction rest generalizing i t with
  | zero => rfl
  | succ rest ih =>
    obtain ⟨n, hnode, hloop⟩ := read_region h (show i < s.get_n by omega)
    unfold count_total_edges_loop
    rw [hnode]
    simp only [bind, Except.bind, hloop]
    rw [ih (by omega), List.range'_succ, List.flatMap_cons, List.length_append, Nat.add_assoc]

theorem count_elems_loop_spec {rest i j : Nat} (hlen : i + rest ≤ s.items.length) :
    count_elems_loop s rest i j =
      .ok (j + (((s.items.drop i).take rest).filter full).countP fun e => !is_sentinel e) := by
  induction rest generalizing i j with
  | zero => rfl
  | succ rest ih =>
    have hi : i < s.items.length := by omega
    unfold count_elems_loop
    rw [item_of_lt hi]
    simp only [bind, Except.bind]
    rw [ih (by omega), List.drop_eq_getElem_cons hi, List.take_succ_cons, List.filter_cons]
    cases hf : full s.items[i] with
    | false =>
      have hnull : s.items[i].is_null = true := by simpa [full] using hf
      simp [hnull]
    | true =>
      have hnull : s.items[i].is_null = false := by simpa [full] using hf
      simp [hnull, List.countP_cons]
      omega

/-! ## The edges -/

/-- The edges in the array. -/
def edges (s : PCSR) : List Edge := (s.items.filter full).filter fun e => !is_sentinel e

theorem mem_edges : x ∈ edges s ↔ x ∈ edges_of s x.src := by
  unfold edges
  rw [List.mem_filter, mem_edges_of, Bool.not_eq_true']
  constructor
  · rintro ⟨hx, hs⟩
    exact ⟨hx, hs, rfl⟩
  · rintro ⟨hx, hs, -⟩
    exact ⟨hx, hs⟩

theorem edges_nodup (h : WellFormed s) : (edges s).Nodup := h.arranged.nodup.filter _

/-- What the readers of the regions see of them all: the edges, but for one in the last slot. -/
theorem visible_perm (h : WellFormed s) :
    ((List.range s.get_n).flatMap (seen s)).Perm
      ((edges s).filter fun x => s.items[s.N - 1]? ≠ some x) := by
  have hnodup : ((List.range s.get_n).flatMap (seen s)).Nodup := by
    rw [List.nodup_flatMap]
    constructor
    · intro u hu
      have hdests : ((seen s u).map Edge.dest).Nodup :=
        (seen_ascending h (List.mem_range.mp hu)).imp Nat.ne_of_lt
      exact hdests.of_map _
    · apply (List.nodup_range (n := s.get_n)).imp_of_mem
      intro a b ha hb hab x hxa hxb
      have hxa' := ((mem_seen h (List.mem_range.mp ha)).mp hxa).1
      have hxb' := ((mem_seen h (List.mem_range.mp hb)).mp hxb).1
      exact hab ((mem_edges_of.mp hxa').2.2.symm.trans (mem_edges_of.mp hxb').2.2)
  apply (List.perm_ext_iff_of_nodup hnodup ((edges_nodup h).filter _)).mpr
  intro x
  rw [List.mem_flatMap, List.mem_filter, mem_edges]
  constructor
  · rintro ⟨u, hu, hx⟩
    obtain ⟨hmem, hlast⟩ := (mem_seen h (List.mem_range.mp hu)).mp hx
    rw [(mem_edges_of.mp hmem).2.2]
    exact ⟨hmem, by simpa using hlast⟩
  · rintro ⟨hx, hlast⟩
    have hu : x.src < s.get_n := (h.arranged.items x (mem_edges_of.mp hx).1).src_lt
    exact ⟨x.src, List.mem_range.mpr hu, (mem_seen h hu).mpr ⟨hx, by simpa using hlast⟩⟩

/-- The loops over the regions count all edges, except for one in the last slot. -/
theorem visible_length (h : WellFormed s) :
    (EndFree s → ((List.range s.get_n).flatMap (seen s)).length = (edges s).length) ∧
      (¬ EndFree s → ((List.range s.get_n).flatMap (seen s)).length + 1 = (edges s).length) := by
  rw [(visible_perm h).length_eq]
  constructor
  · intro hfree
    rw [List.filter_eq_self.mpr]
    intro x hx
    obtain ⟨hmem, hs⟩ := List.mem_filter.mp hx
    simp only [ne_eq, decide_not, Bool.not_eq_true', decide_eq_false_iff_not]
    intro hlast
    rw [hfree x hlast (List.mem_filter.mp hmem).2] at hs
    cases hs
  · intro hedge
    unfold EndFree at hedge
    push Not at hedge
    obtain ⟨x, hlast, hf, hs⟩ := hedge
    have hx : x ∈ edges s := by
      refine List.mem_filter.mpr ⟨mem_filter_of_slot hlast hf, ?_⟩
      simpa using hs
    have herase : (edges s).filter (fun y => s.items[s.N - 1]? ≠ some y) = (edges s).erase x := by
      rw [(edges_nodup h).erase_eq_filter]
      apply List.filter_congr
      intro y _
      rw [hlast]
      by_cases hxy : y = x
      · simp [hxy]
      · simp [hxy, Ne.symm hxy]
    rw [herase, List.length_erase_of_mem hx]
    have hpos := List.length_pos_of_mem hx
    omega

/-- The edges, each with its two vertices. -/
theorem Holds.edges (h : Holds s m) (hw : WellFormed s) :
    ((packed_csr.edges s).map fun x => (x.src, x.dest)).Nodup ∧
      ∀ u v, (u, v) ∈ (packed_csr.edges s).map (fun x => (x.src, x.dest)) ↔ m u v ≠ none := by
  constructor
  · refine (edges_nodup hw).map_on fun x hx y hy hxy => ?_
    obtain ⟨hsrc, hdest⟩ := Prod.mk.inj hxy
    rw [mem_edges] at hx hy
    rw [← hsrc] at hy
    exact edges_of_inj hw hx hy hdest
  · intro u v
    rw [List.mem_map, ← h.exists_iff]
    constructor
    · rintro ⟨x, hx, hxy⟩
      obtain ⟨rfl, rfl⟩ := Prod.mk.inj hxy
      exact ⟨x, mem_edges.mp hx, rfl⟩
    · rintro ⟨x, hx, rfl⟩
      obtain rfl := (mem_edges_of.mp hx).2.2
      exact ⟨x, mem_edges.mpr hx, rfl⟩

end

/-! ## The law -/

end packed_csr
