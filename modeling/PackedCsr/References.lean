-- The runs of one thread against the finite map that the same calls build.
import PackedCsr.Readers

namespace packed_csr

open effects

/-! ## The map -/

/-- What a call does to a map from edges to values. -/
def Call.set (m : Nat → Nat → Option Nat) : Call → Nat → Nat → Option Nat
  | .add_edge src dest value => fun u v => if u = src ∧ v = dest then some value else m u v
  | .remove_edge src dest => fun u v => if u = src ∧ v = dest then none else m u v

/-- The states that one thread reaches, each with the map that the same calls build. -/
inductive Builds (n : Nat) (lock_bsearch : Bool) (ok : PCSR → Call → Prop) :
    PCSR → (Nat → Nat → Option Nat) → Prop
  | start : Builds n lock_bsearch ok (new_pcsr n n lock_bsearch) fun _ _ => none
  | call {s s' : PCSR} {m : Nat → Nat → Option Nat} (c : Call) (h : Builds n lock_bsearch ok s m)
      (hc : c.Valid n) (hok : ok s c) (hr : Returns s c s') : Builds n lock_bsearch ok s' (c.set m)

/-- The array stores the edges of the map. -/
def Holds (s : PCSR) (m : Nat → Nat → Option Nat) : Prop :=
  ∀ u v w, m u v = some w ↔ (⟨u, v, w⟩ : Edge) ∈ edges_of s u

/-- The map of the edges that stand in the array. -/
def map_of (s : PCSR) (u v : Nat) : Option Nat :=
  ((edges_of s u).find? fun x => x.dest = v).map Edge.value

/-- A call that ends: it is no removal that calls itself for ever. -/
def Call.Ends (s : PCSR) : Call → Prop
  | .add_edge _ _ _ => True
  | .remove_edge src dest => ¬ EndsBefore s ⟨src, dest, 1⟩

section

variable {n : Nat} {lock_bsearch : Bool} {ok : PCSR → Call → Prop} {s s' : PCSR}
  {m : Nat → Nat → Option Nat} {e x y : Edge} {u v w : Nat}

theorem Reaches.builds (h : Reaches n lock_bsearch ok s) : ∃ m, Builds n lock_bsearch ok s m := by
  induction h with
  | start => exact ⟨_, .start⟩
  | call c _ hc hok hr ih =>
    obtain ⟨m, hm⟩ := ih
    exact ⟨_, hm.call c hc hok hr⟩

/-! ## One call -/

theorem before_apart (hx : is_sentinel x = false) (he : is_sentinel e = false)
    (h : Before x e ∨ Before e x) : ¬ (x.src = e.src ∧ x.dest = e.dest) := by
  rintro ⟨hsrc, hdest⟩
  rcases h with h | h
  · have := (before_edges hx he hsrc).mp h
    omega
  · have := (before_edges he hx hsrc.symm).mp h
    omega

theorem Added.mem {c c' : List Edge} (h : Added e c c') (he : is_sentinel e = false)
    (hy : is_sentinel y = false) :
    y ∈ c' ↔ y = e ∨ (y ∈ c ∧ ¬ (y.src = e.src ∧ y.dest = e.dest)) := by
  obtain ⟨X, Y, hc', hX, hY, hc⟩ := h
  have hold : y ∈ X ∨ y ∈ Y ↔ y ∈ c ∧ ¬ (y.src = e.src ∧ y.dest = e.dest) := by
    have hapart : y ∈ X ∨ y ∈ Y → ¬ (y.src = e.src ∧ y.dest = e.dest) := by
      rintro (hmem | hmem)
      · exact before_apart hy he (.inl (hX y hmem))
      · exact before_apart hy he (.inr (hY y hmem))
    rcases hc with hc | ⟨x, -, hsrc, hdest, hc⟩
    · rw [hc, List.mem_append]
      exact ⟨fun hmem => ⟨hmem, hapart hmem⟩, fun hmem => hmem.1⟩
    · rw [hc, List.mem_append, List.mem_cons]
      constructor
      · intro hmem
        refine ⟨?_, hapart hmem⟩
        rcases hmem with hmem | hmem
        · exact .inl hmem
        · exact .inr (.inr hmem)
      · rintro ⟨hmem | rfl | hmem, hne⟩
        · exact .inl hmem
        · exact absurd ⟨hsrc, hdest⟩ hne
        · exact .inr hmem
  rw [hc', List.mem_append, List.mem_cons, ← hold]
  constructor
  · rintro (hmem | rfl | hmem)
    · exact .inr (.inl hmem)
    · exact .inl rfl
    · exact .inr (.inr hmem)
  · rintro (rfl | hmem | hmem)
    · exact .inr (.inl rfl)
    · exact .inl hmem
    · exact .inr (.inr hmem)

/-- An edge goes out, if it was there. -/
def Erased (e : Edge) (c c' : List Edge) : Prop :=
  ∀ y, is_sentinel y = false → (y ∈ c' ↔ y ∈ c ∧ ¬ (y.src = e.src ∧ y.dest = e.dest))

theorem erased_absent (hno : ∀ p, ¬ Stores s e p) : Erased e (s.items.filter full) (s.items.filter full) := by
  intro y hy
  constructor
  · intro hmem
    refine ⟨hmem, fun hsame => ?_⟩
    obtain ⟨q, -, hq⟩ := stores_of_mem hmem hy hsame.1 hsame.2
    exact hno q hq
  · exact fun hmem => hmem.1

theorem erased_stored {p : Nat} (hw : WellFormed s) (he : is_sentinel e = false) (hst : Stores s e p)
    (hx : s.items[p]? = some x) : Erased e (s.items.filter full) ((s.items.filter full).erase x) := by
  intro y hy
  obtain ⟨x', hx', hf, hs, hsrc, hdest⟩ := id hst
  cases hx.symm.trans hx'
  have hnodup : (s.items.filter full).Nodup := hw.arranged.sorted.imp before_ne
  rw [hnodup.mem_erase_iff]
  constructor
  · rintro ⟨hne, hmem⟩
    refine ⟨hmem, fun hsame => hne ?_⟩
    obtain ⟨q, hq, hst'⟩ := stores_of_mem hmem hy hsame.1 hsame.2
    obtain rfl := (hst.place hw he).stores he hst'
    exact Option.some.inj (hq.symm.trans hx)
  · rintro ⟨hmem, hne⟩
    refine ⟨?_, hmem⟩
    rintro rfl
    exact hne ⟨hsrc, hdest⟩

theorem Shrinks.erased (h : Shrinks s s' e) (hw : WellFormed s) (he : is_sentinel e = false) :
    Erased e (s.items.filter full) (s'.items.filter full) := by
  by_cases hst : ∃ p, Stores s e p
  · obtain ⟨p, hst⟩ := hst
    obtain ⟨x, hx, -⟩ := id hst
    rw [h.contents p x hst hx]
    exact erased_stored hw he hst hx
  · have hno : ∀ p, ¬ Stores s e p := fun p hp => hst ⟨p, hp⟩
    rw [(h.absent hno).1]
    exact erased_absent hno

theorem holds_iff : Holds s m ↔ ∀ u v w, m u v = some w ↔
    (⟨u, v, w⟩ : Edge) ∈ s.items.filter full ∧ is_sentinel ⟨u, v, w⟩ = false := by
  unfold Holds
  simp only [mem_edges_of, and_true]

/-- The map of an array into which an edge has come. -/
theorem Holds.added {src dest value : Nat} (h : Holds s m) (he : is_sentinel ⟨src, dest, value⟩ = false)
    (hadd : Added ⟨src, dest, value⟩ (s.items.filter full) (s'.items.filter full)) :
    Holds s' ((Call.add_edge src dest value).set m) := by
  rw [holds_iff] at h ⊢
  intro u v w
  unfold Call.set
  by_cases hsame : u = src ∧ v = dest
  · obtain ⟨rfl, rfl⟩ := hsame
    simp only [and_self, if_true, Option.some.injEq]
    constructor
    · rintro rfl
      exact ⟨(hadd.mem he he).mpr (.inl rfl), he⟩
    · rintro ⟨hmem, hs⟩
      rcases (hadd.mem he hs).mp hmem with heq | ⟨-, hne⟩
      · exact (congrArg Edge.value heq).symm
      · exact absurd ⟨rfl, rfl⟩ hne
  · simp only [if_neg hsame]
    rw [h u v w]
    apply and_congr_left
    intro hs
    rw [hadd.mem he hs]
    constructor
    · exact fun hmem => .inr ⟨hmem, hsame⟩
    · rintro (heq | ⟨hmem, -⟩)
      · exact absurd ⟨congrArg Edge.src heq, congrArg Edge.dest heq⟩ hsame
      · exact hmem

/-- The map of an array from which an edge has gone. -/
theorem Holds.removed {src dest : Nat} (h : Holds s m)
    (hrem : Erased ⟨src, dest, 1⟩ (s.items.filter full) (s'.items.filter full)) :
    Holds s' ((Call.remove_edge src dest).set m) := by
  rw [holds_iff] at h ⊢
  intro u v w
  unfold Call.set
  by_cases hsame : u = src ∧ v = dest
  · simp only [if_pos hsame]
    constructor
    · intro hnone
      cases hnone
    · rintro ⟨hmem, hs⟩
      exact absurd hsame ((hrem _ hs).mp hmem).2
  · simp only [if_neg hsame]
    rw [h u v w]
    apply and_congr_left
    intro hs
    rw [hrem _ hs]
    exact ⟨fun hmem => ⟨hmem, hsame⟩, fun hmem => hmem.1⟩

theorem Holds.call {c : Call} (h : Holds s m) (hg : Good s) (hc : c.Valid s.get_n) (hdoes : c.Does s s') :
    Holds s' (c.set m) := by
  have he := hc.is_edge.not_sentinel
  cases c with
  | add_edge src dest value => exact h.added he (Grows.contents hdoes)
  | remove_edge src dest => exact h.removed (Shrinks.erased hdoes hg.wf he)

theorem new_pcsr_holds (lock_bsearch : Bool) (hn : 0 < n) :
    Holds (new_pcsr n n lock_bsearch) fun _ _ => none := by
  rw [holds_iff]
  intro u v w
  constructor
  · intro hnone
    cases hnone
  · rintro ⟨hmem, hs⟩
    rw [new_pcsr_contents lock_bsearch hn] at hmem
    obtain ⟨k, -, hk⟩ := List.mem_map.mp hmem
    rw [← hk, is_sentinel_sentinel] at hs
    cases hs

theorem builds_holds (hn : 0 < n) (hle : n ≤ UINT32_MAX) (hok : ∀ s c, ok s c → c.Fits s)
    (h : Builds n lock_bsearch ok s m) : (Good s ∧ s.get_n = n) ∧ Holds s m := by
  induction h with
  | start =>
    exact ⟨⟨new_pcsr_good lock_bsearch hn hle, new_pcsr_get_n n lock_bsearch⟩,
      new_pcsr_holds lock_bsearch hn⟩
  | call c _ hc hfit hr ih =>
    obtain ⟨⟨hg, hget⟩, hholds⟩ := ih
    rw [← hget] at hc
    have hdoes := hg.call hc (hok _ c hfit) hr
    exact ⟨⟨hdoes.kept.1, hdoes.kept.2.1.trans hget⟩, hholds.call hg hc hdoes⟩

/-- A call that fits and ends returns at once. -/
theorem call_returns {c : Call} (hg : Good s) (hc : c.Valid s.get_n) (hfit : c.Fits s) (hends : c.Ends s) :
    ∃ s', exec (c.prog 1) s = .ok ((), s') := by
  have he := hc.is_edge
  cases c with
  | add_edge src dest value =>
    obtain ⟨s', hrun, -⟩ := add_edge_grows hg he hfit
    exact ⟨s', hrun⟩
  | remove_edge src dest =>
    obtain ⟨s', hrun, -⟩ := remove_edge_shrinks hg he (by
      intro q _ hpast
      exact hends hpast.ends_before)
    exact ⟨s', hrun 0⟩

/-! ## The readers -/

theorem edges_of_item (h : WellFormed s) (hx : x ∈ edges_of s u) : IsEdge s.get_n x := by
  obtain ⟨hmem, hs, -⟩ := mem_edges_of.mp hx
  exact (h.arranged.items x hmem).edge hs

theorem edges_of_inj (h : WellFormed s) (hx : x ∈ edges_of s u) (hy : y ∈ edges_of s u)
    (hd : x.dest = y.dest) : x = y := by
  have hnodup : ((edges_of s u).map Edge.dest).Nodup := (edges_of_ascending h u).imp Nat.ne_of_lt
  exact List.inj_on_of_nodup_map hnodup hx hy hd

theorem holds_map_of (h : WellFormed s) : Holds s (map_of s) := by
  intro u v w
  unfold map_of
  rw [Option.map_eq_some_iff]
  constructor
  · rintro ⟨x, hx, rfl⟩
    have hmem := List.mem_of_find?_eq_some hx
    have hd : x.dest = v := by simpa using List.find?_some hx
    have hsrc := (mem_edges_of.mp hmem).2.2
    rw [← hd, ← hsrc]
    rw [← hsrc] at hmem
    exact hmem
  · intro hmem
    have hsome : ((edges_of s u).find? fun x => x.dest = v).isSome := by
      rw [List.find?_isSome]
      exact ⟨_, hmem, by simp⟩
    obtain ⟨y, hy⟩ := Option.isSome_iff_exists.mp hsome
    have hd : y.dest = v := by simpa using List.find?_some hy
    rw [edges_of_inj h (List.mem_of_find?_eq_some hy) hmem hd] at hy
    exact ⟨_, hy, rfl⟩

theorem Holds.mem (h : Holds s m) (hx : x ∈ edges_of s u) : m u x.dest = some x.value := by
  obtain ⟨-, -, rfl⟩ := mem_edges_of.mp hx
  exact (h _ _ _).mpr hx

theorem Holds.exists_iff (h : Holds s m) : (∃ x ∈ edges_of s u, x.dest = v) ↔ m u v ≠ none := by
  constructor
  · rintro ⟨x, hx, rfl⟩
    rw [h.mem hx]
    simp
  · intro hsome
    obtain ⟨w, hw⟩ := Option.ne_none_iff_exists'.mp hsome
    exact ⟨_, (h u v w).mp hw, rfl⟩

theorem Holds.mark (h : Holds s m) (hw : WellFormed s) : m u UINT32_MAX = none := by
  by_contra hsome
  obtain ⟨x, hx, hd⟩ := h.exists_iff.mpr hsome
  have := (edges_of_item hw hx).dest
  omega

theorem Holds.edge_exists (h : Holds s m) (hg : Good s) (hu : u < s.get_n) (hv : v ≤ UINT32_MAX) :
    edge_exists s u v = .ok (m u v).isSome := by
  rcases Nat.eq_or_lt_of_le hv with rfl | hlt
  · rw [edge_exists_mark hg.wf hu, h.mark hg.wf]
    rfl
  · obtain ⟨r, hrun, hr⟩ := edge_exists_iff hg.wf (.inl hg.end_full) hu hlt
    rw [h.exists_iff, ← Option.isSome_iff_ne_none, ← Bool.eq_iff_iff] at hr
    rw [hrun, hr]

theorem Holds.find_value (h : Holds s m) (hg : Good s) (hu : u < s.get_n) (hv : v < UINT32_MAX) :
    find_value s u v = .ok ((m u v).getD 0) := by
  obtain ⟨w, hrun, hsome, hnone⟩ := find_value_eq hg.wf (.inl hg.end_full) hu hv
  rw [hrun]
  cases hm : m u v with
  | none =>
    rw [hnone fun x hx hd => h.exists_iff.mp ⟨x, hx, hd⟩ hm]
    rfl
  | some w' =>
    rw [hsome _ ((h u v w').mp hm) rfl]
    rfl

theorem Holds.find_value_mark (h : Holds s m) (hg : Good s) (hu : u < s.get_n) :
    packed_csr.find_value s u UINT32_MAX = .ok ((m u UINT32_MAX).getD 0) ↔ Screened s u := by
  obtain ⟨w, hrun, hw⟩ := packed_csr.find_value_mark hg.wf hu
  rw [hrun, h.mark hg.wf, ← hw]
  constructor
  · intro heq
    exact Except.ok.inj heq
  · rintro rfl
    rfl

theorem Holds.get_neighbourhood (h : Holds s m) (hg : Good s) (hu : u < s.get_n) :
    (∃ l, get_neighbourhood s u = .ok l ∧ l.Pairwise (· < ·) ∧ ∀ v, v ∈ l ↔ m u v ≠ none) ↔
      (u + 1 = s.get_n → EndFree s) := by
  rw [get_neighbourhood_eq hg.wf hu, ← seen_all_iff hg.wf hu]
  have hsub : ∀ x ∈ seen s u, x ∈ edges_of s u := fun x hx => ((mem_seen hg.wf hu).mp hx).1
  constructor
  · rintro ⟨l, hl, -, hmem⟩ x hx
    obtain rfl := Except.ok.inj hl
    obtain ⟨y, hy, hd⟩ := List.mem_map.mp ((hmem x.dest).mpr (h.exists_iff.mp ⟨x, hx, rfl⟩))
    rw [← edges_of_inj hg.wf (hsub y hy) hx hd]
    exact hy
  · intro hall
    refine ⟨_, rfl, seen_ascending hg.wf hu, fun v => ?_⟩
    rw [← h.exists_iff, List.mem_map]
    constructor
    · rintro ⟨x, hx, hd⟩
      exact ⟨x, hsub x hx, hd⟩
    · rintro ⟨x, hx, hd⟩
      exact ⟨x, hall x hx, hd⟩

theorem mem_triples {l : List Nat} : (u, v, w) ∈ l.flatMap (fun u => (seen s u).map fun e => (u, e.dest, e.value)) ↔
    u ∈ l ∧ ∃ x ∈ seen s u, x.dest = v ∧ x.value = w := by
  rw [List.mem_flatMap]
  constructor
  · rintro ⟨u', hu', hmem⟩
    obtain ⟨x, hx, heq⟩ := List.mem_map.mp hmem
    cases heq
    exact ⟨hu', x, hx, rfl, rfl⟩
  · rintro ⟨hu, x, hx, rfl, rfl⟩
    exact ⟨u, hu, List.mem_map.mpr ⟨x, hx, rfl⟩⟩

theorem triples_nodup (h : WellFormed s) :
    ((List.range s.get_n).flatMap fun u => (seen s u).map fun e => (u, e.dest, e.value)).Nodup := by
  rw [List.nodup_flatMap]
  constructor
  · intro u hu
    have hnodup : ((seen s u).map Edge.dest).Nodup :=
      (seen_ascending h (List.mem_range.mp hu)).imp Nat.ne_of_lt
    apply List.Nodup.of_map (fun t : Nat × Nat × Nat => t.2.1)
    rw [List.map_map]
    exact hnodup
  · apply List.nodup_range.imp
    rintro a b hab ⟨u, v, w⟩ ha hb
    obtain ⟨x, -, hx⟩ := List.mem_map.mp ha
    obtain ⟨y, -, hy⟩ := List.mem_map.mp hb
    exact hab ((congrArg Prod.fst hx).trans (congrArg Prod.fst hy).symm)

theorem Holds.get_edges (h : Holds s m) (hg : Good s) :
    (∃ l, get_edges s = .ok l ∧ l.Nodup ∧ ∀ u v w, (u, v, w) ∈ l ↔ m u v = some w) ↔ EndFree s := by
  have hn := hg.wf.n_pos
  rw [get_edges_eq hg.wf]
  constructor
  · rintro ⟨l, hl, -, hmem⟩
    obtain rfl := Except.ok.inj hl
    have hall := (seen_all_iff hg.wf (show s.get_n - 1 < s.get_n by omega)).mp (by
      intro x hx
      obtain ⟨-, y, hy, hd, -⟩ := mem_triples.mp ((hmem _ _ _).mpr (h.mem hx))
      rw [← edges_of_inj hg.wf ((mem_seen hg.wf (by omega)).mp hy).1 hx hd]
      exact hy)
    exact hall (by omega)
  · intro hfree
    refine ⟨_, rfl, triples_nodup hg.wf, fun u v w => ?_⟩
    rw [mem_triples, List.mem_range]
    constructor
    · rintro ⟨hu, x, hx, rfl, rfl⟩
      exact h.mem ((mem_seen hg.wf hu).mp hx).1
    · intro hm
      have hx := (h u v w).mp hm
      have hu : u < s.get_n := (edges_of_item hg.wf hx).src
      exact ⟨hu, _, (seen_all_iff hg.wf hu).mpr (fun _ => hfree) _ hx, rfl, rfl⟩

end

/-! ## The law -/

end packed_csr
