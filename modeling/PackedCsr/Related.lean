-- Two partitioned graphs whose partitions are related, one by one: what the operations of the partitions
-- keep, the operations of the partitioned graphs keep, since both send each vertex the same way.
import PackedCsr.Partitions

namespace pppcsr

section

variable {σ τ : Type} {g : Graph σ} {g' : Graph τ} {R : σ → τ → Prop} {p : PPPCSR σ} {q : PPPCSR τ}

/-- The same vertices in each partition, and related partitions. -/
structure Related (R : σ → τ → Prop) (p : PPPCSR σ) (q : PPPCSR τ) : Prop where
  distribution : p.distribution = q.distribution
  domains : p.partitionsPerDomain = q.partitionsPerDomain
  partitions : List.Forall₂ R p.partitions q.partitions

/-! ## Lists -/

theorem forall₂_getElem? {xs : List σ} {ys : List τ} (h : List.Forall₂ R xs ys) (k : Nat) :
    (∃ x y, xs[k]? = some x ∧ ys[k]? = some y ∧ R x y) ∨ (xs[k]? = none ∧ ys[k]? = none) := by
  induction h generalizing k with
  | nil => exact .inr ⟨rfl, rfl⟩
  | cons hxy _ ih =>
    cases k with
    | zero => exact .inl ⟨_, _, rfl, rfl, hxy⟩
    | succ k => exact ih k

theorem forall₂_set {xs : List σ} {ys : List τ} (h : List.Forall₂ R xs ys) (k : Nat) {x : σ} {y : τ}
    (hxy : R x y) : List.Forall₂ R (xs.set k x) (ys.set k y) := by
  induction h generalizing k with
  | nil => exact .nil
  | cons hab hrest ih =>
    cases k with
    | zero => exact .cons hxy hrest
    | succ k => exact .cons hab (ih k)

/-! ## The constructor -/

theorem Related.new {init_n : Nat} (hnew : ∀ n ≤ init_n, R (g.new n) (g'.new n))
    (numDomain partitionsPerDomain : Nat) :
    Related R (PPPCSR.new g init_n numDomain partitionsPerDomain)
      (PPPCSR.new g' init_n numDomain partitionsPerDomain) := by
  let Same (b : PPPCSR.Build σ) (b' : PPPCSR.Build τ) : Prop := b.distribution = b'.distribution ∧
    b.partitionSize = b'.partitionSize ∧ b.partitionSize ≤ init_n ∧
    List.Forall₂ R b.partitions b'.partitions
  have hstep : ∀ i j b b', Same b b' → Same
      (PPPCSR.build_step g init_n numDomain partitionsPerDomain i b j)
      (PPPCSR.build_step g' init_n numDomain partitionsPerDomain i b' j) := by
    rintro i j b b' ⟨hdist, hsize, hle, hparts⟩
    unfold PPPCSR.build_step
    dsimp only
    rw [hdist, hsize]
    rw [hsize] at hle
    have hle' : (if i = numDomain - 1 ∧ j = partitionsPerDomain - 1 then
        init_n - (i * partitionsPerDomain + j) * b'.partitionSize else b'.partitionSize) ≤ init_n := by
      split
      · exact Nat.sub_le _ _
      · exact hle
    exact ⟨rfl, rfl, hle', List.rel_append hparts (.cons (hnew _ hle') .nil)⟩
  have hstart : Same ⟨[0], init_n / (numDomain * partitionsPerDomain), []⟩
      ⟨[0], init_n / (numDomain * partitionsPerDomain), []⟩ :=
    ⟨rfl, rfl, Nat.div_le_self _ _, .nil⟩
  obtain ⟨hdist, -, -, hparts⟩ := List.foldl_rel (l := List.range numDomain) (r := Same) hstart
    fun i _ b b' hb => List.foldl_rel (l := List.range partitionsPerDomain) (r := Same) hb
      fun j _ c c' hc => hstep i j c c' hc
  exact ⟨hdist, rfl, hparts⟩

/-! ## Calls -/

theorem Related.get_partiton (h : Related R p q) (u : Nat) : p.get_partiton u = q.get_partiton u := by
  unfold PPPCSR.get_partiton
  rw [h.distribution]

theorem Related.route (h : Related R p q) {u l : Nat} {t : τ} (hq : q.route u = some (t, l)) :
    ∃ s, p.route u = some (s, l) ∧ R s t := by
  unfold PPPCSR.route at hq ⊢
  dsimp only at hq ⊢
  rw [h.get_partiton, h.distribution]
  rcases forall₂_getElem? h.partitions (q.get_partiton u) with ⟨s, t', hs, ht', hst⟩ | ⟨-, hnone⟩
  · rw [ht'] at hq
    rw [hs]
    obtain ⟨start, hstart, hq⟩ : ∃ start, q.distribution[q.get_partiton u]? = some start ∧
        some (t', u - start) = some (t, l) := Option.bind_eq_some_iff.mp hq
    cases hq
    exact ⟨s, by rw [hstart]; rfl, hst⟩
  · rw [hnone] at hq
    cases hq

theorem Related.set (h : Related R p q) (k : Nat) {s : σ} {t : τ} (hst : R s t) :
    Related R { p with partitions := p.partitions.set k s } { q with partitions := q.partitions.set k t } :=
  ⟨h.distribution, h.domains, forall₂_set h.partitions k hst⟩

theorem Related.get_n (hn : ∀ s t, R s t → g.get_n s = g'.get_n t) (h : Related R p q) :
    p.get_n g = q.get_n g' := by
  have hfold : ∀ {xs : List σ} {ys : List τ}, List.Forall₂ R xs ys → ∀ a : Nat,
      xs.foldl (fun n part => n + g.get_n part) a = ys.foldl (fun n part => n + g'.get_n part) a := by
    intro xs ys hxy
    induction hxy with
    | nil => exact fun _ => rfl
    | cons hab _ ih =>
      intro a
      rw [List.foldl_cons, List.foldl_cons, hn _ _ hab, ih]
  exact hfold h.partitions 0

end

end pppcsr
