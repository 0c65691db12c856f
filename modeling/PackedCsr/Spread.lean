-- A redistribution keeps the items of its window in order and puts the
-- pointers of the moved sentinels right. It touches nothing else.
import PackedCsr.Layout

namespace packed_csr

/-! ## The slots of a window -/

section

variable {index len j k : Nat}

theorem spread_slot_ge (index k : Nat) (hj : 0 < j) (hle : j ≤ len) : index + k ≤ spread_slot index len j k := by
  unfold spread_slot
  have h : k ≤ k * len / j := (Nat.le_div_iff_mul_le hj).mpr (Nat.mul_le_mul_left k hle)
  omega

theorem spread_slot_lt_succ (index k : Nat) (hj : 0 < j) (hle : j ≤ len) :
    spread_slot index len j k < spread_slot index len j (k + 1) := by
  unfold spread_slot
  have h : k * len / j + 1 ≤ (k + 1) * len / j := by
    rw [Nat.succ_mul, ← Nat.add_div_right _ hj]
    exact Nat.div_le_div_right (Nat.add_le_add_left hle _)
  omega

theorem spread_slot_lt (index k : Nat) (hk : k < j) (hlen : 0 < len) : spread_slot index len j k < index + len := by
  unfold spread_slot
  have h : k * len / j < len := by
    apply Nat.div_lt_of_lt_mul
    exact Nat.mul_lt_mul_of_pos_right hk hlen
  omega

/-- In a window that is at most half full, the next slot is not the neighbour. -/
theorem spread_slot_apart (index k : Nat) (hj : 0 < j) (hle : j * 2 ≤ len) :
    spread_slot index len j k + 2 ≤ spread_slot index len j (k + 1) := by
  unfold spread_slot
  have h : k * len / j + 2 ≤ (k + 1) * len / j := by
    rw [Nat.succ_mul, Nat.le_div_iff_mul_le hj, Nat.add_mul]
    have := Nat.div_mul_le_self (k * len) j
    omega
  omega

/-- The last slot of a window is free, where the window is not full. -/
theorem spread_slot_lt_last (index : Nat) (hj : j + 1 < len) :
    spread_slot index len (j + 1) j < index + (len - 1) := by
  unfold spread_slot
  have h : j * len / (j + 1) < len - 1 := by
    apply Nat.div_lt_of_lt_mul
    obtain ⟨m, rfl⟩ : ∃ m, len = m + 1 := ⟨len - 1, by omega⟩
    rw [Nat.add_sub_cancel, Nat.mul_succ, Nat.succ_mul]
    omega
  omega

end

/-! ## The loops -/

theorem set_mid (A L : List Edge) (x y : Edge) : (A ++ x :: L).set A.length y = A ++ y :: L := by
  simp

theorem getD_mid (A L : List Edge) (x d : Edge) : (A ++ x :: L).getD A.length d = x := by
  simp

/-- `C` are the items that are packed, `J` what is left between them and the slots `R` that
are still to come. -/
theorem pack_loop_spec (A B R C J : List Edge) : ∃ J', (R.filter full).length + J'.length =
      J.length + R.length ∧
    pack_loop A.length R.length (A.length + C.length + J.length) C.length
        (A ++ (C ++ (J ++ (R ++ B)))) =
      (C.length + (R.filter full).length, A ++ (C ++ (R.filter full ++ (J' ++ B)))) := by
  induction R generalizing C J with
  | nil => exact ⟨J, by simp, by simp [pack_loop]⟩
  | cons r R ih =>
    have hread : (A ++ (C ++ (J ++ (r :: R ++ B)))).getD (A.length + C.length + J.length) null_edge = r := by
      simp [Nat.add_assoc]
    -- what lies between moves by one slot
    have hmove : ∃ J2, J2.length = J.length ∧
        (A ++ (C ++ (J ++ (r :: R ++ B)))).set (A.length + C.length) r =
          A ++ (C ++ (r :: (J2 ++ (R ++ B)))) := by
      cases J with
      | nil =>
        exact ⟨[], rfl, by simp⟩
      | cons x J1 =>
        exact ⟨J1 ++ [r], by simp, by simp⟩
    obtain ⟨J2, hlen, hset⟩ := hmove
    have hlook : (A ++ (C ++ (r :: (J2 ++ (R ++ B))))).getD (A.length + C.length) null_edge = r := by
      simp
    simp only [List.length_cons, pack_loop]
    rw [hread, hset, hlook]
    cases hr : r.is_null with
    | true =>
      have hf : full r = false := by simp [full, hr]
      obtain ⟨J', hlen', hih⟩ := ih C (r :: J2)
      refine ⟨J', ?_, ?_⟩
      · simp only [List.filter_cons, hf, List.length_cons] at hlen' ⊢
        simp only [Bool.false_eq_true, if_false]
        omega
      · simp only [List.length_cons, hlen, List.cons_append] at hih
        simp only [List.filter_cons, hf, if_true, Nat.add_zero, Bool.false_eq_true, if_false]
        rw [← hih]
        congr 1
    | false =>
      have hf : full r = true := by simp [full, hr]
      obtain ⟨J', hlen', hih⟩ := ih (C ++ [r]) J2
      refine ⟨J', ?_, ?_⟩
      · simp only [List.filter_cons, hf, if_true, List.length_cons]
        omega
      · simp only [List.length_append, List.length_singleton, List.append_assoc,
          List.singleton_append, hlen] at hih
        simp only [List.filter_cons, hf, if_true, List.length_cons, Bool.false_eq_true, if_false,
          List.cons_append]
        rw [show A.length + C.length + J.length + 1 = A.length + (C.length + 1) + J.length by omega,
          hih]
        congr 1
        omega

theorem clear_loop_spec (P J B : List Edge) :
    clear_loop J.length P.length (P ++ (J ++ B)) =
      P ++ (List.replicate J.length null_edge ++ B) := by
  induction J generalizing P with
  | nil => rfl
  | cons x J ih =>
    simp only [List.length_cons, clear_loop, List.cons_append]
    rw [set_mid]
    have h := ih (P ++ [null_edge])
    simp only [List.length_append, List.length_singleton, List.append_assoc,
      List.singleton_append] at h
    rw [h, List.replicate_succ, List.cons_append]

/-- No two neighbours are full. -/
def Apart (W : List Edge) : Prop :=
  ∀ (i : Nat) (a b : Edge), W[i]? = some a → W[i + 1]? = some b → full a = true → full b = false

theorem apart_holes {H : List Edge} (x : Edge) (h : ∀ e ∈ H, full e = false) : Apart (x :: H) := by
  intro i a b _ hb _
  exact h b (List.mem_of_getElem? hb)

/-- Holes behind keep the items apart. -/
theorem Apart.append_holes {W H : List Edge} (hW : Apart W) (h : ∀ e ∈ H, full e = false) :
    Apart (W ++ H) := by
  intro i a b ha hb hf
  rcases Nat.lt_or_ge (i + 1) W.length with hlt | hge
  · rw [List.getElem?_append_left (by omega)] at ha
    rw [List.getElem?_append_left hlt] at hb
    exact hW i a b ha hb hf
  · rw [List.getElem?_append_right hge] at hb
    exact h b (List.mem_of_getElem? hb)

/-- An item behind a hole, with holes behind it, is apart from the others. -/
theorem Apart.append_item {W H : List Edge} (x : Edge) (hW : Apart W)
    (hlast : ∀ e, W[W.length - 1]? = some e → full e = false) (h : ∀ e ∈ H, full e = false) :
    Apart (W ++ x :: H) := by
  intro i a b ha hb hf
  rcases Nat.lt_trichotomy (i + 1) W.length with hlt | heq | hgt
  · rw [List.getElem?_append_left (by omega)] at ha
    rw [List.getElem?_append_left hlt] at hb
    exact hW i a b ha hb hf
  · rw [List.getElem?_append_left (by omega), show i = W.length - 1 by omega] at ha
    rw [hlast a ha] at hf
    cases hf
  · obtain ⟨d, hd⟩ : ∃ d, i + 1 - W.length = d + 1 := ⟨i - W.length, by omega⟩
    rw [List.getElem?_append_right (by omega), hd, List.getElem?_cons_succ] at hb
    exact h b (List.mem_of_getElem? hb)

/-- All slots outside `[a, b)` are linked. -/
def LinkedOutside (s : PCSR) (a b : Nat) : Prop := ∀ i, ¬ (a ≤ i ∧ i < b) → LinkedAt s i

/-- One round of the third loop: the item behind `C` moves over the holes to its slot. -/
theorem swap_spec (A C H D : List Edge) (x : Edge) (m : Nat) (hm : m ≤ H.length)
    (hholes : ∀ h ∈ H, full h = false) :
    ∃ H1 H2, H1.length = m ∧ H2.length = H.length - m ∧ (∀ h ∈ H1 ++ H2, full h = false) ∧
      (let items := A ++ (C ++ (x :: (H ++ D)))
       (items.set (A.length + C.length)
          (items.getD (A.length + C.length + m) null_edge)).set (A.length + C.length + m) x) =
        A ++ (C ++ (H1 ++ (x :: (H2 ++ D)))) := by
  rcases m with _ | m
  · refine ⟨[], H, rfl, by simp, by simpa using hholes, ?_⟩
    have hget := getD_mid (A ++ C) (H ++ D) x null_edge
    have hset := set_mid (A ++ C) (H ++ D) x x
    simp only [List.append_assoc, List.length_append] at hget hset
    simp only [Nat.add_zero, hget, hset]
    rfl
  · -- the slot holds a hole, which goes where the item was
    have hsplit : H = H.take m ++ H[m] :: H.drop (m + 1) := by
      rw [List.cons_getElem_drop_succ, List.take_append_drop]
    have hmem : ∀ h ∈ H[m] :: H.take m ++ H.drop (m + 1), full h = false := by
      intro h hh
      apply hholes
      rw [hsplit]
      simp only [List.cons_append, List.mem_cons, List.mem_append] at hh ⊢
      tauto
    refine ⟨H[m] :: H.take m, H.drop (m + 1), by simp; omega, by simp, hmem, ?_⟩
    generalize hH1 : H.take m = H1 at *
    generalize hH2 : H.drop (m + 1) = H2 at *
    generalize hh : H[m] = h at *
    have hlen : H1.length = m := by rw [← hH1]; simp; omega
    rw [hsplit]
    have hget := getD_mid (A ++ (C ++ (x :: H1))) (H2 ++ D) h null_edge
    have hset1 := set_mid (A ++ C) (H1 ++ (h :: (H2 ++ D))) x h
    have hset2 := set_mid (A ++ (C ++ (h :: H1))) (H2 ++ D) h x
    simp only [List.append_assoc, List.length_append, List.length_cons, List.cons_append, hlen]
      at hget hset1 hset2 ⊢
    rw [show A.length + C.length + (m + 1) = A.length + (C.length + (m + 1)) by omega, hget, hset1,
      hset2]

theorem filter_holes {H : List Edge} (h : ∀ e ∈ H, full e = false) : H.filter full = [] := by
  rw [List.filter_eq_nil_iff]
  intro e he
  simp [h e he]

/-- The items `C` behind the first item `x0` move into the holes `H`; what lies behind stays. -/
theorem spread_loop_spec {index len j k : Nat} (hj : 0 < j) (hle : j ≤ len) {s : PCSR}
    {A C H D : List Edge} {x0 : Edge} (hitems : s.items = A ++ (x0 :: (C ++ (H ++ D))))
    (hA : A.length = index) (hC : C.length = k) (hholes : ∀ e ∈ H, full e = false)
    (hroom : spread_slot index len j k < index + k + 1 + H.length)
    (hn : s.get_n ≤ UINT32_MAX) (harr : Itemized s.get_n (s.items.filter full))
    (hCfull : ∀ e ∈ C, full e = true) (hlink : LinkedOutside s index (index + k + 1)) :
    ∃ s', spread_loop index len j k s = .ok s' ∧ SameFrame s s' ∧
      LinkedOutside s' index (index + 1) ∧
      (EndsAt s.nodes s.N ∨ sentinel (s.get_n - 1) ∈ C → EndsAt s'.nodes s'.N) ∧
      ∃ M, M.length = C.length + H.length ∧ s'.items = A ++ (x0 :: (M ++ D)) ∧
        M.filter full = C ∧ (j * 2 ≤ len → Apart (x0 :: M) ∧ ∀ (q : Nat) (e : Edge),
          spread_slot index len j k < index + q → (x0 :: M)[q]? = some e → full e = false) := by
  induction k generalizing s C H D with
  | zero =>
    obtain rfl := List.length_eq_zero_iff.mp hC
    refine ⟨s, rfl, SameFrame.refl s, hlink, ?_, H, by simp, by simpa using hitems, ?_, fun _ => ?_⟩
    · simp
    · exact filter_holes hholes
    · refine ⟨apart_holes x0 hholes, fun q e hq he => ?_⟩
      obtain ⟨q, rfl⟩ : ∃ r, q = r + 1 := ⟨q - 1, by simp [spread_slot] at hq; omega⟩
      exact hholes e (List.mem_of_getElem? (by simpa using he))
  | succ k ih =>
    obtain ⟨C, x, rfl⟩ : ∃ C' x, C = C' ++ [x] := by
      rcases List.eq_nil_or_concat C with rfl | ⟨C', x, rfl⟩
      · simp at hC
      · exact ⟨C', x, by simp⟩
    simp only [List.length_append, List.length_singleton, Nat.add_right_cancel_iff] at hC
    obtain ⟨m, hm⟩ : ∃ m, spread_slot index len j (k + 1) = index + (k + 1) + m :=
      ⟨_, (Nat.add_sub_cancel' (spread_slot_ge _ _ hj hle)).symm⟩
    have hsplit : s.items = A ++ ((x0 :: C) ++ (x :: (H ++ D))) := by
      rw [hitems]
      simp
    obtain ⟨H1, H2, h1, h2, hh, hswap⟩ := swap_spec A (x0 :: C) H D x m (by omega) hholes
    have hfrom : A.length + (x0 :: C).length = index + (k + 1) := by simp [hA, hC]
    rw [hfrom, ← hsplit] at hswap
    dsimp only at hswap
    generalize hs1 : ({ s with items := A ++ ((x0 :: C) ++ (H1 ++ (x :: (H2 ++ D)))) } : PCSR) = s1
    have hs1i : s1.items = A ++ ((x0 :: C) ++ (H1 ++ (x :: (H2 ++ D)))) := by rw [← hs1]
    have hs1n : s1.nodes = s.nodes := by rw [← hs1]
    have hs1N : s1.N = s.N := by rw [← hs1]
    have hfilter : s1.items.filter full = s.items.filter full := by
      have hH1 := filter_holes fun e he => hh e (List.mem_append_left _ he)
      have hH2 := filter_holes fun e he => hh e (List.mem_append_right _ he)
      have hH := filter_holes hholes
      have hx := hCfull x (by simp)
      rw [hs1i, hsplit]
      simp [List.filter_append, List.filter_cons, hH1, hH2, hH, hx]
    have hframe : SameFrame s s1 := by
      rw [← hs1]
      refine ⟨rfl, ?_, rfl, rfl, rfl⟩
      rw [hsplit]
      simp
      omega
    have hget_n : s1.get_n = s.get_n := hframe.nodes
    have hslot : s1.items[index + (k + 1) + m]? = some x := by
      have hlen : (A ++ (x0 :: C ++ H1)).length = index + (k + 1) + m := by
        simp [hA, hC, h1]
        omega
      have hcut : s1.items = (A ++ (x0 :: C ++ H1)) ++ (x :: (H2 ++ D)) := by
        rw [hs1i]
        simp
      rw [hcut, ← hlen, List.getElem?_append_right (le_refl _), Nat.sub_self]
      rfl
    have harr1 : Itemized s1.get_n (s1.items.filter full) := by
      rw [hfilter, hget_n]
      exact harr
    have hxitem : IsItem s1.get_n x := by
      rw [hget_n]
      apply harr.items
      rw [hsplit]
      simp [hCfull x (by simp)]
    obtain ⟨s2, hfix, hframe2, hitems2, hlink2, hkeep2, hends2⟩ :=
      fix_sentinel_spec (by rw [hget_n]; exact hn) hxitem hslot harr1.distinct
    have hget2 : s2.get_n = s.get_n := hframe2.nodes.trans hget_n
    -- every slot behind the packed items is linked now
    have hlinked : LinkedOutside s2 index (index + k + 1) := by
      intro i hi
      by_cases his : i = index + (k + 1) + m
      · subst his
        exact hlink2
      apply hkeep2
      intro v hv
      rw [hs1n]
      by_cases hik : i = index + (k + 1)
      · -- a hole stands where the item was
        have hmpos : 0 < H1.length := by omega
        rw [hs1i, hik, ← hfrom, List.getElem?_append_right (by simp),
          List.getElem?_append_right (by simp)] at hv
        rw [List.getElem?_append_left (by simpa using hmpos)] at hv
        have := hh _ (List.mem_append_left _ (List.mem_of_getElem? hv))
        simp at this
      · apply hlink i (by omega)
        rw [hs1i, ← hswap] at hv
        rwa [List.getElem?_set_ne (by omega), List.getElem?_set_ne (by omega)] at hv
    have hitems2' : s2.items = A ++ (x0 :: (C ++ (H1 ++ (x :: (H2 ++ D))))) := by
      rw [hitems2, hs1i]
      rfl
    obtain ⟨s3, hrun, hframe3, hlink3, hends3, M, hMlen, hMitems, hMfilter, hMapart⟩ :=
      ih hitems2' hC (fun e he => hh e (List.mem_append_left _ he))
        (by have := spread_slot_lt_succ index k hj hle; omega)
        (by rw [hget2]; exact hn) (by rw [hget2, hitems2, hfilter]; exact harr)
        (fun e he => hCfull e (by simp [he])) hlinked
    refine ⟨s3, ?_, (hframe.trans hframe2).trans hframe3, hlink3, ?_, M ++ (x :: H2), ?_, ?_, ?_, ?_⟩
    · unfold spread_loop
      dsimp only
      have hmoved : s.items.getD (index + (k + 1)) null_edge = x := by
        rw [hsplit, ← hfrom]
        simp
      rw [hm, hmoved, hswap, hs1, hfix]
      exact hrun
    · intro h
      apply hends3
      rw [hget2]
      rcases h with h | h
      · left
        apply hends2
        left
        rw [hs1n, hs1N]
        exact h
      · rcases List.mem_append.mp h with h | h
        · exact .inr h
        · left
          apply hends2
          right
          rw [hget_n]
          exact (List.mem_singleton.mp h).symm
    · simp
      omega
    · rw [hMitems]
      simp
    · have hH2 := filter_holes fun e he => hh e (List.mem_append_right _ he)
      simp [List.filter_append, hMfilter, hH2, hCfull x (by simp)]
    · intro hhalf
      obtain ⟨hapart, hbehind⟩ := hMapart hhalf
      have hH2 : ∀ e ∈ H2, full e = false := fun e he => hh e (List.mem_append_right _ he)
      have hstep := spread_slot_apart index k hj hhalf
      -- `x` stands behind the slot of the item before it, and not as its neighbour
      have hMx : (x0 :: M).length = k + 1 + m := by
        simp only [List.length_cons]
        omega
      refine ⟨?_, fun q e hq he => ?_⟩
      · have h := hapart.append_item x (fun e he => hbehind _ e (by omega) he) hH2
        simpa using h
      · rw [← List.cons_append, List.getElem?_append_right (by omega)] at he
        obtain ⟨d, hd⟩ : ∃ d, q - (x0 :: M).length = d + 1 := ⟨q - (x0 :: M).length - 1, by omega⟩
        rw [hd, List.getElem?_cons_succ] at he
        exact hH2 e (List.mem_of_getElem? he)

/-! ## The redistribution -/

/-- What a redistribution does to its window: the items stay, in order, the first item moves to
the front, and the last slot is free if any is. -/
structure Spread (W W' : List Edge) : Prop where
  length : W'.length = W.length
  items : W'.filter full = W.filter full
  front : W'.filter full ≠ [] → W'[0]? = (W'.filter full)[0]?
  back : (W'.filter full).length < W'.length → ∃ e, W'[W'.length - 1]? = some e ∧ full e = false
  apart : (W'.filter full).length * 2 ≤ W'.length → Apart W'

/-- The first two loops: the items of the window are at its front, and `g` holes behind. -/
theorem redistribute_packed {s : PCSR} {A W B : List Edge} (hitems : s.items = A ++ (W ++ B))
    (hpos : A.length ≠ 0 ∨ W.filter full ≠ []) :
    ∃ g s1, (W.filter full).length + g = W.length ∧ SameFrame s s1 ∧ s1.nodes = s.nodes ∧
      s1.items = A ++ (W.filter full ++ (List.replicate g null_edge ++ B)) ∧
      redistribute s A.length W.length = (do
        let s ← spread_loop A.length W.length (W.filter full).length ((W.filter full).length - 1) s1
        fix_sentinel s (s.items.getD A.length null_edge) A.length) := by
  obtain ⟨J, hlen, hpack⟩ := pack_loop_spec A B W [] []
  simp only [List.nil_append, List.length_nil, Nat.add_zero, Nat.zero_add] at hlen hpack
  have hJ : W.length - (W.filter full).length = J.length := by omega
  have hclear := clear_loop_spec (A ++ W.filter full) J B
  simp only [List.length_append, List.append_assoc] at hclear
  have hout : ¬ s.items.length < A.length + W.length := by
    rw [hitems]
    simp
  have hwindow : ¬ ((W.filter full).length = 0 ∧ A.length = 0) := by
    intro hc
    rcases hpos with h | h
    · exact h hc.2
    · exact h (List.length_eq_zero_iff.mp hc.1)
  refine ⟨J.length, { s with
    items := A ++ (W.filter full ++ (List.replicate J.length null_edge ++ B)) }, hlen, ?_, rfl, rfl, ?_⟩
  · refine ⟨rfl, ?_, rfl, rfl, rfl⟩
    rw [hitems]
    simp only [List.length_append, List.length_replicate]
    omega
  · unfold redistribute
    rw [if_neg hout, hitems]
    simp only [hpack, hJ, hclear]
    rw [if_neg hwindow]

/-- The holes behind the packed items, but for the last one of the window, which stays. -/
theorem holes_split (index len k g : Nat) (hlen : k + 1 + g = len) :
    ∃ H T, List.replicate g null_edge = H ++ T ∧ (∀ e ∈ H, full e = false) ∧
      ((T = [] ∧ g = 0) ∨ T = [null_edge]) ∧
      spread_slot index len (k + 1) k < index + k + 1 + H.length := by
  rcases g with _ | g
  · refine ⟨[], [], rfl, by simp, .inl ⟨rfl, rfl⟩, ?_⟩
    have := spread_slot_lt index k (Nat.lt_add_one k) (by omega : 0 < len)
    simp only [List.length_nil]
    omega
  · refine ⟨List.replicate g null_edge, [null_edge], List.replicate_succ', ?_, .inr rfl, ?_⟩
    · intro e he
      rw [List.eq_of_mem_replicate he]
      rfl
    · have := spread_slot_lt_last index (by omega : k + 1 < len)
      simp only [List.length_replicate]
      omega

theorem redistribute_spec {s : PCSR} {A W B : List Edge} (hitems : s.items = A ++ (W ++ B))
    (hpos : A.length ≠ 0 ∨ W.filter full ≠ []) (hW : W ≠ []) (hn : s.get_n ≤ UINT32_MAX)
    (harr : Itemized s.get_n (s.items.filter full))
    (hlink : LinkedOutside s A.length (A.length + W.length)) :
    ∃ s' W', redistribute s A.length W.length = .ok s' ∧ SameFrame s s' ∧
      s'.items = A ++ (W' ++ B) ∧ Spread W W' ∧ (∀ i, LinkedAt s' i) ∧
      (EndsAt s.nodes s.N ∨ sentinel (s.get_n - 1) ∈ W → EndsAt s'.nodes s'.N) := by
  obtain ⟨g, s1, hlen, hframe, hnodes, hitems1, hrun⟩ := redistribute_packed hitems hpos
  have hWpos : 0 < W.length := List.length_pos_of_ne_nil hW
  have hget_n : s1.get_n = s.get_n := hframe.nodes
  have hfilter : s1.items.filter full = s.items.filter full := by
    rw [hitems1, hitems]
    simp [List.filter_append]
  have hlink1 : LinkedOutside s1 A.length (A.length + W.length) := by
    intro i hi v hv
    rw [hnodes]
    apply hlink i hi
    rw [← hv, hitems1, hitems]
    have hlenC : (W.filter full ++ List.replicate g null_edge).length = W.length := by
      simpa using hlen
    rcases Nat.lt_or_ge i A.length with hlt | hge
    · rw [List.getElem?_append_left hlt, List.getElem?_append_left hlt]
    · rw [List.getElem?_append_right hge, List.getElem?_append_right hge,
        ← List.append_assoc (W.filter full), List.getElem?_append_right (by omega),
        List.getElem?_append_right (by omega), hlenC]
  rw [hrun]
  have hCfull : ∀ e ∈ W.filter full, full e = true := fun e he => (List.mem_filter.mp he).2
  have hmemW : ∀ e ∈ W, full e = true → e ∈ W.filter full :=
    fun e he hf => List.mem_filter.mpr ⟨he, hf⟩
  generalize hC : W.filter full = C at hlen hitems1 hCfull hpos hmemW
  clear hrun
  cases C with
  | nil =>
    -- no item moves, and there is no sentinel in the window
    obtain ⟨m, rfl⟩ : ∃ m, g = m + 1 := ⟨g - 1, by simp at hlen; omega⟩
    have hholes : ∀ i, A.length ≤ i → i < A.length + W.length → ∀ e, s1.items[i]? = some e →
        e = null_edge := by
      intro i h1 h2 e he
      rw [hitems1, List.getElem?_append_right h1, List.nil_append,
        List.getElem?_append_left (by simp at hlen ⊢; omega)] at he
      exact List.eq_of_mem_replicate (List.mem_of_getElem? he)
    refine ⟨s1, List.replicate (m + 1) null_edge, ?_, hframe, hitems1, ?_, ?_, ?_⟩
    · have hget : s1.items.getD A.length null_edge = null_edge := by
        rw [hitems1, List.replicate_succ]
        simp
      show fix_sentinel s1 (s1.items.getD A.length null_edge) A.length = .ok s1
      rw [hget]
      rfl
    · refine ⟨by simpa using hlen, by simp [hC], by simp, fun _ => ?_, fun _ => ?_⟩
      · exact ⟨null_edge, by simp, rfl⟩
      · apply apart_holes
        intro e he
        rw [List.eq_of_mem_replicate he]
        rfl
    · intro i
      by_cases hi : A.length ≤ i ∧ i < A.length + W.length
      · intro v hv
        have := congrArg full (hholes i hi.1 hi.2 _ hv)
        simp at this
      · exact hlink1 i hi
    · intro h
      rw [hnodes, hframe.N]
      rcases h with h | h
      · exact h
      · have := hmemW _ h (by simp)
        cases this
  | cons x0 C =>
    simp only [List.length_cons] at hlen
    obtain ⟨H, T, hHT, hholes, hT, hroom⟩ := holes_split A.length W.length C.length g (by omega)
    have hTlen : C.length + 1 + (H.length + T.length) = W.length := by
      rw [← hlen, ← List.length_append, ← hHT, List.length_replicate]
    have hitems1' : s1.items = A ++ (x0 :: (C ++ (H ++ (T ++ B)))) := by
      rw [hitems1, hHT]
      simp
    have hTfilter : T.filter full = [] := by
      rcases hT with ⟨rfl, -⟩ | rfl <;> simp
    have hlinked : LinkedOutside s1 A.length (A.length + C.length + 1) := by
      intro i hi
      by_cases hin : A.length ≤ i ∧ i < A.length + W.length
      · intro v hv
        rw [hitems1, List.getElem?_append_right hin.1, List.getElem?_append_right (by simp; omega),
          List.getElem?_append_left (by simp; omega)] at hv
        have := congrArg full (List.eq_of_mem_replicate (List.mem_of_getElem? hv))
        simp at this
      · exact hlink1 i hin
    have hx0 : full x0 = true := hCfull x0 (List.mem_cons_self ..)
    obtain ⟨s2, hloop, hframe2, hlink2, hends2, M, hMlen, hMitems, hMfilter, hMapart⟩ :=
      spread_loop_spec (Nat.succ_pos C.length) (by omega : C.length + 1 ≤ W.length) hitems1' rfl rfl
        hholes hroom (by rw [hget_n]; exact hn) (by rw [hget_n, hfilter]; exact harr)
        (fun e he => hCfull e (List.mem_cons_of_mem _ he)) hlinked
    have hfilter2 : s2.items.filter full = s.items.filter full := by
      rw [← hfilter, hMitems, hitems1']
      have hC' : C.filter full = C := List.filter_eq_self.mpr fun e he =>
        hCfull e (List.mem_cons_of_mem _ he)
      simp [List.filter_append, hMfilter, filter_holes hholes, hTfilter, hx0, hC']
    have hget2 : s2.get_n = s.get_n := hframe2.nodes.trans hget_n
    have hslot : s2.items[A.length]? = some x0 := by
      rw [hMitems]
      simp
    have harr2 : Itemized s2.get_n (s2.items.filter full) := by
      rw [hfilter2, hget2]
      exact harr
    have hx0item : IsItem s2.get_n x0 := harr2.slot_item hslot hx0
    obtain ⟨s3, hfix, hframe3, hitems3, hlink3, hkeep3, hends3⟩ :=
      fix_sentinel_spec (by rw [hget2]; exact hn) hx0item hslot harr2.distinct
    refine ⟨s3, x0 :: (M ++ T), ?_, (hframe.trans hframe2).trans hframe3, ?_, ?_, ?_, ?_⟩
    · show (spread_loop A.length W.length (C.length + 1) C.length s1 >>= fun s =>
        fix_sentinel s (s.items.getD A.length null_edge) A.length) = .ok s3
      rw [hloop]
      show fix_sentinel s2 (s2.items.getD A.length null_edge) A.length = .ok s3
      rw [List.getD_eq_getElem?_getD, hslot]
      exact hfix
    · rw [hitems3, hMitems]
      simp
    · have hitemsW : (x0 :: (M ++ T)).filter full = x0 :: C := by
        simp [List.filter_append, hMfilter, hTfilter, hx0]
      refine ⟨by simp; omega, by rw [hitemsW, hC], by rw [hitemsW]; simp, ?_, ?_⟩
      · rw [hitemsW]
        intro hlt
        rcases hT with ⟨rfl, hg⟩ | rfl
        · simp only [List.length_cons, List.append_nil, List.length_nil] at hlt hTlen
          omega
        · refine ⟨null_edge, ?_, rfl⟩
          simp
      · rw [hitemsW]
        intro hhalf
        have hTholes : ∀ e ∈ T, full e = false := by
          intro e he
          rcases hT with ⟨rfl, -⟩ | rfl
          · cases he
          · rw [List.mem_singleton.mp he]
            rfl
        simp only [List.length_cons, List.length_append] at hhalf
        exact (hMapart (by omega)).1.append_holes hTholes
    · intro i
      by_cases hi : i = A.length
      · rw [hi]
        exact hlink3
      · exact hkeep3 i (hlink2 i (by omega))
    · intro h
      apply hends3
      rw [hget2]
      rcases h with h | h
      · left
        apply hends2
        left
        rw [hnodes, hframe.N]
        exact h
      · rcases List.mem_cons.mp (hmemW _ h (by simp)) with h | h
        · exact .inr h.symm
        · left
          apply hends2
          right
          rw [hget_n]
          exact h

/-! ## Windows of any array

Whatever the array holds: a redistribution that returns has only moved entries in its window. -/

theorem set_inside (A W B : List Edge) (p : Nat) (x : Edge) (hp : p < W.length) :
    (A ++ (W ++ B)).set (A.length + p) x = A ++ (W.set p x ++ B) := by
  rw [List.set_append_right _ _ (by omega), Nat.add_sub_cancel_left, List.set_append_left _ _ hp]

theorem getD_inside (A W B : List Edge) (p : Nat) (d : Edge) (hp : p < W.length) :
    (A ++ (W ++ B)).getD (A.length + p) d = W[p] := by
  rw [List.getD_eq_getElem?_getD, List.getElem?_append_right (by omega), Nat.add_sub_cancel_left,
    List.getElem?_append_left hp, List.getElem?_eq_getElem hp]
  rfl

theorem spread_loop_perm {s s' : PCSR} {A W B : List Edge} {j k : Nat} (hk : k < j)
    (hj : j ≤ W.length) (hitems : s.items = A ++ (W ++ B))
    (h : spread_loop A.length W.length j k s = .ok s') :
    ∃ W', W'.Perm W ∧ s'.items = A ++ (W' ++ B) := by
  induction k generalizing s W with
  | zero =>
    cases h
    exact ⟨W, List.Perm.refl W, hitems⟩
  | succ k ih =>
    unfold spread_loop at h
    dsimp only at h
    obtain ⟨s1, hfix, h⟩ := bind_ok h
    obtain ⟨q, hq, hqlt⟩ : ∃ q, spread_slot A.length W.length j (k + 1) = A.length + q ∧
        q < W.length := by
      have hge := spread_slot_ge A.length (k + 1) (by omega) hj
      have hlt := spread_slot_lt A.length (k + 1) hk (show 0 < W.length by omega)
      exact ⟨spread_slot A.length W.length j (k + 1) - A.length, by omega, by omega⟩
    have hitems1 := fix_sentinel_items hfix
    have hswap := List.set_set_perm (i := k + 1) (j := q) (by omega) hqlt
    simp only [hitems, hq, getD_inside _ _ _ _ _ hqlt,
      getD_inside A W B (k + 1) null_edge (by omega), set_inside A W B (k + 1) _ (by omega)] at hitems1
    rw [set_inside A _ B q _ (by simpa using hqlt)] at hitems1
    have hlen : ((W.set (k + 1) W[q]).set q W[k + 1]).length = W.length := by simp
    rw [← hlen] at h
    obtain ⟨W', hW', hitems'⟩ := ih (by omega) (by rw [hlen]; exact hj) hitems1 h
    exact ⟨W', hW'.trans hswap, hitems'⟩

/-- What a redistribution that returns does to the counts, on any array. -/
structure Shuffled (s s' : PCSR) (index len : Nat) : Prop where
  outside : ∀ i, ¬ (index ≤ i ∧ i < index + len) → s'.items[i]? = s.items[i]?
  inside : filled s'.items index len = filled s.items index len

theorem Shuffled.filled {s s' : PCSR} {index len i l : Nat} (h : Shuffled s s' index len)
    (h1 : i ≤ index) (h2 : index + len ≤ i + l) : filled s'.items i l = filled s.items i l :=
  gapped.count_around h.outside h.inside h1 h2

/-- An array in three parts. -/
theorem cut_window {items : List Edge} {index len : Nat} (h : index + len ≤ items.length) :
    ∃ A W B, items = A ++ (W ++ B) ∧ A.length = index ∧ W.length = len := by
  refine ⟨items.take index, (items.drop index).take len, (items.drop index).drop len, ?_, ?_, ?_⟩
  · rw [List.take_append_drop, List.take_append_drop]
  · simp
    omega
  · simp
    omega

theorem filled_cut (A W B : List Edge) :
    packed_csr.filled (A ++ (W ++ B)) A.length W.length = W.countP full := by
  unfold packed_csr.filled
  rw [List.drop_left, List.take_left]
  rfl

/-- Two arrays that differ in a window of the same length and count. -/
theorem shuffled_of_cut {s s' : PCSR} {A W W' B : List Edge} (hitems : s.items = A ++ (W ++ B))
    (hitems' : s'.items = A ++ (W' ++ B)) (hlen : W'.length = W.length)
    (hcount : W'.countP full = W.countP full) : Shuffled s s' A.length W.length := by
  constructor
  · intro i hi
    rw [hitems', hitems]
    rcases Nat.lt_or_ge i A.length with hlt | hge
    · rw [List.getElem?_append_left hlt, List.getElem?_append_left hlt]
    · rw [List.getElem?_append_right hge, List.getElem?_append_right hge,
        List.getElem?_append_right (by omega), List.getElem?_append_right (by omega), hlen]
  · rw [hitems', ← hlen, filled_cut, hitems, hlen, filled_cut, hcount]

theorem redistribute_shuffled {s s' : PCSR} {index len : Nat}
    (h : redistribute s index len = .ok s') : Shuffled s s' index len := by
  have hin : index + len ≤ s.items.length := by
    by_contra hc
    unfold redistribute at h
    rw [if_pos (by omega)] at h
    cases h
  obtain ⟨A, W, B, hitems, rfl, rfl⟩ := cut_window hin
  have hpos : A.length ≠ 0 ∨ W.filter full ≠ [] := by
    by_contra hc
    push Not at hc
    obtain ⟨J, hlen, hpack⟩ := pack_loop_spec A B W [] []
    simp only [hc.2, hc.1, List.nil_append, List.length_nil, Nat.add_zero] at hpack
    unfold redistribute at h
    rw [if_neg (by omega), hitems, hc.1] at h
    simp [hpack] at h
  obtain ⟨g, s1, hlen, hframe, hnodes, hitems1, hrun⟩ := redistribute_packed hitems hpos
  rw [hrun] at h
  obtain ⟨s2, hloop, hfix⟩ := bind_ok h
  rw [← List.append_assoc (W.filter full)] at hitems1
  generalize hP : W.filter full ++ List.replicate g null_edge = P at hitems1
  have hPlen : P.length = W.length := by
    rw [← hP]
    simpa using hlen
  have hPcount : P.countP full = W.countP full := by
    rw [← hP, List.countP_append, List.countP_eq_length_filter, List.countP_eq_length_filter,
      List.countP_eq_length_filter, List.filter_filter]
    simp
  rw [← hPlen] at hloop
  have hperm : ∃ W', W'.Perm P ∧ s2.items = A ++ (W' ++ B) := by
    rcases Nat.eq_zero_or_pos (W.filter full).length with hz | hpos
    · rw [hz] at hloop
      cases hloop
      exact ⟨P, List.Perm.refl P, hitems1⟩
    · exact spread_loop_perm (by omega) (by omega) hitems1 hloop
  obtain ⟨W', hW', hitems2⟩ := hperm
  apply shuffled_of_cut hitems (by rw [fix_sentinel_items hfix, hitems2])
  · rw [hW'.length_eq, hPlen]
  · rw [hW'.countP_eq, hPcount]

/-! ## Windows of a well-formed array -/

theorem isGap_iff {s : PCSR} {i : Nat} : IsGap s i ↔ ∃ e, s.items[i]? = some e ∧ full e = false := by
  simp [IsGap, full]

theorem filled_eq (items : List Edge) (i len : Nat) :
    filled items i len = gapped.count full items i len := rfl

/-- What a redistribution of the window of length `len` at `index` does to the array. -/
structure Redistributed (s s' : PCSR) (index len : Nat) : Prop extends Shuffled s s' index len where
  frame : SameFrame s s'
  contents : s'.items.filter full = s.items.filter full
  back : filled s.items index len < len → IsGap s' (index + len - 1)

/-- A well-formed array but for the slots from `a` to `b - 1`: the node table need not know
a sentinel that stands there. -/
structure Loose (s : PCSR) (a b : Nat) : Prop where
  sized : Sized s
  n_pos : 0 < s.get_n
  n_le : s.get_n ≤ UINT32_MAX
  arranged : Arranged s.get_n (s.items.filter full)
  first : s.items[0]? = some (sentinel 0)
  linked : LinkedOutside s a b
  ends : EndsAt s.nodes s.N ∨ ∃ i, a ≤ i ∧ i < b ∧ s.items[i]? = some (sentinel (s.get_n - 1))

theorem WellFormed.loose {s : PCSR} (h : WellFormed s) (a b : Nat) : Loose s a b :=
  ⟨h.sized, h.n_pos, h.n_le, h.arranged, h.first, fun i _ => h.linked i, .inl h.ends⟩

/-- A redistribution of those slots makes the array well formed. -/
theorem redistribute_loose {s : PCSR} {index len : Nat} (h : Loose s index (index + len))
    (hlen : 0 < len) (hin : index + len ≤ s.N) :
    ∃ s', redistribute s index len = .ok s' ∧ WellFormed s' ∧ Redistributed s s' index len := by
  obtain ⟨A, W, B, hitems, rfl, rfl⟩ := cut_window (by rw [h.sized.items]; exact hin)
  have hfront : A = [] → W[0]? = some (sentinel 0) := by
    rintro rfl
    have hfirst := h.first
    rw [hitems, List.nil_append, List.getElem?_append_left hlen] at hfirst
    exact hfirst
  have hpos : A.length ≠ 0 ∨ W.filter full ≠ [] := by
    rcases A with _ | ⟨a, A⟩
    · right
      intro hnil
      have hmem : sentinel 0 ∈ W.filter full :=
        List.mem_filter.mpr ⟨List.mem_of_getElem? (hfront rfl), full_sentinel 0⟩
      rw [hnil] at hmem
      cases hmem
    · left
      simp
  obtain ⟨s', W', hrun, hframe, hitems', hspread, hlink, hends⟩ :=
    redistribute_spec hitems hpos (List.length_pos_iff.mp hlen) h.n_le h.arranged.itemized h.linked
  have hends' : EndsAt s'.nodes s'.N := by
    apply hends
    rcases h.ends with hend | ⟨i, hi, hi', hlast⟩
    · exact .inl hend
    · right
      rw [hitems, List.getElem?_append_right hi, List.getElem?_append_left (by omega)] at hlast
      exact List.mem_of_getElem? hlast
  have hcontents : s'.items.filter full = s.items.filter full := by
    rw [hitems', hitems]
    simp [List.filter_append, hspread.items]
  refine ⟨s', hrun, ?_, redistribute_shuffled hrun, hframe, hcontents, ?_⟩
  · refine ⟨⟨?_, ?_, ?_⟩, ?_, ?_, ?_, ?_, hlink, hends'⟩
    · rw [hframe.N]
      exact h.sized.pow
    · rw [hframe.items, hframe.N]
      exact h.sized.items
    · rw [hframe.versions, hframe.N]
      exact h.sized.versions
    · rw [hframe.get_n]
      exact h.n_pos
    · rw [hframe.get_n]
      exact h.n_le
    · rw [hcontents, hframe.get_n]
      exact h.arranged
    · rcases A with _ | ⟨a, A⟩
      · -- the first item of the window stays at its front
        have hW0 := hfront rfl
        obtain ⟨W1, rfl⟩ : ∃ W1, W = sentinel 0 :: W1 := by
          cases W with
          | nil => cases hW0
          | cons w W1 =>
            simp only [List.getElem?_cons_zero, Option.some.injEq] at hW0
            exact ⟨W1, by rw [hW0]⟩
        have hhead := hspread.front (by rw [hspread.items]; simp)
        rw [hspread.items] at hhead
        rw [hitems', List.nil_append, List.getElem?_append_left (by rw [hspread.length]; exact hlen),
          hhead]
        simp
      · have hfirst := h.first
        rw [hitems] at hfirst
        rw [hitems']
        simpa using hfirst
  · intro hlt
    rw [hitems, filled_cut, List.countP_eq_length_filter, ← hspread.items] at hlt
    obtain ⟨e, he, hf⟩ := hspread.back (by rw [hspread.length]; exact hlt)
    rw [isGap_iff]
    refine ⟨e, ?_, hf⟩
    rw [hspread.length] at he
    rw [hitems', List.getElem?_append_right (by omega),
      List.getElem?_append_left (by rw [hspread.length]; omega), ← he]
    congr 1
    omega

theorem redistribute_well_formed {s : PCSR} {index len : Nat} (h : WellFormed s) (hlen : 0 < len)
    (hin : index + len ≤ s.N) :
    ∃ s', redistribute s index len = .ok s' ∧ WellFormed s' ∧ Redistributed s s' index len :=
  redistribute_loose (h.loose index (index + len)) hlen hin

end packed_csr
