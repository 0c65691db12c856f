-- The edge lists that the program reads: each line has a source, a target and, behind them, the mark
-- of an operation. The law: what is written so is read back, and no vertex that is read is larger than
-- the largest one that is reported.
import PackedCsr.Pools

namespace program

open thread_pool

/-! ## The reader -/

def INT_MAX : Int := 2147483647

def isspace (c : Char) : Bool := c.toNat = 32 || (9 ≤ c.toNat && c.toNat ≤ 13)

/-- `stoi`: blanks, a sign, and digits, as far as they go. Gives the number and the place behind it. It
throws where there are no digits, or where the number is no `int`. -/
def stoi (line : List Char) : Option (Int × Nat) :=
  let blanks := (line.takeWhile isspace).length
  let rest := line.drop blanks
  let sign := if rest.head? = some '-' ∨ rest.head? = some '+' then 1 else 0
  let digits := (rest.drop sign).takeWhile Char.isDigit
  let n : Int := Nat.ofDigitChars 10 digits 0
  let n := if rest.head? = some '-' then -n else n
  if digits = [] ∨ n < -INT_MAX - 1 ∨ INT_MAX < n then none
  else some (n, blanks + sign + digits.length)

/-- `getline` until the end of the file. The last line may lack its end. -/
def getlines : (line : List Char) → List Char → List (List Char)
  | line, [] => if line = [] then [] else [line]
  | line, c :: cs => if c = '\n' then line :: getlines [] cs else getlines (line ++ [c]) cs

/-- The operation that a line asks for. The source prints a message where the mark is another one. -/
def operation_of (mark : Option Char) (defaultOp : Operation) : Operation :=
  if mark = some '1' then .ADD else if mark = some '0' then .DELETE else defaultOp

/-- One round of the loop of `read_input`. `substr` throws behind the end of the line. -/
def read_line (defaultOp : Operation) (line : List Char) : Option (Operation × Int × Int) := do
  let (src, pos) ← stoi line
  if line.length < pos + 1 then none
  let (target, pos2) ← stoi (line.drop (pos + 1))
  return (operation_of (line.drop (pos + 1 + pos2 + 1)).head? defaultOp, src, target)

def read_lines (defaultOp : Operation) : List (List Char) → (num_nodes : Int) →
    Option (List (Operation × Int × Int) × Int)
  | [], num_nodes => some ([], num_nodes)
  | line :: lines, num_nodes => do
    let (op, src, target) ← read_line defaultOp line
    let (edges, num_nodes) ← read_lines defaultOp lines (max num_nodes (max src target))
    return ((op, src, target) :: edges, num_nodes)

/-- `read_input` on the text of a file: the operations, and the largest vertex. -/
def read_input (text : List Char) (defaultOp : Operation) : Option (List (Operation × Int × Int) × Int) :=
  read_lines defaultOp (getlines [] text) 0

/-! ## Written lines -/

/-- A line: two vertices with a separator between them, and what stands behind. -/
structure Entry where
  src : Nat
  target : Nat
  sep : Char
  tail : List Char
deriving DecidableEq, Repr

/-- The numbers are `int`s and end where they are meant to end, and the line is one line. -/
structure Entry.Valid (e : Entry) : Prop where
  src : (e.src : Int) ≤ INT_MAX
  target : (e.target : Int) ≤ INT_MAX
  sep : e.sep.isDigit = false
  tail : ∀ c ∈ e.tail.head?, c.isDigit = false
  one_line : '\n' ∉ e.sep :: e.tail

def Entry.text (e : Entry) : List Char :=
  Nat.toDigits 10 e.src ++ e.sep :: (Nat.toDigits 10 e.target ++ e.tail)

/-- The operation of a line: the character behind the second separator decides. -/
def Entry.operation (e : Entry) (defaultOp : Operation) : Operation × Int × Int :=
  (operation_of e.tail[1]? defaultOp, e.src, e.target)

/-- The text of a file. -/
def file (entries : List Entry) : List Char := entries.flatMap fun e => e.text ++ ['\n']

/-- The largest vertex, or 0. -/
def largest (entries : List Entry) : Nat := (entries.map fun e => max e.src e.target).foldr max 0

/-! ## Numbers -/

section

variable {n : Nat} {rest text : List Char}

theorem not_isspace_of_isDigit {c : Char} (h : c.isDigit = true) : isspace c = false := by
  unfold Char.isDigit at h
  unfold isspace
  simp only [Bool.and_eq_true, decide_eq_true_eq, UInt32.le_iff_toNat_le] at h
  have hc : c.val.toNat = c.toNat := rfl
  have hzero : '0'.val.toNat = 48 := rfl
  have hnine : '9'.val.toNat = 57 := rfl
  simp only [Bool.or_eq_false_iff, Bool.and_eq_false_iff, decide_eq_false_iff_not]
  omega

theorem takeWhile_of_head {p : Char → Bool} (h : ∀ c ∈ text.head?, p c = false) : text.takeWhile p = [] := by
  cases text with
  | nil => rfl
  | cons c cs => rw [List.takeWhile_cons_of_neg (by simp [h c rfl])]

theorem isDigit_toDigits {c : Char} (h : c ∈ Nat.toDigits 10 n) : c.isDigit = true :=
  Nat.isDigit_of_mem_toDigits (by decide) (by decide) h

/-- `stoi` reads the digits of a number back. -/
theorem stoi_toDigits (hn : (n : Int) ≤ INT_MAX) (hrest : ∀ c ∈ rest.head?, c.isDigit = false) :
    stoi (Nat.toDigits 10 n ++ rest) = some ((n : Int), (Nat.toDigits 10 n).length) := by
  obtain ⟨d, ds, hds⟩ := List.exists_cons_of_ne_nil (Nat.toDigits_ne_nil (n := n) (b := 10))
  have hd : d.isDigit = true := isDigit_toDigits (n := n) (by rw [hds]; exact List.mem_cons_self)
  have hblank : (Nat.toDigits 10 n ++ rest).takeWhile isspace = [] := by
    apply takeWhile_of_head
    rw [hds]
    intro c hc
    obtain rfl : d = c := Option.some.inj hc
    exact not_isspace_of_isDigit hd
  have hhead : (Nat.toDigits 10 n ++ rest).head? = some d := by rw [hds]; rfl
  have hminus : d ≠ '-' := by
    rintro rfl
    exact absurd hd (by decide)
  have hplus : d ≠ '+' := by
    rintro rfl
    exact absurd hd (by decide)
  have hdigits : (Nat.toDigits 10 n ++ rest).takeWhile Char.isDigit = Nat.toDigits 10 n := by
    rw [List.takeWhile_append_of_pos fun c hc => isDigit_toDigits hc, takeWhile_of_head hrest, List.append_nil]
  have hneg : ¬ (n : Int) < -INT_MAX - 1 := by unfold INT_MAX; omega
  unfold stoi
  simp only [hblank, List.length_nil, List.drop_zero, hhead, Option.some.injEq, hminus, hplus, or_self,
    if_false, hdigits, Nat.ofDigitChars_ten_toDigits, Nat.toDigits_ne_nil, hneg, Int.not_lt.mpr hn, Nat.zero_add]

end

/-! ## Lines -/

section

variable {e : Entry} {entries : List Entry} {defaultOp : Operation}

theorem Entry.Valid.no_newline (h : e.Valid) : '\n' ∉ e.text := by
  unfold Entry.text
  have hone := h.one_line
  simp only [List.mem_append, List.mem_cons, not_or] at hone ⊢
  have hdigits : ∀ n, '\n' ∉ Nat.toDigits 10 n := by
    intro n hmem
    exact absurd (isDigit_toDigits hmem) (by decide)
  exact ⟨hdigits _, hone.1, hdigits _, hone.2⟩

theorem read_line_text (h : e.Valid) (defaultOp : Operation) : read_line defaultOp e.text = some (e.operation defaultOp) := by
  have hsrc : stoi e.text = some ((e.src : Int), (Nat.toDigits 10 e.src).length) := by
    apply stoi_toDigits h.src
    intro c hc
    obtain rfl : e.sep = c := Option.some.inj hc
    exact h.sep
  have hdrop : e.text.drop ((Nat.toDigits 10 e.src).length + 1) = Nat.toDigits 10 e.target ++ e.tail := by
    unfold Entry.text
    rw [← List.drop_drop, List.drop_left]
    rfl
  have hlen : ¬ e.text.length < (Nat.toDigits 10 e.src).length + 1 := by
    unfold Entry.text
    simp only [List.length_append, List.length_cons]
    omega
  have hmark : (e.text.drop ((Nat.toDigits 10 e.src).length + 1 + (Nat.toDigits 10 e.target).length + 1)).head? =
      e.tail[1]? := by
    rw [Nat.add_assoc, ← List.drop_drop, hdrop, ← List.drop_drop, List.drop_left, List.head?_drop]
  unfold read_line
  simp only [hsrc, bind, Option.bind, hlen, if_false, hdrop, stoi_toDigits h.target h.tail, hmark]
  rfl

theorem getlines_line {line : List Char} (h : '\n' ∉ line) (acc cs : List Char) :
    getlines acc (line ++ '\n' :: cs) = (acc ++ line) :: getlines [] cs := by
  induction line generalizing acc with
  | nil => simp [getlines]
  | cons c line ih =>
    obtain ⟨hc, hline⟩ := not_or.mp (mt List.mem_cons.mpr h)
    rw [List.cons_append, getlines, if_neg (Ne.symm hc), ih hline, List.append_assoc]
    rfl

theorem getlines_file (h : ∀ e ∈ entries, e.Valid) : getlines [] (file entries) = entries.map Entry.text := by
  induction entries with
  | nil => rfl
  | cons e entries ih =>
    have hline := getlines_line (h e List.mem_cons_self).no_newline [] (file entries)
    rw [ih fun x hx => h x (List.mem_cons_of_mem e hx)] at hline
    rw [List.map_cons, ← List.nil_append e.text, ← hline]
    simp [file]

theorem read_lines_entries (h : ∀ e ∈ entries, e.Valid) (defaultOp : Operation) (n : Nat) :
    read_lines defaultOp (entries.map Entry.text) n =
      some (entries.map fun e => e.operation defaultOp, ((max n (largest entries) : Nat) : Int)) := by
  induction entries generalizing n with
  | nil => simp [read_lines, largest]
  | cons e entries ih =>
    have hline := read_line_text (h e List.mem_cons_self) defaultOp
    have hmax : max (n : Int) (max (e.src : Int) (e.target : Int)) = ((max n (max e.src e.target) : Nat) : Int) := by
      push_cast
      rfl
    rw [List.map_cons, read_lines, hline]
    unfold Entry.operation
    simp only [bind, Option.bind, hmax, ih (fun x hx => h x (List.mem_cons_of_mem e hx))]
    simp [largest, Entry.operation, max_assoc]

/-! ## What is accepted -/

theorem stoi_bounds {line : List Char} {n : Int} {pos : Nat} (h : stoi line = some (n, pos)) :
    -INT_MAX - 1 ≤ n ∧ n ≤ INT_MAX := by
  obtain ⟨hbad, h⟩ := Option.ite_none_left_eq_some.mp h
  obtain ⟨rfl, -⟩ := Prod.mk.inj (Option.some.inj h)
  push Not at hbad
  exact hbad.2

theorem operation_of_cases (mark : Option Char) (defaultOp : Operation) :
    operation_of mark defaultOp = .ADD ∨ operation_of mark defaultOp = .DELETE ∨
      operation_of mark defaultOp = defaultOp := by
  unfold operation_of
  split
  · exact .inl rfl
  split
  · exact .inr (.inl rfl)
  · exact .inr (.inr rfl)

/-- An operation that a file can ask for, with no vertex above `n`. -/
structure Accepted (defaultOp : Operation) (n : Int) (o : Operation × Int × Int) : Prop where
  op : o.1 = .ADD ∨ o.1 = .DELETE ∨ o.1 = defaultOp
  src : -INT_MAX - 1 ≤ o.2.1 ∧ o.2.1 ≤ n
  target : -INT_MAX - 1 ≤ o.2.2 ∧ o.2.2 ≤ n

theorem read_line_accepted {line : List Char} {o : Operation × Int × Int}
    (h : read_line defaultOp line = some o) :
    Accepted defaultOp (max o.2.1 o.2.2) o ∧ max o.2.1 o.2.2 ≤ INT_MAX := by
  unfold read_line at h
  obtain ⟨⟨src, pos⟩, hsrc, h⟩ := Option.bind_eq_some_iff.mp h
  dsimp only at h
  split at h
  · cases h
  obtain ⟨⟨target, pos2⟩, htarget, h⟩ := Option.bind_eq_some_iff.mp h
  cases h
  have hs := stoi_bounds hsrc
  have ht := stoi_bounds htarget
  exact ⟨⟨operation_of_cases _ _, ⟨hs.1, le_max_left _ _⟩, ⟨ht.1, le_max_right _ _⟩⟩, max_le hs.2 ht.2⟩

theorem read_lines_accepted {lines : List (List Char)} {edges : List (Operation × Int × Int)} {n n' : Int}
    (h : read_lines defaultOp lines n = some (edges, n')) :
    edges.length = lines.length ∧ n ≤ n' ∧ (n' = n ∨ n' ≤ INT_MAX ∧ ∃ o ∈ edges, n' = max o.2.1 o.2.2) ∧
      ∀ o ∈ edges, Accepted defaultOp n' o := by
  induction lines generalizing n edges with
  | nil =>
    cases h
    exact ⟨rfl, le_refl _, .inl rfl, fun o ho => absurd ho List.not_mem_nil⟩
  | cons line lines ih =>
    unfold read_lines at h
    obtain ⟨⟨op, src, target⟩, hline, h⟩ := Option.bind_eq_some_iff.mp h
    obtain ⟨⟨more, n1⟩, hmore, h⟩ := Option.bind_eq_some_iff.mp h
    cases h
    obtain ⟨hlen, hle, hmax, hall⟩ := ih hmore
    obtain ⟨hacc, hint⟩ := read_line_accepted hline
    have hnew : max src target ≤ n' := (le_max_right n _).trans hle
    refine ⟨congrArg (· + 1) hlen, (le_max_left n _).trans hle, ?_, ?_⟩
    · rcases hmax with heq | ⟨hint', o, ho, heq⟩
      · rcases max_choice n (max src target) with hn | hn
        · exact .inl (heq.trans hn)
        · exact .inr ⟨(heq.trans hn).trans_le hint, _, List.mem_cons_self, heq.trans hn⟩
      · exact .inr ⟨hint', o, List.mem_cons_of_mem _ ho, heq⟩
    · intro o ho
      rcases List.mem_cons.mp ho with rfl | ho
      · exact ⟨hacc.op, ⟨hacc.src.1, (le_max_left _ _).trans hnew⟩, hacc.target.1, (le_max_right _ _).trans hnew⟩
      · exact hall o ho

end

/-! ## The law -/

/-- What is written as an edge list is read back, line by line, and the number of the largest vertex with
it. And of any text that is read: there is one operation for each line, no vertex is larger than the number
that is reported, and that number is 0 or one of the vertices. -/
theorem a_written_file_is_read_back (defaultOp : Operation) :
    (∀ entries : List Entry, (∀ e ∈ entries, e.Valid) → read_input (file entries) defaultOp =
      some (entries.map fun e => e.operation defaultOp, (largest entries : Int))) ∧
    ∀ text edges n, read_input text defaultOp = some (edges, n) →
      edges.length = (getlines [] text).length ∧ 0 ≤ n ∧ n ≤ INT_MAX ∧
      (∀ o ∈ edges, Accepted defaultOp n o) ∧ (n = 0 ∨ ∃ o ∈ edges, n = o.2.1 ∨ n = o.2.2) := by
  constructor
  · intro entries h
    unfold read_input
    rw [getlines_file h]
    have hread := read_lines_entries h defaultOp 0
    rw [Nat.zero_max] at hread
    exact hread
  · intro text edges n h
    obtain ⟨hlen, hpos, hmax, hall⟩ := read_lines_accepted h
    refine ⟨hlen, hpos, ?_, hall, ?_⟩
    · rcases hmax with rfl | ⟨hint, -⟩
      · decide
      · exact hint
    · rcases hmax with rfl | ⟨-, o, ho, heq⟩
      · exact .inl rfl
      · right
        refine ⟨o, ho, ?_⟩
        rw [heq]
        exact max_choice _ _

/-- A line that asks for a removal, with a carriage return behind it. -/
theorem a_written_line_is_read_back :
    read_input (file [⟨3, 14, ' ', [' ', '0', '\r']⟩]) .ADD = some ([(.DELETE, 3, 14)], 14) := by
  refine ((a_written_file_is_read_back .ADD).1 _ fun e he => ?_).trans (by decide)
  rw [List.mem_singleton.mp he]
  exact ⟨by decide, by decide, by decide, by simp, by decide⟩

end program
