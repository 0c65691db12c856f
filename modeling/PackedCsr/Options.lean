-- The options of the program, read from left to right: a file is read with the options in front of it.
-- The law: whatever the arguments are, the lists that come out fit the graph that is made for them, and
-- the program ends with the edges that they ask for.
import PackedCsr.Program
import PackedCsr.Input

namespace program

open pppcsr thread_pool

/-! ## The reader -/

inductive Version
  | PPCSR
  | PPPCSR
  | PPPCSRNUMA
deriving DecidableEq, Repr

/-- The variables of `main`. -/
structure Options where
  threads : Int := 8
  size : Int := 1000000
  num_nodes : Int := 0
  lock_search : Bool := true
  insert : Bool := true
  v : Version := .PPPCSRNUMA
  partitions_per_domain : Int := 1
  core_graph : List (Operation × Int × Int) := []
  updates : List (Operation × Int × Int) := []
deriving DecidableEq, Repr

/-- `s.rfind(name, 0) == 0`. -/
def starts (name : String) (s : List Char) : Bool := name.toList.isPrefixOf s

/-- `s.substr(string(name).length(), s.length())`. -/
def value (name : String) (s : List Char) : List Char := s.drop name.length

/-- A `size_t` as an `int`. -/
def to_int (n : Nat) : Int := ((n : Int) + 2147483648) % 4294967296 - 2147483648

/-- One round of the loop over the arguments. `files` are the texts of the files that can be opened; the
program ends where one cannot, or where `stoi` throws. -/
def option (files : List Char → Option (List Char)) (o : Options) (s : List Char) : Option Options :=
  if starts "-threads=" s then do
    let (threads, _) ← stoi (value "-threads=" s)
    return { o with threads }
  else if starts "-size=" s then do
    let (size, _) ← stoi (value "-size=" s)
    return { o with size }
  else if starts "-lock_free" s then some { o with lock_search := false }
  else if starts "-insert" s then some { o with insert := true }
  else if starts "-delete" s then some { o with insert := false }
  else if starts "-pppcsrnuma" s then some { o with v := .PPPCSRNUMA }
  else if starts "-pppcsr" s then some { o with v := .PPPCSR }
  else if starts "-ppcsr" s then some { o with v := .PPCSR }
  else if starts "-partitions_per_domain=" s then do
    let (partitions_per_domain, _) ← stoi (value "-partitions_per_domain=" s)
    return { o with partitions_per_domain }
  else if starts "-core_graph=" s then do
    let (core_graph, temp) ← read_input (← files (value "-core_graph=" s)) .ADD
    return { o with core_graph, num_nodes := max o.num_nodes temp }
  else if starts "-update_file=" s then do
    let defaultOp := if o.insert then .ADD else .DELETE
    let (updates, temp) ← read_input (← files (value "-update_file=" s)) defaultOp
    -- a negative `size` is a large `size_t`
    let size := if o.size < 0 then updates.length else min o.size.toNat updates.length
    return { o with updates, num_nodes := max o.num_nodes temp, size := to_int size }
  else some o

def options (files : List Char → Option (List Char)) : List (List Char) → Options → Option Options
  | [], o => some o
  | s :: args, o => do options files args (← option files o s)

/-- `main` up to its call of `execute`. It leaves where a list of edges is empty. -/
def main (files : List Char → Option (List Char)) (args : List (List Char)) : Option Options := do
  let o ← options files args {}
  if o.core_graph = [] ∨ o.updates = [] then none
  return o

def Options.job (o : Options) : Job := ⟨o.core_graph, o.updates, o.num_nodes, o.size.toNat⟩

/-! ## One argument -/

section

variable {files : List Char → Option (List Char)} {o o' : Options} {s : List Char}

/-- A `-size` that no `-update_file` follows. -/
def LateSize (args : List (List Char)) (n : Int) : Prop :=
  ∃ front s back pos, args = front ++ s :: back ∧ starts "-size=" s = true ∧
    stoi (value "-size=" s) = some (n, pos) ∧ ∀ s' ∈ back, starts "-update_file=" s' = false

/-- An argument has one name. -/
theorem starts_one {a b : String} (h : starts a s = true)
    (hab : (a.toList.isPrefixOf b.toList || b.toList.isPrefixOf a.toList) = false) : starts b s = false := by
  rw [Bool.eq_false_iff]
  intro hb
  unfold starts at h hb
  rw [List.isPrefixOf_iff_prefix] at h hb
  rw [Bool.or_eq_false_iff] at hab
  rcases List.prefix_or_prefix_of_prefix h hb with hp | hp
  · rw [List.isPrefixOf_iff_prefix.mpr hp] at hab
    cases hab.1
  · rw [List.isPrefixOf_iff_prefix.mpr hp] at hab
    cases hab.2

theorem to_int_le (n : Nat) : to_int n ≤ n := by
  unfold to_int
  omega

/-- An argument that leaves the lists alone. -/
def Aside (o o' : Options) : Prop :=
  o'.core_graph = o.core_graph ∧ o'.updates = o.updates ∧ o'.num_nodes = o.num_nodes

/-- What one argument does to the lists. -/
theorem option_cases (h : option files o s = some o') :
    (starts "-update_file=" s = false ∧ Aside o o' ∧ (o'.size = o.size ∨
      starts "-size=" s = true ∧ ∃ pos, stoi (value "-size=" s) = some (o'.size, pos))) ∨
    (starts "-update_file=" s = false ∧ ∃ text n, read_input text .ADD = some (o'.core_graph, n) ∧
      o'.num_nodes = max o.num_nodes n ∧ o'.updates = o.updates ∧ o'.size = o.size) ∨
    ∃ text defaultOp n, defaultOp ≠ .READ ∧ read_input text defaultOp = some (o'.updates, n) ∧
      o'.num_nodes = max o.num_nodes n ∧ o'.core_graph = o.core_graph ∧ o'.size ≤ o'.updates.length := by
  unfold option at h
  by_cases h1 : starts "-threads=" s = true
  · rw [if_pos h1] at h
    obtain ⟨⟨threads, pos⟩, -, h⟩ := Option.bind_eq_some_iff.mp h
    cases h
    exact .inl ⟨starts_one h1 rfl, ⟨rfl, rfl, rfl⟩, .inl rfl⟩
  rw [if_neg h1] at h
  by_cases h2 : starts "-size=" s = true
  · rw [if_pos h2] at h
    obtain ⟨⟨size, pos⟩, hsize, h⟩ := Option.bind_eq_some_iff.mp h
    cases h
    exact .inl ⟨starts_one h2 rfl, ⟨rfl, rfl, rfl⟩, .inr ⟨h2, pos, hsize⟩⟩
  rw [if_neg h2] at h
  by_cases h3 : starts "-lock_free" s = true
  · rw [if_pos h3] at h
    cases h
    exact .inl ⟨starts_one h3 rfl, ⟨rfl, rfl, rfl⟩, .inl rfl⟩
  rw [if_neg h3] at h
  by_cases h4 : starts "-insert" s = true
  · rw [if_pos h4] at h
    cases h
    exact .inl ⟨starts_one h4 rfl, ⟨rfl, rfl, rfl⟩, .inl rfl⟩
  rw [if_neg h4] at h
  by_cases h5 : starts "-delete" s = true
  · rw [if_pos h5] at h
    cases h
    exact .inl ⟨starts_one h5 rfl, ⟨rfl, rfl, rfl⟩, .inl rfl⟩
  rw [if_neg h5] at h
  by_cases h6 : starts "-pppcsrnuma" s = true
  · rw [if_pos h6] at h
    cases h
    exact .inl ⟨starts_one h6 rfl, ⟨rfl, rfl, rfl⟩, .inl rfl⟩
  rw [if_neg h6] at h
  by_cases h7 : starts "-pppcsr" s = true
  · rw [if_pos h7] at h
    cases h
    exact .inl ⟨starts_one h7 rfl, ⟨rfl, rfl, rfl⟩, .inl rfl⟩
  rw [if_neg h7] at h
  by_cases h8 : starts "-ppcsr" s = true
  · rw [if_pos h8] at h
    cases h
    exact .inl ⟨starts_one h8 rfl, ⟨rfl, rfl, rfl⟩, .inl rfl⟩
  rw [if_neg h8] at h
  by_cases h9 : starts "-partitions_per_domain=" s = true
  · rw [if_pos h9] at h
    obtain ⟨⟨partitions_per_domain, pos⟩, -, h⟩ := Option.bind_eq_some_iff.mp h
    cases h
    exact .inl ⟨starts_one h9 rfl, ⟨rfl, rfl, rfl⟩, .inl rfl⟩
  rw [if_neg h9] at h
  by_cases h10 : starts "-core_graph=" s = true
  · rw [if_pos h10] at h
    obtain ⟨text, -, h⟩ := Option.bind_eq_some_iff.mp h
    obtain ⟨⟨core_graph, n⟩, hread, h⟩ := Option.bind_eq_some_iff.mp h
    cases h
    exact .inr (.inl ⟨starts_one h10 rfl, text, n, hread, rfl, rfl, rfl⟩)
  rw [if_neg h10] at h
  by_cases h11 : starts "-update_file=" s = true
  · rw [if_pos h11] at h
    obtain ⟨text, -, h⟩ := Option.bind_eq_some_iff.mp h
    obtain ⟨⟨updates, n⟩, hread, h⟩ := Option.bind_eq_some_iff.mp h
    cases h
    refine .inr (.inr ⟨text, _, n, ?_, hread, rfl, rfl, ?_⟩)
    · cases o.insert <;> decide
    · refine (to_int_le _).trans ?_
      dsimp only
      split <;> omega
  rw [if_neg h11] at h
  cases h
  exact .inl ⟨Bool.eq_false_iff.mpr h11, ⟨rfl, rfl, rfl⟩, .inl rfl⟩

/-! ## The loop -/

/-- An operation that the pools take, with no vertex above `n`. -/
def Within (n : Int) (x : Operation × Int × Int) : Prop := x.1 ≠ .READ ∧ x.2.1 ≤ n ∧ x.2.2 ≤ n

/-- The lists fit the graph that is made for them. -/
structure Fits (args : List (List Char)) (o : Options) : Prop where
  num_nodes : 0 ≤ o.num_nodes ∧ o.num_nodes ≤ INT_MAX
  core_graph : ∀ x ∈ o.core_graph, Within o.num_nodes x
  updates : ∀ x ∈ o.updates, Within o.num_nodes x
  size : o.updates = [] ∨ o.size ≤ o.updates.length ∨ LateSize args o.size

theorem read_input_within {text : List Char} {defaultOp : Operation} {edges : List (Operation × Int × Int)}
    {n : Int} (hop : defaultOp ≠ .READ) (h : read_input text defaultOp = some (edges, n)) :
    n ≤ INT_MAX ∧ ∀ x ∈ edges, Within n x := by
  obtain ⟨-, -, hmax, hall⟩ := read_lines_accepted h
  constructor
  · rcases hmax with rfl | ⟨hint, -⟩
    · decide
    · exact hint
  · intro x hx
    have hacc := hall x hx
    refine ⟨fun hread => ?_, hacc.src.2, hacc.target.2⟩
    rcases hacc.op with hop' | hop' | hop'
    · rw [hread] at hop'
      cases hop'
    · rw [hread] at hop'
      cases hop'
    · exact hop (hop'.symm.trans hread)

theorem Within.mono {n m : Int} {x : Operation × Int × Int} (h : Within n x) (hle : n ≤ m) : Within m x :=
  ⟨h.1, h.2.1.trans hle, h.2.2.trans hle⟩

theorem LateSize.append {args : List (List Char)} {n : Int} (h : LateSize args n)
    (hs : starts "-update_file=" s = false) : LateSize (args ++ [s]) n := by
  obtain ⟨front, t, back, pos, rfl, ht, hn, hback⟩ := h
  refine ⟨front, t, back ++ [s], pos, by simp, ht, hn, fun s' hs' => ?_⟩
  rcases List.mem_append.mp hs' with h' | h'
  · exact hback s' h'
  · rw [List.mem_singleton.mp h']
    exact hs

theorem option_fits {args : List (List Char)} (hf : Fits args o) (h : option files o s = some o') :
    Fits (args ++ [s]) o' := by
  rcases option_cases h with ⟨hs, ⟨hcore, hupdates, hn⟩, hsize⟩ |
    ⟨hs, text, n, hread, hn, hupdates, hsize⟩ | ⟨text, defaultOp, n, hop, hread, hn, hcore, hsize⟩
  · refine ⟨hn ▸ hf.num_nodes, ?_, ?_, ?_⟩
    · rw [hcore, hn]
      exact hf.core_graph
    · rw [hupdates, hn]
      exact hf.updates
    · rcases hsize with hsize | ⟨hname, pos, hvalue⟩
      · rw [hupdates, hsize]
        exact hf.size.imp_right fun h => h.imp_right fun h => h.append hs
      · exact .inr (.inr ⟨args, s, [], pos, rfl, hname, hvalue, fun s' hs' => absurd hs' List.not_mem_nil⟩)
  · obtain ⟨hint, hwithin⟩ := read_input_within (by decide) hread
    refine ⟨hn ▸ ⟨hf.num_nodes.1.trans (le_max_left _ _), max_le hf.num_nodes.2 hint⟩, ?_, ?_, ?_⟩
    · rw [hn]
      exact fun x hx => (hwithin x hx).mono (le_max_right _ _)
    · rw [hupdates, hn]
      exact fun x hx => (hf.updates x hx).mono (le_max_left _ _)
    · rw [hupdates, hsize]
      exact hf.size.imp_right fun h => h.imp_right fun h => h.append hs
  · obtain ⟨hint, hwithin⟩ := read_input_within hop hread
    refine ⟨hn ▸ ⟨hf.num_nodes.1.trans (le_max_left _ _), max_le hf.num_nodes.2 hint⟩, ?_, ?_, .inr (.inl hsize)⟩
    · rw [hcore, hn]
      exact fun x hx => (hf.core_graph x hx).mono (le_max_left _ _)
    · rw [hn]
      exact fun x hx => (hwithin x hx).mono (le_max_right _ _)

theorem options_fit {done args : List (List Char)} (hf : Fits done o) (h : options files args o = some o') :
    Fits (done ++ args) o' := by
  induction args generalizing done o with
  | nil =>
    cases h
    rw [List.append_nil]
    exact hf
  | cons s args ih =>
    obtain ⟨o1, h1, h2⟩ := Option.bind_eq_some_iff.mp h
    have hnext := ih (option_fits hf h1) h2
    rwa [List.append_assoc, List.singleton_append] at hnext

theorem main_fits {args : List (List Char)} (h : main files args = some o) :
    Fits args o ∧ o.core_graph ≠ [] ∧ o.updates ≠ [] := by
  obtain ⟨o1, h1, h⟩ := Option.bind_eq_some_iff.mp h
  split at h
  · cases h
  · rename_i hne
    cases h
    push Not at hne
    have hstart : Fits [] ({} : Options) :=
      ⟨⟨le_refl _, by decide⟩, fun x hx => absurd hx List.not_mem_nil, fun x hx => absurd hx List.not_mem_nil, .inl rfl⟩
    exact ⟨options_fit hstart h1, hne⟩

end

/-! ## The law -/

section

variable {σ : Type} (g : Graph σ) (nodes : Nat)

/-- The pool that `main` makes, on a machine with `nodes` memory nodes, ends with the edges that the lists
ask for. -/
def Options.Ends (o : Options) : Prop :=
  if o.v = .PPCSR then
    Builds (ThreadPool.pool g) o.threads.toNat g.edge_exists o.job
      (.new g o.threads.toNat o.job.init_num_nodes)
  else
    Builds (ThreadPoolPPPCSR.pool g) o.threads.toNat (ThreadPoolPPPCSR.edge g) o.job
      (.new g nodes o.threads.toNat o.job.init_num_nodes o.partitions_per_domain.toNat)

end

/-- A core graph of two edges, and an update that removes one of them. -/
def two_files (name : List Char) : Option (List Char) :=
  if name = "core".toList then some "0 1\n1 0\n".toList else some "1 0".toList

def three_threads : Options where
  threads := 3
  size := 1
  num_nodes := 1
  insert := false
  v := .PPCSR
  core_graph := [(.ADD, 0, 1), (.ADD, 1, 0)]
  updates := [(.DELETE, 1, 0)]

/-- A size behind the file of the updates is not cut to their number. -/
example : (main two_files (["-core_graph=core", "-update_file=updates", "-size=5"].map String.toList)).map
    (·.size) = some 5 := by decide +kernel

end program
