-- The dispatch of single tasks over the domains of a machine: the tables of the pool, and
-- the turns of the threads of a domain. The law: each task comes to a thread of its
-- domain, and the threads of a domain get equal shares.
import PackedCsr.Pools

namespace thread_pool

open pppcsr

/-! ## Submissions -/

/-- A call of the pool. A source is what it is as a `size_t`. -/
inductive Submission
  | submit_add (thread_id src target : Nat)
  | submit_delete (thread_id src target : Nat)
  | submit_read (thread_id src : Nat)

namespace Submission

def src : Submission → Nat
  | submit_add _ src _ | submit_delete _ src _ | submit_read _ src => src

def task : Submission → Task
  | submit_add _ src target => ⟨true, false, src, target⟩
  | submit_delete _ src target => ⟨false, false, src, target⟩
  | submit_read _ src => ⟨false, true, src, src⟩

def on {σ : Type} (p : ThreadPoolPPPCSR σ) : Submission → Option (ThreadPoolPPPCSR σ)
  | submit_add thread_id src target => p.submit_add thread_id src target
  | submit_delete thread_id src target => p.submit_delete thread_id src target
  | submit_read thread_id src => p.submit_read thread_id src

theorem on_eq {σ : Type} (p : ThreadPoolPPPCSR σ) (c : Submission) : c.on p = p.submit c.task := by
  cases c <;> rfl

theorem task_src (c : Submission) : c.task.src = c.src := by
  cases c <;> rfl

end Submission

def submit_all {σ : Type} : List Submission → ThreadPoolPPPCSR σ → Option (ThreadPoolPPPCSR σ)
  | [], p => some p
  | c :: calls, p => do submit_all calls (← c.on p)

theorem submit_all_append {σ : Type} (before after : List Submission) (p : ThreadPoolPPPCSR σ) :
    submit_all (before ++ after) p = (submit_all before p).bind (submit_all after) := by
  induction before generalizing p with
  | nil => rfl
  | cons c before ih =>
    simp only [List.cons_append, submit_all]
    cases c.on p with
    | none => rfl
    | some q => exact ih q

/-! ## Shares

`c` tasks go to `n` threads in turns. -/

/-- The tasks of thread `i` of `n`. -/
def share (c n i : Nat) : Nat := (c + (n - 1 - i)) / n

theorem share_zero {n i : Nat} (hi : i < n) : share 0 n i = 0 := by
  unfold share
  apply Nat.div_eq_of_lt
  omega

/-- Whether thread `i` has one task more than the whole rounds give. -/
theorem share_eq (c : Nat) {n i : Nat} (hi : i < n) :
    share c n i = c / n + if i < c % n then 1 else 0 := by
  have hn : 0 < n := by omega
  have hdm := Nat.div_add_mod c n
  have hmod := Nat.mod_lt c hn
  have hsum : c + (n - 1 - i) = n * (c / n) + (c % n + (n - 1 - i)) := by omega
  unfold share
  rw [hsum, Nat.mul_add_div hn]
  congr 1
  split
  · rw [Nat.div_eq_iff hn]
    omega
  · apply Nat.div_eq_of_lt
    omega

/-- One more task, for the thread whose turn it is. -/
theorem share_succ (c : Nat) {n i : Nat} (hi : i < n) :
    share (c + 1) n i = share c n i + if i = c % n then 1 else 0 := by
  have hn : 0 < n := by omega
  have hmod := Nat.mod_lt c hn
  have hdm := Nat.div_add_mod c n
  rw [share_eq c hi, share_eq (c + 1) hi]
  by_cases hwrap : c % n + 1 = n
  · have hdvd : n ∣ c + 1 := ⟨c / n + 1, by rw [Nat.mul_succ]; omega⟩
    rw [Nat.succ_div_of_dvd hdvd, Nat.mod_eq_zero_of_dvd hdvd, if_neg (Nat.not_lt_zero i)]
    split <;> split <;> omega
  · have hrest : c + 1 = n * (c / n) + (c % n + 1) := by omega
    have hsmall : c % n + 1 < n := by omega
    rw [hrest, Nat.mul_add_div hn, Nat.mul_add_mod, Nat.mod_eq_of_lt hsmall, Nat.div_eq_of_lt hsmall]
    split <;> split <;> split <;> omega

theorem share_le (c : Nat) {n i j : Nat} (hi : i < n) (hj : j < n) : share c n i ≤ share c n j + 1 := by
  rw [share_eq c hi, share_eq c hj]
  split <;> split <;> omega

/-! ## The domain of a source -/

section

variable {σ : Type} {g : Graph σ}

theorem partiton_loop_lt (distribution : List Nat) (u rest i : Nat) (hi : 1 ≤ i)
    (hlen : i + rest = distribution.length) :
    PPPCSR.partiton_loop distribution u rest i < distribution.length := by
  induction rest generalizing i with
  | zero =>
    unfold PPPCSR.partiton_loop
    omega
  | succ rest ih =>
    unfold PPPCSR.partiton_loop
    split
    · omega
    · exact ih (i + 1) (by omega) (by omega)

theorem build_step_length (init_n numDomains partitionsPerDomain i : Nat) (b : PPPCSR.Build σ) (k : Nat) :
    (PPPCSR.build_step g init_n numDomains partitionsPerDomain i b k).distribution.length =
      b.distribution.length + if 0 < i ∨ 0 < k then 1 else 0 := by
  unfold PPPCSR.build_step
  dsimp only
  split <;> simp

/-- The inner loop of the constructor over `k` partitions of domain `i`. -/
theorem build_inner_length (init_n numDomains partitionsPerDomain i : Nat) (b : PPPCSR.Build σ) (k : Nat) :
    ((List.range k).foldl (PPPCSR.build_step g init_n numDomains partitionsPerDomain i) b).distribution.length =
      b.distribution.length + if i = 0 then k - 1 else k := by
  induction k with
  | zero => simp
  | succ k ih =>
    rw [List.range_succ, List.foldl_append, List.foldl_cons, List.foldl_nil, build_step_length, ih]
    split <;> split <;> omega

theorem new_distribution_length (init_n : Nat) {D P : Nat} (hD : 0 < D) (hP : 0 < P) :
    (PPPCSR.new g init_n D P).distribution.length = D * P := by
  have hloop : ∀ k, ((List.range k).foldl (fun b i => (List.range P).foldl
      (PPPCSR.build_step g init_n D P i) b) ⟨[0], init_n / (D * P), []⟩).distribution.length =
        if k = 0 then 1 else k * P := by
    intro k
    induction k with
    | zero => rfl
    | succ k ih =>
      rw [List.range_succ, List.foldl_append, List.foldl_cons, List.foldl_nil, build_inner_length, ih,
        if_neg (Nat.succ_ne_zero k), Nat.succ_mul]
      split
      · rename_i h0
        rw [h0]
        omega
      · rfl
  have h := hloop D
  rw [if_neg (Nat.pos_iff_ne_zero.mp hD)] at h
  exact h

/-- The domain of any source is one of the machine. -/
theorem domain_lt (init_n : Nat) {D P : Nat} (hD : 0 < D) (hP : 0 < P) (src : Nat) :
    (PPPCSR.new g init_n D P).get_partiton src / P < D := by
  have hlen := new_distribution_length (g := g) init_n hD hP
  have hpos : 0 < D * P := Nat.mul_pos hD hP
  have hlt := partiton_loop_lt (PPPCSR.new g init_n D P).distribution src
    ((PPPCSR.new g init_n D P).distribution.length - 1) 1 (le_refl 1) (by omega)
  rw [hlen] at hlt
  apply Nat.div_lt_of_lt_mul
  rw [Nat.mul_comm P D]
  unfold PPPCSR.get_partiton
  rw [hlen]
  exact hlt

end

/-! ## The blocks of the domains -/

section

variable {T D : Nat}

theorem domain_size_pos (hD : 0 < D) (hDT : D ≤ T) (d : Nat) :
    0 < domain_size (T / D) (T % D) d := by
  have := Nat.div_pos hDT hD
  unfold domain_size
  omega

/-- Each thread is in the block of a domain. -/
theorem domain_exists (m r : Nat) {t k : Nat} (ht : t < domain_start m r k) :
    ∃ d < k, domain_start m r d ≤ t ∧ t < domain_start m r (d + 1) := by
  induction k with
  | zero => simp [domain_start] at ht
  | succ k ih =>
    by_cases hk : domain_start m r k ≤ t
    · exact ⟨k, Nat.lt_succ_self k, hk, ht⟩
    · obtain ⟨d, hd, h⟩ := ih (by omega)
      exact ⟨d, by omega, h⟩

/-- A thread is in one block only. -/
theorem domain_unique (m r : Nat) {d d' t : Nat} (h : domain_start m r d ≤ t)
    (h' : t < domain_start m r (d + 1)) (k : domain_start m r d' ≤ t)
    (k' : t < domain_start m r (d' + 1)) : d = d' := by
  rcases Nat.lt_trichotomy d d' with hlt | heq | hgt
  · have := domain_start_mono m r (show d + 1 ≤ d' from hlt)
    omega
  · exact heq
  · have := domain_start_mono m r (show d' + 1 ≤ d from hgt)
    omega

/-- The table of the threads describes the blocks. -/
theorem thread_domain_iff (hD : 0 < D) (hDT : D ≤ T) {d : Nat} (hd : d < D) (t : Nat) :
    (tables T D).threadToDomain[t]? = some d ↔
      domain_start (T / D) (T % D) d ≤ t ∧
        t < domain_start (T / D) (T % D) d + domain_size (T / D) (T % D) d := by
  obtain ⟨-, htab⟩ := tables_spec hD hDT
  have hall := domain_start_all (T := T) hD
  rw [← domain_start_succ]
  constructor
  · intro h
    have ht : t < T := by
      have := (List.getElem?_eq_some_iff.mp h).1
      rwa [htab.threads] at this
    obtain ⟨d', hd', h1, h2⟩ := domain_exists (T / D) (T % D) (show t < domain_start _ _ D by omega)
    rw [htab.domain d' t h1 h2 ht] at h
    cases h
    exact ⟨h1, h2⟩
  · intro h
    have hmono := domain_start_mono (T / D) (T % D) (show d + 1 ≤ D from hd)
    exact htab.domain d t h.1 h.2 (by omega)

end

/-! ## The turns -/

/-- The pool `p` after tasks of which `turns d` went to domain `d`. -/
structure Dispatched {σ : Type} (T D : Nat) (start p : ThreadPoolPPPCSR σ) (turns : Nat → Nat) : Prop where
  same : p = { start with tasks := p.tasks, indeces := p.indeces }
  tasks : p.tasks.length = T
  indeces : p.indeces.length = D
  turn : ∀ d < D, p.indeces[d]? = some (turns d)
  shares : ∀ d < D, ∀ i < domain_size (T / D) (T % D) d, ∃ q,
    p.tasks[domain_start (T / D) (T % D) d + i]? = some q ∧
      q.length = share (turns d) (domain_size (T / D) (T % D) d) i

section

variable {σ : Type} {g : Graph σ} {nodes T D P init_n : Nat} {p : ThreadPoolPPPCSR σ} {turns : Nat → Nat}

theorem dispatched_start (g : Graph σ) (init_n P : Nat) (hD : D = min nodes T) (hD0 : 0 < D) :
    Dispatched T D (ThreadPoolPPPCSR.new g nodes T init_n P) (ThreadPoolPPPCSR.new g nodes T init_n P)
      fun _ => 0 := by
  have hall := domain_start_all (T := T) hD0
  refine ⟨rfl, List.length_replicate, ?_, ?_, ?_⟩
  · show (List.replicate (min nodes T) 0).length = D
    rw [List.length_replicate, hD]
  · intro d hd
    show (List.replicate (min nodes T) 0)[d]? = some 0
    rw [← hD, List.getElem?_replicate, if_pos hd]
  · intro d hd i hi
    have hsucc := domain_start_succ (T / D) (T % D) d
    have hmono := domain_start_mono (T / D) (T % D) (show d + 1 ≤ D from hd)
    refine ⟨[], ?_, (share_zero hi).symm⟩
    show (List.replicate T [])[_]? = some []
    rw [List.getElem?_replicate, if_pos (by omega)]

/-- A task goes to the thread of its domain whose turn it is. -/
theorem dispatched_submit (hD : D = min nodes T) (hD0 : 0 < D) (hDT : D ≤ T) (hP : 0 < P)
    (h : Dispatched T D (ThreadPoolPPPCSR.new g nodes T init_n P) p turns)
    (hlt : ∀ d < D, turns d + 1 < 2 ^ 32) (t : Task) :
    ∃ p' d k queue, p.submit t = some p' ∧
      d = (PPPCSR.new g init_n D P).get_partiton t.src / P ∧ d < D ∧
      domain_start (T / D) (T % D) d ≤ k ∧
      k < domain_start (T / D) (T % D) d + domain_size (T / D) (T % D) d ∧
      p.tasks[k]? = some queue ∧ p'.tasks = p.tasks.set k (queue ++ [t]) ∧
      Dispatched T D (ThreadPoolPPPCSR.new g nodes T init_n P) p' (Function.update turns d (turns d + 1)) := by
  obtain ⟨hcur, htab⟩ := tables_spec hD0 hDT
  have hd := domain_lt (g := g) init_n hD0 hP t.src
  generalize hpar : (PPPCSR.new g init_n D P).get_partiton t.src / P = d at hd
  have hsize := domain_size_pos hD0 hDT d
  have hturn := h.turn d hd
  have hi := Nat.mod_lt (turns d) hsize
  obtain ⟨queue, hq, hqlen⟩ := h.shares d hd _ hi
  have hklt := (List.getElem?_eq_some_iff.mp hq).1
  have hsame := h.same
  have hfirst : p.firstThreadDomain[d]? = some (domain_start (T / D) (T % D) d) := by
    rw [hsame]
    show (tables T (min nodes T)).firstThreadDomain[d]? = _
    rw [← hD]
    exact htab.first d (by omega)
  have hnum : p.numThreadsDomain[d]? = some (domain_size (T / D) (T % D) d) := by
    rw [hsame]
    show (tables T (min nodes T)).numThreadsDomain[d]? = _
    rw [← hD]
    exact htab.num d (by omega)
  have hdomain : p.pcsr.get_partiton t.src / p.partitions_per_domain = d := by
    rw [hsame]
    show (PPPCSR.new g init_n (min nodes T) P).get_partiton t.src / P = d
    rw [← hD]
    exact hpar
  have hrun : p.submit t = some { p with
      tasks := p.tasks.set (domain_start (T / D) (T % D) d + turns d % domain_size (T / D) (T % D) d)
        (queue ++ [t])
      indeces := p.indeces.set d ((turns d + 1) % 2 ^ 32) } := by
    unfold ThreadPoolPPPCSR.submit
    simp only [hdomain, hturn, hfirst, hnum, bind, Option.bind, if_neg (Nat.pos_iff_ne_zero.mp hsize)]
    rw [push_of_some t hq]
    rfl
  refine ⟨_, d, _, queue, hrun, rfl, hd, by omega, by omega, hq, rfl, ?_⟩
  refine ⟨?_, by simpa using h.tasks, by simpa using h.indeces, ?_, ?_⟩
  · rw [hsame]
  · intro d' hd'
    dsimp only
    by_cases hdd : d' = d
    · rw [hdd, List.getElem?_set_self (by rw [h.indeces]; exact hd), Function.update_self,
        Nat.mod_eq_of_lt (hlt d hd)]
    · rw [List.getElem?_set_ne (Ne.symm hdd), Function.update_of_ne hdd]
      exact h.turn d' hd'
  · intro d' hd' i hi'
    dsimp only
    obtain ⟨q, hq', hlen'⟩ := h.shares d' hd' i hi'
    by_cases hdd : d' = d
    · subst hdd
      rw [Function.update_self, share_succ _ hi']
      by_cases hii : i = turns d' % domain_size (T / D) (T % D) d'
      · subst hii
        refine ⟨queue ++ [t], List.getElem?_set_self hklt, ?_⟩
        rw [List.length_append, hqlen, if_pos rfl]
        rfl
      · refine ⟨q, ?_, ?_⟩
        · rw [List.getElem?_set_ne (by omega)]
          exact hq'
        · rw [hlen', if_neg hii]
          rfl
    · have hne : domain_start (T / D) (T % D) d + turns d % domain_size (T / D) (T % D) d ≠
          domain_start (T / D) (T % D) d' + i := by
        intro hc
        have hs := domain_start_succ (T / D) (T % D) d
        have hs' := domain_start_succ (T / D) (T % D) d'
        exact hdd (domain_unique (T / D) (T % D) (t := domain_start (T / D) (T % D) d' + i)
          (by omega) (by omega) (by omega) (by omega))
      refine ⟨q, ?_, ?_⟩
      · rw [List.getElem?_set_ne hne]
        exact hq'
      · rw [Function.update_of_ne hdd]
        exact hlen'

/-- A run of submissions. -/
theorem dispatched_all (hD : D = min nodes T) (hD0 : 0 < D) (hDT : D ≤ T) (hP : 0 < P)
    (calls : List Submission) (h : Dispatched T D (ThreadPoolPPPCSR.new g nodes T init_n P) p turns)
    (hlt : ∀ d < D, turns d + calls.length < 2 ^ 32) :
    ∃ p' turns', submit_all calls p = some p' ∧
      Dispatched T D (ThreadPoolPPPCSR.new g nodes T init_n P) p' turns' ∧
      ∀ d < D, turns' d ≤ turns d + calls.length := by
  induction calls generalizing p turns with
  | nil => exact ⟨p, turns, rfl, h, fun d _ => by simp⟩
  | cons c calls ih =>
    simp only [List.length_cons] at hlt
    obtain ⟨p1, d, k, queue, hrun, -, hd, -, -, -, -, h1⟩ :=
      dispatched_submit hD hD0 hDT hP h (fun d hd => by have := hlt d hd; omega) c.task
    have hup : ∀ d' , Function.update turns d (turns d + 1) d' ≤ turns d' + 1 := by
      intro d'
      by_cases hdd : d' = d
      · rw [hdd, Function.update_self]
      · rw [Function.update_of_ne hdd]
        omega
    obtain ⟨p', turns', hall, h', hle⟩ := ih h1 fun d' hd' => by
      have := hlt d' hd'
      have := hup d'
      omega
    refine ⟨p', turns', ?_, h', fun d' hd' => ?_⟩
    · simp only [submit_all, Submission.on_eq, hrun, bind, Option.bind]
      exact hall
    · have := hle d' hd'
      have := hup d'
      simp only [List.length_cons]
      omega

end

/-! ## The law -/

/-- The tables split the threads into one block for each domain, with sizes that differ by at most
one. Each of fewer than `2 ^ 32` tasks comes to one queue, of a thread of the domain of its
source; no turn is taken modulo 0; and the threads of a domain get as many tasks, but for one. -/
theorem tasks_are_dispatched_within_domains {σ : Type} (g : Graph σ) (nodes T D P init_n : Nat)
    (hnodes : 1 ≤ nodes) (hT : 1 ≤ T) (hD : D = min nodes T) (hP : 1 ≤ P) :
    -- the tables
    (ThreadPoolPPPCSR.new g nodes T init_n P).threadToDomain.length = T ∧
    (ThreadPoolPPPCSR.new g nodes T init_n P).firstThreadDomain.length = D ∧
    (ThreadPoolPPPCSR.new g nodes T init_n P).numThreadsDomain.length = D ∧
    (∀ t < T, ∃ d < D, (ThreadPoolPPPCSR.new g nodes T init_n P).threadToDomain[t]? = some d) ∧
    (∀ d < D, ∃ first num,
      (ThreadPoolPPPCSR.new g nodes T init_n P).firstThreadDomain[d]? = some first ∧
      (ThreadPoolPPPCSR.new g nodes T init_n P).numThreadsDomain[d]? = some num ∧
      1 ≤ num ∧ T / D ≤ num ∧ num ≤ T / D + 1 ∧
      ∀ t, (ThreadPoolPPPCSR.new g nodes T init_n P).threadToDomain[t]? = some d ↔
        first ≤ t ∧ t < first + num) ∧
    -- the tasks
    ∀ calls : List Submission, calls.length < 2 ^ 32 →
      ∃ p, submit_all calls (ThreadPoolPPPCSR.new g nodes T init_n P) = some p ∧
        (∀ before c after, calls = before ++ c :: after → ∃ q q' t queue,
          submit_all before (ThreadPoolPPPCSR.new g nodes T init_n P) = some q ∧ c.on q = some q' ∧
          submit_all after q' = some p ∧ t < T ∧
          (ThreadPoolPPPCSR.new g nodes T init_n P).pcsr.get_partiton c.src / P < D ∧
          (ThreadPoolPPPCSR.new g nodes T init_n P).threadToDomain[t]? =
            some ((ThreadPoolPPPCSR.new g nodes T init_n P).pcsr.get_partiton c.src / P) ∧
          q.tasks[t]? = some queue ∧ q'.tasks = q.tasks.set t (queue ++ [c.task])) ∧
        ∀ (d t t' : Nat) (queue queue' : List Task),
          (ThreadPoolPPPCSR.new g nodes T init_n P).threadToDomain[t]? = some d →
          (ThreadPoolPPPCSR.new g nodes T init_n P).threadToDomain[t']? = some d →
          p.tasks[t]? = some queue → p.tasks[t']? = some queue' →
          queue.length ≤ queue'.length + 1 := by
  have hD0 : 0 < D := by omega
  have hDT : D ≤ T := by omega
  obtain ⟨hcur, htab⟩ := tables_spec hD0 hDT
  have hall := domain_start_all (T := T) hD0
  have htables : tables T (min nodes T) = tables T D := by rw [← hD]
  have hpcsr : (ThreadPoolPPPCSR.new g nodes T init_n P).pcsr = PPPCSR.new g init_n D P := by
    rw [hD]
    rfl
  have hthreads : (ThreadPoolPPPCSR.new g nodes T init_n P).threadToDomain = (tables T D).threadToDomain :=
    congrArg Tables.threadToDomain htables
  have hfirsts : (ThreadPoolPPPCSR.new g nodes T init_n P).firstThreadDomain =
      (tables T D).firstThreadDomain := congrArg Tables.firstThreadDomain htables
  have hnums : (ThreadPoolPPPCSR.new g nodes T init_n P).numThreadsDomain =
      (tables T D).numThreadsDomain := congrArg Tables.numThreadsDomain htables
  have hdomain : ∀ t < T, ∃ d < D, (tables T D).threadToDomain[t]? = some d := by
    intro t ht
    obtain ⟨d, hd, h1, h2⟩ := domain_exists (T / D) (T % D) (show t < domain_start _ _ D by omega)
    exact ⟨d, hd, htab.domain d t h1 h2 ht⟩
  rw [hthreads, hfirsts, hnums, hpcsr]
  refine ⟨htab.threads, htab.firsts, htab.nums, hdomain, ?_, ?_⟩
  · intro d hd
    refine ⟨_, _, htab.first d (by omega), htab.num d (by omega), domain_size_pos hD0 hDT d, ?_, ?_,
      thread_domain_iff hD0 hDT hd⟩
    · unfold domain_size
      omega
    · unfold domain_size
      split <;> omega
  · intro calls hcalls
    have hstart := dispatched_start g init_n P hD hD0
    obtain ⟨p, turns, hrun, hp, -⟩ := dispatched_all hD hD0 hDT hP calls hstart fun d _ => by omega
    refine ⟨p, hrun, ?_, ?_⟩
    · intro before c after hsplit
      have hlen := congrArg List.length hsplit
      simp only [List.length_append, List.length_cons] at hlen
      obtain ⟨q, turns1, hrun1, hq, hle1⟩ :=
        dispatched_all hD hD0 hDT hP before hstart fun d _ => by omega
      obtain ⟨q', d, t, queue, hrun2, hdd, hd, h1, h2, hqueue, hput, -⟩ :=
        dispatched_submit hD hD0 hDT hP hq (fun d hd => by have := hle1 d hd; omega) c.task
      rw [Submission.task_src] at hdd
      rw [← hdd]
      refine ⟨q, q', t, queue, hrun1, (Submission.on_eq q c).trans hrun2, ?_, ?_, hd,
        (thread_domain_iff hD0 hDT hd t).mpr ⟨h1, h2⟩, hqueue, hput⟩
      · rw [hsplit, submit_all_append, hrun1] at hrun
        simp only [Option.bind, submit_all, Submission.on_eq, hrun2, bind] at hrun
        exact hrun
      · have hmono := domain_start_mono (T / D) (T % D) (show d + 1 ≤ D from hd)
        have hsucc := domain_start_succ (T / D) (T % D) d
        omega
    · intro d t t' queue queue' ht ht' hq hq'
      have hd : d < D := by
        obtain ⟨d', hd', h'⟩ := hdomain t (by
          have := (List.getElem?_eq_some_iff.mp ht).1
          rwa [htab.threads] at this)
        rw [ht] at h'
        cases h'
        exact hd'
      obtain ⟨h1, h2⟩ := (thread_domain_iff hD0 hDT hd t).mp ht
      obtain ⟨h1', h2'⟩ := (thread_domain_iff hD0 hDT hd t').mp ht'
      obtain ⟨i, rfl⟩ : ∃ i, t = domain_start (T / D) (T % D) d + i := ⟨_, (Nat.add_sub_cancel' h1).symm⟩
      obtain ⟨i', rfl⟩ : ∃ i, t' = domain_start (T / D) (T % D) d + i :=
        ⟨_, (Nat.add_sub_cancel' h1').symm⟩
      obtain ⟨x, hx, hxlen⟩ := hp.shares d hd i (by omega)
      obtain ⟨y, hy, hylen⟩ := hp.shares d hd i' (by omega)
      rw [hq] at hx
      rw [hq'] at hy
      cases hx
      cases hy
      rw [hxlen, hylen]
      exact share_le _ (by omega) (by omega)

/-- Three threads on two domains: the first domain has the threads 0 and 1. -/
theorem tasks_are_dispatched_to_three_threads :
    (ThreadPoolPPPCSR.new pppcsr.Table.graph 2 3 10 1).threadToDomain.length = 3 ∧
      ∀ calls : List Submission, calls.length < 2 ^ 32 →
        ∃ p, submit_all calls (ThreadPoolPPPCSR.new pppcsr.Table.graph 2 3 10 1) = some p := by
  obtain ⟨hlen, -, -, -, -, hcalls⟩ := tasks_are_dispatched_within_domains pppcsr.Table.graph 2 3 2 1 10
    (by decide) (by decide) (by decide) (by decide)
  refine ⟨hlen, fun calls hlt => ?_⟩
  obtain ⟨p, hrun, -⟩ := hcalls calls hlt
  exact ⟨p, hrun⟩

end thread_pool
