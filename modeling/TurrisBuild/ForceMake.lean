import Mathlib.Algebra.Ring.Int.Defs
import Mathlib.Algebra.Ring.Nat
import Mathlib.Data.Int.DivMod
import Mathlib.Data.List.Chain
import Mathlib.Tactic.Common

/-!
# `force-make`

`helpers/force-make` runs `make` again and again with fewer and fewer jobs. The
numbers of its options are checked to be digits, but `make` reads them as decimal
numbers, while the arithmetic of the shell takes a leading zero for an octal number,
works modulo `2^64` and fails on a division by zero. A failed evaluation only leaves
the loop.
-/

namespace TurrisBuild.ForceMake

/-! ### Numbers -/

/-- What the option parser takes for a number. -/
def IsDigits (s : List Char) : Prop := s ≠ [] ∧ s.all Char.isDigit = true

instance (s : List Char) : Decidable (IsDigits s) := inferInstanceAs (Decidable (_ ∧ _))

/-- An argument of the options `-j`, `-d` and `-c`. -/
abbrev Digits := { s : List Char // IsDigits s }

/-- The value of digits in a base. -/
def value (base : ℕ) (s : List Char) : ℕ :=
  s.foldl (fun n c => base * n + (c.toNat - '0'.toNat)) 0

/-- The number that is meant, and that `make` reads. -/
def Digits.decimal (s : Digits) : ℕ := value 10 s.1

/-- The integers of the shell have 64 bits. -/
def wrap (n : ℤ) : ℤ := n.bmod (2 ^ 64)

/-- The number that the arithmetic of the shell reads, unless it is no octal number. -/
def Digits.arithmetic (s : Digits) : Option ℤ :=
  if s.1.head? = some '0' ∧ 1 < s.1.length then
    if s.1.all (· < '8') then some (wrap (value 8 s.1)) else none
  else some (wrap (value 10 s.1))

/-! ### Options -/

/-- The settings of a run. -/
structure Options where
  jobsCount : Digits
  jobsDivider : Digits
  retryCount : Digits
  fallback : List (List Char)
  /-- The arguments for `make`. -/
  args : List (List Char)

/-- The settings before the options are read. -/
def Options.default : Options :=
  ⟨⟨['1'], by decide⟩, ⟨['2'], by decide⟩, ⟨['1'], by decide⟩, [], []⟩

/-- One round of the loop over `getopts`: the options after it or the status with which
the script ends. -/
def setOption (o : Options) (opt : Char) (optarg : List Char) : Except ℕ Options :=
  if opt = 'f' then .ok { o with fallback := o.fallback ++ [optarg] }
  else if h : IsDigits optarg then
    if opt = 'j' then .ok { o with jobsCount := ⟨optarg, h⟩ }
    else if opt = 'd' then .ok { o with jobsDivider := ⟨optarg, h⟩ }
    else .ok { o with retryCount := ⟨optarg, h⟩ }
  else .error 1

/-- The option parser. The only option without an argument ends the script, so that
every word holds one option. -/
def parse (o : Options) : List (List Char) → Except ℕ Options
  | ('-' :: opt :: optarg) :: rest =>
    if opt = '-' ∧ optarg = [] then .ok { o with args := rest }
    else if opt = 'h' then .error 0
    else if opt ∈ ['j', 'd', 'c', 'f'] then
      match optarg, rest with
      | [], [] => .error 1
      | [], word :: rest => setOption o opt word >>= (parse · rest)
      | optarg, rest => setOption o opt optarg >>= (parse · rest)
    else .error 1
  | rest => .ok { o with args := rest }

/-- A command line that asks for the settings. -/
def Options.commandLine (o : Options) : List (List Char) :=
  ['-', 'j'] :: o.jobsCount.1 :: ['-', 'd'] :: o.jobsDivider.1 :: ['-', 'c'] :: o.retryCount.1 ::
    (o.fallback.flatMap fun arg => [['-', 'f'], arg]) ++ ['-', '-'] :: o.args

private theorem ok_bind (o : Options) (f : Options → Except ℕ Options) :
    (Except.ok o >>= f) = f o := rfl

private theorem parse_fallback (o : Options) (fallback rest : List (List Char)) :
    parse o ((fallback.flatMap fun arg => [['-', 'f'], arg]) ++ rest) =
      parse { o with fallback := o.fallback ++ fallback } rest := by
  induction fallback generalizing o with
  | nil => simp
  | cons arg fallback ih =>
    calc parse o (['-', 'f'] :: arg :: ((fallback.flatMap fun arg => [['-', 'f'], arg]) ++ rest))
        = parse { o with fallback := o.fallback ++ [arg] }
            ((fallback.flatMap fun arg => [['-', 'f'], arg]) ++ rest) := by
          simp [parse, setOption, ok_bind]
      _ = parse { o with fallback := o.fallback ++ arg :: fallback } rest := by
          rw [ih]
          simp

/-- The parser accepts all settings. -/
theorem parse_commandLine (o : Options) : parse .default o.commandLine = .ok o := by
  have hjobs := o.jobsCount.2
  have hdivider := o.jobsDivider.2
  have hretry := o.retryCount.2
  have hend (o : Options) (args : List (List Char)) :
      parse o (['-', '-'] :: args) = .ok { o with args := args } := by
    unfold parse
    simp
  simp [Options.commandLine, parse, setOption, hjobs, hdivider, hretry, parse_fallback,
    Options.default, ok_bind, hend]

/-! ### The loop -/

/-- A round of attempts with one number of jobs. -/
structure Round where
  /-- The number that `make` gets. -/
  jobs : ℕ
  /-- How often `make` is called. -/
  attempts : ℕ

/-- What a run does. -/
structure Run where
  rounds : List Round
  /-- The arguments of the last call without jobs, if there is one. -/
  single : Option (List (List Char))
  success : Bool

/-- The number of attempts of a round. A count that cannot be read makes the loop over
the attempts fail at once. -/
def attempts : Option ℤ → ℕ
  | some count => (wrap (count - 1) + 1).toNat
  | none => 0

/-- The number of jobs of the next round, if there is one. An error of the division
leaves the loop like a number that is too small. -/
def nextJobs : Option ℤ → Option ℤ → Option ℤ
  | some jobs, some divider =>
    if divider = 0 then none
    else if 1 < wrap (jobs.tdiv divider) then some (wrap (jobs.tdiv divider)) else none
  | _, _ => none

variable (outcomes : ℕ → Bool)

/-- At most so many attempts, the first of them being the given call of the run: how
many are made and whether the last one succeeds. -/
def round : ℕ → ℕ → ℕ × Bool
  | _, 0 => (0, false)
  | call, left + 1 =>
    if outcomes call then (1, true)
    else ((round (call + 1) left).1 + 1, (round (call + 1) left).2)

/-- The outer loop: its rounds and whether an attempt succeeded. It gives nothing if it
is not over within the fuel. -/
def loop (o : Options) : ℕ → ℕ → ℕ → Option ℤ → Option (List Round × Bool)
  | 0, _, _, _ => none
  | fuel + 1, call, count, jobs =>
    let made := round outcomes call (attempts o.retryCount.arithmetic)
    if made.2 then some ([⟨count, made.1⟩], true)
    else
      match nextJobs jobs o.jobsDivider.arithmetic with
      | none => some ([⟨count, made.1⟩], false)
      | some next =>
        (loop o fuel (call + made.1) next.toNat (some next)).map fun rest =>
          (⟨count, made.1⟩ :: rest.1, rest.2)

/-- The number of calls in the rounds. -/
def calls (rounds : List Round) : ℕ := (rounds.map Round.attempts).sum

/-- A run of the script after its options are read. -/
def forceMake (o : Options) (fuel : ℕ) : Option Run :=
  (loop outcomes o fuel 0 o.jobsCount.decimal o.jobsCount.arithmetic).map fun out =>
    if out.2 then ⟨out.1, none, true⟩
    else ⟨out.1, some (o.args ++ o.fallback), outcomes (calls out.1)⟩

/-- The number of calls in a run. -/
def Run.calls (run : Run) : ℕ := ForceMake.calls run.rounds + if run.single.isSome then 1 else 0

/-- What a run is supposed to be. -/
structure Run.Faithful (run : Run) (o : Options) : Prop where
  /-- The first round has the given number of jobs, -/
  first : (run.rounds.map Round.jobs).head? = some o.jobsCount.decimal
  /-- and every further one the quotient, which is smaller and greater than one. -/
  quotients : (run.rounds.map Round.jobs).IsChain fun jobs next =>
    next = jobs / o.jobsDivider.decimal ∧ next < jobs ∧ 1 < next
  /-- Without a success there are rounds until the quotient is not greater than one. -/
  complete : run.single.isSome →
    ∀ last ∈ (run.rounds.map Round.jobs).getLast?, last / o.jobsDivider.decimal ≤ 1
  retries : ∀ r ∈ run.rounds, r.attempts ≤ o.retryCount.decimal
  /-- The last call, with the additional arguments, is made when all rounds failed. -/
  fallback : run.single =
    if ∀ i < ForceMake.calls run.rounds, outcomes i = false then some (o.args ++ o.fallback)
    else none
  status : run.success = true ↔ ∃ i < run.calls, outcomes i = true

/-- Whatever becomes of the calls of `make`, the script ends and is faithful. -/
def AlwaysFaithful (o : Options) : Prop :=
  ∀ outcomes : ℕ → Bool, ∃ fuel, ∃ run ∈ forceMake outcomes o fuel, run.Faithful outcomes o

/-- The numbers of jobs of the rounds after the first one, in the arithmetic of the shell. -/
def laterJobs (divider : Option ℤ) : Option ℤ → ℕ → Option ℤ
  | jobs, 0 => nextJobs jobs divider
  | jobs, k + 1 => (nextJobs jobs divider).bind fun next => laterJobs divider (some next) k

/-- The numbers that are meant: the quotients by the powers of the divider, as long as
they are greater than one. -/
def meantJobs (jobs divider k : ℕ) : Option ℤ :=
  if 1 < jobs / divider ^ (k + 1) then some (jobs / divider ^ (k + 1) : ℕ) else none

/-- The shell divides as is meant: the first two quotients of the numbers it reads are
those of the numbers that are written, unless they are not greater than one anyway. -/
def DividesAsMeant (o : Options) : Prop :=
  ∀ k < 2, laterJobs o.jobsDivider.arithmetic o.jobsCount.arithmetic k =
    meantJobs o.jobsCount.decimal o.jobsDivider.decimal k

instance (o : Options) : Decidable (DividesAsMeant o) :=
  inferInstanceAs (Decidable (∀ k < 2, _ = _))

/-! ### Readings of a number -/

private theorem foldl_value_le {b b' : ℕ} (hb : b ≤ b') (s : List Char) {m n : ℕ} (hmn : m ≤ n) :
    s.foldl (fun n c => b * n + (c.toNat - '0'.toNat)) m ≤
      s.foldl (fun n c => b' * n + (c.toNat - '0'.toNat)) n := by
  induction s generalizing m n with
  | nil => exact hmn
  | cons c s ih =>
    rw [List.foldl_cons, List.foldl_cons]
    exact ih (Nat.add_le_add_right (Nat.mul_le_mul hb hmn) _)

/-- Octal numbers are not greater than decimal ones. -/
theorem value_le (s : List Char) : value 8 s ≤ value 10 s := foldl_value_le (by decide) s le_rfl

private theorem wrap_eq (n : ℤ) :
    wrap n = if n % 2 ^ 64 < 2 ^ 63 then n % 2 ^ 64 else n % 2 ^ 64 - 2 ^ 64 := by
  rw [wrap, Int.bmod_def]
  rfl

/-- Small numbers are kept. -/
theorem wrap_of_small {n : ℤ} (hlow : -2 ^ 63 ≤ n) (hhigh : n < 2 ^ 63) : wrap n = n := by
  rw [wrap_eq]
  split <;> omega

private theorem wrap_natCast_le (n : ℕ) : wrap n ≤ n := by
  simp only [wrap_eq]
  split <;> omega

private theorem wrap_lt (n : ℤ) : wrap n < 2 ^ 63 := by
  rw [wrap_eq]
  split <;> omega

/-- The shell reads no more than is meant. -/
theorem Digits.arithmetic_le {s : Digits} {n : ℤ} (hread : s.arithmetic = some n) :
    n ≤ s.decimal := by
  unfold Digits.arithmetic at hread
  split at hread
  · split at hread
    · obtain rfl := Option.some.inj hread
      exact Int.le_trans (wrap_natCast_le _) (Int.ofNat_le.mpr (value_le s.1))
    · cases hread
  · obtain rfl := Option.some.inj hread
    exact wrap_natCast_le _

private theorem attempts_wrap_le (n : ℕ) : attempts (some (wrap n)) ≤ n := by
  simp only [attempts, wrap_eq]
  split <;> split <;> omega

/-- A round has at most as many attempts as were asked for. -/
theorem attempts_le (count : Digits) : attempts count.arithmetic ≤ count.decimal := by
  unfold Digits.arithmetic
  split
  · split
    · exact (attempts_wrap_le _).trans (value_le _)
    · exact Nat.zero_le _
  · exact attempts_wrap_le _

/-! ### What a run does -/

/-- A round makes at most the attempts it has left, and succeeds with one of them. -/
theorem round_spec (call left : ℕ) :
    (round outcomes call left).1 ≤ left ∧
      ((round outcomes call left).2 = true ↔
        ∃ i < (round outcomes call left).1, outcomes (call + i) = true) := by
  induction left generalizing call with
  | zero => simp [round]
  | succ left ih =>
    obtain ⟨hle, hiff⟩ := ih (call + 1)
    unfold round
    by_cases hcall : outcomes call = true
    · simp [hcall]
    · rw [if_neg hcall]
      refine ⟨Nat.succ_le_succ hle, hiff.trans ⟨?_, ?_⟩⟩
      · rintro ⟨i, hi, hout⟩
        exact ⟨i + 1, Nat.succ_lt_succ hi, by rwa [Nat.add_right_comm] at hout⟩
      · rintro ⟨i, hi, hout⟩
        cases i with
        | zero => exact absurd hout hcall
        | succ i => exact ⟨i, Nat.lt_of_succ_lt_succ hi, by rwa [Nat.add_right_comm]⟩

/-- A further number of jobs is a quotient greater than one. -/
theorem nextJobs_eq_some {jobs divider : Option ℤ} {next : ℤ} :
    nextJobs jobs divider = some next ↔
      ∃ j d, jobs = some j ∧ divider = some d ∧ d ≠ 0 ∧ next = wrap (j.tdiv d) ∧ 1 < next := by
  constructor
  · intro hnext
    unfold nextJobs at hnext
    split at hnext
    next j d =>
      split at hnext
      · cases hnext
      next hzero =>
        split at hnext
        next hlt =>
          obtain rfl := Option.some.inj hnext
          exact ⟨j, d, rfl, rfl, hzero, rfl, hlt⟩
        next => cases hnext
    · cases hnext
  · rintro ⟨j, d, rfl, rfl, hzero, rfl, hlt⟩
    simp only [nextJobs, if_neg hzero, if_pos hlt]

private theorem one_lt_of_nextJobs {jobs divider : Option ℤ} {next : ℤ}
    (hnext : nextJobs jobs divider = some next) : 1 < next := by
  obtain ⟨-, -, -, -, -, -, hlt⟩ := nextJobs_eq_some.mp hnext
  exact hlt

/-- What the outer loop does from some number of jobs on. -/
structure Loops (o : Options) (call count : ℕ) (jobs : Option ℤ) (rounds : List Round)
    (success : Bool) : Prop where
  first : (rounds.map Round.jobs).head? = some count
  later : ∀ (i : ℕ) (r : Round), rounds[i + 1]? = some r →
    laterJobs o.jobsDivider.arithmetic jobs i = some (r.jobs : ℤ)
  /-- The number of rounds is one more than that of the further ones. -/
  last : success = false →
    ∃ k, rounds.length = k + 1 ∧ laterJobs o.jobsDivider.arithmetic jobs k = none
  retries : ∀ r ∈ rounds, r.attempts ≤ attempts o.retryCount.arithmetic
  success_iff : success = true ↔ ∃ i < calls rounds, outcomes (call + i) = true

/-- The calls of a round and of those after it. -/
private theorem exists_call_cons (r : Round) (rounds : List Round) (call : ℕ) :
    (∃ i < calls (r :: rounds), outcomes (call + i) = true) ↔
      (∃ i < r.attempts, outcomes (call + i) = true) ∨
        ∃ i < calls rounds, outcomes (call + r.attempts + i) = true := by
  have hcalls : calls (r :: rounds) = r.attempts + calls rounds := rfl
  rw [hcalls]
  constructor
  · rintro ⟨i, hi, hout⟩
    by_cases hlt : i < r.attempts
    · exact .inl ⟨i, hlt, hout⟩
    · refine .inr ⟨i - r.attempts, by omega, ?_⟩
      rwa [Nat.add_assoc, Nat.add_sub_cancel' (by omega)]
  · rintro (⟨i, hi, hout⟩ | ⟨i, hi, hout⟩)
    · exact ⟨i, by omega, hout⟩
    · exact ⟨r.attempts + i, by omega, by rwa [← Nat.add_assoc]⟩

/-- A round that is the last one. -/
private theorem Loops.single {o : Options} {call count : ℕ} {jobs : Option ℤ}
    (hlast : (round outcomes call (attempts o.retryCount.arithmetic)).2 = false →
      nextJobs jobs o.jobsDivider.arithmetic = none) :
    Loops outcomes o call count jobs
      [⟨count, (round outcomes call (attempts o.retryCount.arithmetic)).1⟩]
      (round outcomes call (attempts o.retryCount.arithmetic)).2 := by
  obtain ⟨hle, hiff⟩ := round_spec outcomes call (attempts o.retryCount.arithmetic)
  refine ⟨rfl, by simp, fun hfail => ⟨0, rfl, hlast hfail⟩, by simpa using hle, ?_⟩
  rw [hiff]
  simp [calls]

/-- The rounds of the loop have the numbers of jobs that the shell computes. -/
theorem loop_spec {o : Options} {fuel call count : ℕ} {jobs : Option ℤ} {rounds : List Round}
    {success : Bool} (hloop : loop outcomes o fuel call count jobs = some (rounds, success)) :
    Loops outcomes o call count jobs rounds success := by
  induction fuel generalizing call count jobs rounds with
  | zero => cases hloop
  | succ fuel ih =>
    unfold loop at hloop
    simp only at hloop
    cases hmade : (round outcomes call (attempts o.retryCount.arithmetic)).2 with
    | true =>
      rw [hmade, if_pos rfl] at hloop
      obtain ⟨rfl, rfl⟩ := Prod.mk.inj (Option.some.inj hloop)
      rw [← hmade]
      exact .single outcomes (by simp [hmade])
    | false =>
      rw [hmade, if_neg Bool.false_ne_true] at hloop
      cases hnext : nextJobs jobs o.jobsDivider.arithmetic with
      | none =>
        rw [hnext] at hloop
        obtain ⟨rfl, rfl⟩ := Prod.mk.inj (Option.some.inj hloop)
        rw [← hmade]
        exact .single outcomes fun _ => hnext
      | some next =>
        rw [hnext] at hloop
        obtain ⟨⟨rest, ok⟩, hrest, heq⟩ := Option.map_eq_some_iff.mp hloop
        obtain ⟨rfl, rfl⟩ := Prod.mk.inj heq
        have hlater := ih hrest
        obtain ⟨hle, hiff⟩ := round_spec outcomes call (attempts o.retryCount.arithmetic)
        have hpos : 1 < next := one_lt_of_nextJobs hnext
        refine ⟨rfl, ?_, ?_, ?_, ?_⟩
        · intro i r hr
          cases i with
          | zero =>
            have hjobs : next.toNat = r.jobs := by
              have hfirst := hlater.first
              rw [List.head?_eq_getElem?, List.getElem?_map] at hfirst
              have hr' : rest[0]? = some r := hr
              rw [hr'] at hfirst
              exact (Option.some.inj hfirst).symm
            rw [laterJobs, hnext, ← hjobs, Int.toNat_of_nonneg (by omega)]
          | succ i =>
            rw [laterJobs, hnext, Option.bind_some]
            exact hlater.later i r hr
        · intro hfail
          obtain ⟨k, hlength, hnone⟩ := hlater.last hfail
          exact ⟨k + 1, by simp [hlength], by rw [laterJobs, hnext, Option.bind_some, hnone]⟩
        · intro r hr
          rcases List.mem_cons.mp hr with rfl | hr
          · exact hle
          · exact hlater.retries r hr
        · rw [exists_call_cons, ← hiff, hmade, hlater.success_iff]
          simp

/-- The loop ends when a number of jobs is not greater than one. -/
theorem loop_terminates {o : Options} {k call count : ℕ} {jobs : Option ℤ}
    (hnone : laterJobs o.jobsDivider.arithmetic jobs k = none) :
    ∃ out, loop outcomes o (k + 1) call count jobs = some out := by
  induction k generalizing call count jobs with
  | zero =>
    rw [laterJobs] at hnone
    unfold loop
    simp only [hnone]
    split
    · exact ⟨_, rfl⟩
    · exact ⟨_, rfl⟩
  | succ k ih =>
    unfold loop
    simp only
    split
    · exact ⟨_, rfl⟩
    · cases hnext : nextJobs jobs o.jobsDivider.arithmetic with
      | none => exact ⟨_, rfl⟩
      | some next =>
        rw [laterJobs, hnext, Option.bind_some] at hnone
        obtain ⟨out, hout⟩ : ∃ out, loop outcomes o (k + 1)
            (call + (round outcomes call (attempts o.retryCount.arithmetic)).1) next.toNat
            (some next) = some out := ih hnone
        simp only [hout]
        exact ⟨_, rfl⟩

/-- After the last round there are no more. -/
theorem laterJobs_eq_none {divider jobs : Option ℤ} {k l : ℕ}
    (hnone : laterJobs divider jobs k = none) (hle : k ≤ l) : laterJobs divider jobs l = none := by
  induction k generalizing jobs l with
  | zero =>
    rw [laterJobs] at hnone
    cases l with
    | zero => exact hnone
    | succ l => rw [laterJobs, hnone, Option.bind_none]
  | succ k ih =>
    obtain ⟨l, rfl⟩ := Nat.exists_eq_add_of_le' (Nat.lt_of_lt_of_le (Nat.succ_pos k) hle)
    rw [laterJobs] at hnone ⊢
    cases hnext : nextJobs jobs divider with
    | none => rfl
    | some next =>
      rw [hnext, Option.bind_some] at hnone
      exact ih hnone (by omega)

/-! ### When it is faithful -/

private theorem meantJobs_eq_some {jobs divider k n : ℕ} :
    meantJobs jobs divider k = some (n : ℤ) ↔ n = jobs / divider ^ (k + 1) ∧ 1 < n := by
  unfold meantJobs
  split
  next hlt =>
    rw [Option.some.injEq, Int.natCast_inj]
    constructor
    · rintro rfl
      exact ⟨rfl, hlt⟩
    · rintro ⟨rfl, -⟩
      rfl
  next hle =>
    simp only [reduceCtorEq, false_iff, not_and]
    rintro rfl
    exact hle

private theorem meantJobs_eq_none {jobs divider k : ℕ} :
    meantJobs jobs divider k = none ↔ jobs / divider ^ (k + 1) ≤ 1 := by
  unfold meantJobs
  split
  next hlt => simpa using hlt
  next hle => simpa using hle

/-- Dividing once more is dividing by the next power. -/
private theorem div_pow_div (jobs divider i : ℕ) :
    jobs / divider ^ i / divider = jobs / divider ^ (i + 1) := by
  rw [Nat.div_div_eq_div_mul, ← Nat.pow_succ]

private theorem div_pow_anti (jobs divider : ℕ) {k l : ℕ} (hle : k ≤ l) :
    jobs / divider ^ l ≤ jobs / divider ^ k := by
  obtain ⟨n, rfl⟩ := Nat.exists_eq_add_of_le hle
  rw [Nat.pow_add, ← Nat.div_div_eq_div_mul]
  exact Nat.div_le_self _ _

private theorem meantJobs_succ (jobs divider k : ℕ) :
    meantJobs jobs divider (k + 1) = meantJobs (jobs / divider) divider k := by
  rw [meantJobs, meantJobs, Nat.pow_succ' , Nat.div_div_eq_div_mul]

private theorem meantJobs_eq_none_of_le {jobs divider k l : ℕ}
    (hnone : meantJobs jobs divider k = none) (hle : k ≤ l) : meantJobs jobs divider l = none := by
  rw [meantJobs_eq_none] at hnone ⊢
  exact (div_pow_anti _ _ (Nat.succ_le_succ hle)).trans hnone

/-- Numbers that fit are divided as is meant. -/
private theorem nextJobs_natCast {jobs : ℕ} (divider : ℕ) (hlt : jobs < 2 ^ 63) :
    nextJobs (some (jobs : ℤ)) (some (divider : ℤ)) = meantJobs jobs divider 0 := by
  have hwrap : wrap ((jobs : ℤ).tdiv divider) = ((jobs / divider : ℕ) : ℤ) := by
    have hle := Nat.div_le_self jobs divider
    rw [← Int.ofNat_tdiv]
    generalize jobs / divider = quotient at hle ⊢
    exact wrap_of_small (by omega) (by omega)
  simp only [nextJobs, hwrap, meantJobs, Nat.zero_add, Nat.pow_one]
  by_cases hzero : divider = 0
  · simp [hzero]
  · rw [if_neg (by omega)]
    exact if_congr Int.ofNat_lt rfl rfl

private theorem laterJobs_natCast {jobs : ℕ} (divider k : ℕ) (hlt : jobs < 2 ^ 63) :
    laterJobs (some (divider : ℤ)) (some (jobs : ℤ)) k = meantJobs jobs divider k := by
  induction k generalizing jobs with
  | zero => exact nextJobs_natCast divider hlt
  | succ k ih =>
    rw [laterJobs, nextJobs_natCast divider hlt]
    cases hfirst : meantJobs jobs divider 0 with
    | none => rw [Option.bind_none, meantJobs_eq_none_of_le hfirst (Nat.zero_le _)]
    | some next =>
      have hle := Nat.div_le_self jobs divider
      obtain ⟨n, rfl⟩ : ∃ n : ℕ, next = n := by
        unfold meantJobs at hfirst
        split at hfirst
        · exact ⟨_, (Option.some.inj hfirst).symm⟩
        · cases hfirst
      obtain ⟨rfl, -⟩ := meantJobs_eq_some.mp hfirst
      rw [Nat.zero_add, Nat.pow_one, Option.bind_some, ih (by omega), meantJobs_succ]

/-- Digits without a leading zero are read as they are meant, if they fit. -/
theorem Digits.arithmetic_of_plain {s : Digits} (hzero : s.1.head? ≠ some '0' ∨ s.1.length = 1)
    (hsmall : s.decimal < 2 ^ 63) : s.arithmetic = some (s.decimal : ℤ) := by
  have hplain : ¬(s.1.head? = some '0' ∧ 1 < s.1.length) := by
    rintro ⟨hhead, hlength⟩
    rcases hzero with hne | hone
    · exact hne hhead
    · omega
  rw [Digits.arithmetic, if_neg hplain]
  exact congrArg some (wrap_of_small (by omega) (by exact_mod_cast hsmall))

/-- Numbers that are read as they are meant are divided as is meant. -/
theorem dividesAsMeant_of_plain {o : Options}
    (hjobs : o.jobsCount.arithmetic = some (o.jobsCount.decimal : ℤ))
    (hdivider : o.jobsDivider.arithmetic = some (o.jobsDivider.decimal : ℤ))
    (hsmall : o.jobsCount.decimal < 2 ^ 63) : DividesAsMeant o := by
  intro k _
  rw [hjobs, hdivider, laterJobs_natCast _ _ hsmall]

/-- A smaller divider with the same quotient is greater than this quotient. -/
private theorem lt_of_div_eq {q d d' r : ℕ} (hlt : d < d') (hd : q / d = r) (hd' : q / d' = r)
    (hpos : 0 < r) : r < d := by
  have hzero : 0 < d := by
    by_contra hzero
    obtain rfl : d = 0 := by omega
    rw [Nat.div_zero] at hd
    omega
  have hlow : r * d' ≤ q := hd' ▸ Nat.div_mul_le_self q d'
  have hhigh : q < (r + 1) * d := by
    rw [← Nat.div_lt_iff_lt_mul hzero, hd]
    exact Nat.lt_succ_self r
  by_contra hge
  have hstep : r * (d + 1) ≤ r * d' := Nat.mul_le_mul_left r hlt
  rw [Nat.mul_add, Nat.mul_one] at hstep
  rw [Nat.add_mul, Nat.one_mul] at hhigh
  omega

/-- All numbers of jobs are those that are meant. -/
private def AllAsMeant (o : Options) : Prop :=
  ∀ k, laterJobs o.jobsDivider.arithmetic o.jobsCount.arithmetic k =
    meantJobs o.jobsCount.decimal o.jobsDivider.decimal k

/-- Two dividers with the same quotient, if it is greater than one, have the same quotients
ever after. -/
private theorem meantJobs_congr {q d d' : ℕ} (hle : d ≤ d')
    (hfirst : meantJobs q d 0 = meantJobs q d' 0) (k : ℕ) :
    meantJobs q d k = meantJobs q d' k := by
  rcases Nat.eq_or_lt_of_le hle with rfl | hlt
  · rfl
  · by_cases hsmall : q / d ≤ 1
    · have hnone : meantJobs q d 0 = none :=
        meantJobs_eq_none.mpr (by rwa [Nat.zero_add, Nat.pow_one])
      rw [meantJobs_eq_none_of_le hnone (Nat.zero_le k),
        meantJobs_eq_none_of_le (hfirst ▸ hnone) (Nat.zero_le k)]
    · have hsome : meantJobs q d 0 = some ((q / d : ℕ) : ℤ) :=
        meantJobs_eq_some.mpr ⟨by rw [Nat.zero_add, Nat.pow_one], by omega⟩
      obtain ⟨hquotient, -⟩ := meantJobs_eq_some.mp (hfirst ▸ hsome)
      rw [Nat.zero_add, Nat.pow_one] at hquotient
      have hr : q / d < d := lt_of_div_eq hlt rfl hquotient.symm (by omega)
      cases k with
      | zero => exact hfirst
      | succ k =>
        have hnone (e : ℕ) (he : q / d < e) : meantJobs (q / d) e k = none := by
          refine meantJobs_eq_none_of_le (meantJobs_eq_none.mpr ?_) (Nat.zero_le k)
          rw [Nat.zero_add, Nat.pow_one, Nat.div_eq_of_lt he]
          exact Nat.zero_le 1
        rw [meantJobs_succ, meantJobs_succ, ← hquotient, hnone d hr, hnone d' (hr.trans hlt)]

/-- A divider that is not positive gives no further round. -/
private theorem nextJobs_of_nonpos {q : ℕ} {d : ℤ} (hq : q < 2 ^ 63) (hd : d ≤ 0) :
    nextJobs (some (q : ℤ)) (some d) = none := by
  obtain ⟨e, rfl⟩ : ∃ e : ℕ, d = -e := ⟨d.natAbs, by omega⟩
  have hquotient : wrap ((q : ℤ).tdiv (-e)) = -((q / e : ℕ) : ℤ) := by
    have hle := Nat.div_le_self q e
    rw [Int.tdiv_neg, ← Int.ofNat_tdiv]
    generalize q / e = r at hle ⊢
    exact wrap_of_small (by omega) (by omega)
  simp only [nextJobs, hquotient]
  generalize q / e = r
  split
  · rfl
  · exact if_neg (by omega)

/-- After two quotients as is meant there is no difference any more. -/
private theorem DividesAsMeant.all {o : Options} (hmeant : DividesAsMeant o) : AllAsMeant o := by
  have hfirst : nextJobs o.jobsCount.arithmetic o.jobsDivider.arithmetic = _ :=
    hmeant 0 (by decide)
  have hsecond := hmeant 1 (by decide)
  rw [laterJobs] at hsecond
  intro k
  cases hnext : nextJobs o.jobsCount.arithmetic o.jobsDivider.arithmetic with
  | none =>
    rw [laterJobs_eq_none (k := 0) hnext (Nat.zero_le k),
      meantJobs_eq_none_of_le (hfirst.symm.trans hnext) (Nat.zero_le k)]
  | some next =>
    obtain ⟨j, d, -, hd, -, hwrap, hlt⟩ := nextJobs_eq_some.mp hnext
    have hbound : next < 2 ^ 63 := hwrap ▸ wrap_lt _
    obtain ⟨q, rfl⟩ : ∃ q : ℕ, next = q := ⟨next.toNat, by omega⟩
    obtain ⟨hq, -⟩ := meantJobs_eq_some.mp (hfirst.symm.trans hnext)
    rw [Nat.zero_add, Nat.pow_one] at hq
    cases k with
    | zero => exact hfirst
    | succ k =>
      rw [hnext, Option.bind_some, laterJobs, meantJobs_succ, ← hq] at hsecond
      rw [laterJobs, hnext, Option.bind_some, meantJobs_succ, ← hq]
      rw [hd] at hsecond ⊢
      have hq' : q < 2 ^ 63 := by omega
      rcases Int.lt_or_le 0 d with hpos | hneg
      · obtain ⟨e, rfl⟩ : ∃ e : ℕ, d = e := ⟨d.toNat, by omega⟩
        have hle : e ≤ o.jobsDivider.decimal := Int.ofNat_le.mp (Digits.arithmetic_le hd)
        rw [nextJobs_natCast e hq'] at hsecond
        rw [laterJobs_natCast e k hq', meantJobs_congr hle hsecond k]
      · have hnone := nextJobs_of_nonpos hq' hneg
        rw [laterJobs_eq_none (k := 0) hnone (Nat.zero_le k),
          meantJobs_eq_none_of_le (hsecond.symm.trans hnone) (Nat.zero_le k)]

/-- With a divider other than one the quotients come to an end. -/
private theorem exists_meantJobs_eq_none {jobs divider : ℕ} (hdivider : 1 < jobs → divider ≠ 1) :
    ∃ k, meantJobs jobs divider k = none := by
  by_cases hsmall : divider ≤ 1
  · refine ⟨0, meantJobs_eq_none.mpr ?_⟩
    rw [Nat.zero_add, Nat.pow_one]
    by_cases hone : divider = 1
    · have hjobs : jobs ≤ 1 := by
        by_contra hlt
        exact hdivider (by omega) hone
      exact (Nat.div_le_self _ _).trans hjobs
    · obtain rfl : divider = 0 := by omega
      rw [Nat.div_zero]
      exact Nat.zero_le 1
  · refine ⟨jobs, meantJobs_eq_none.mpr ?_⟩
    have hlt : jobs < divider ^ (jobs + 1) :=
      (Nat.lt_pow_self (by omega)).trans_le (Nat.pow_le_pow_right (by omega) (Nat.le_succ jobs))
    rw [Nat.div_eq_of_lt hlt]
    exact Nat.zero_le 1

section Faithful

variable {outcomes} {o : Options} {rounds : List Round} {success : Bool}

/-- The number of jobs of each round, where the shell divides as is meant. -/
private theorem Loops.jobs_eq (hmeant : AllAsMeant o)
    (hloops : Loops outcomes o 0 o.jobsCount.decimal o.jobsCount.arithmetic rounds success) {i : ℕ}
    {r : Round} (hr : rounds[i]? = some r) :
    r.jobs = o.jobsCount.decimal / o.jobsDivider.decimal ^ i ∧ (i ≠ 0 → 1 < r.jobs) := by
  cases i with
  | zero =>
    have hfirst := hloops.first
    rw [List.head?_eq_getElem?, List.getElem?_map, hr] at hfirst
    rw [Nat.pow_zero, Nat.div_one]
    exact ⟨Option.some.inj hfirst, fun h => absurd rfl h⟩
  | succ i =>
    have hlater := hloops.later i r hr
    rw [hmeant i, meantJobs_eq_some] at hlater
    exact ⟨hlater.1, fun _ => hlater.2⟩

private theorem Loops.quotients (hdivider : 1 < o.jobsCount.decimal → o.jobsDivider.decimal ≠ 1)
    (hmeant : AllAsMeant o)
    (hloops : Loops outcomes o 0 o.jobsCount.decimal o.jobsCount.arithmetic rounds success) :
    (rounds.map Round.jobs).IsChain fun jobs next =>
      next = jobs / o.jobsDivider.decimal ∧ next < jobs ∧ 1 < next := by
  rw [List.isChain_iff_getElem]
  intro i hi
  rw [List.length_map] at hi
  obtain ⟨hjobs, -⟩ := hloops.jobs_eq hmeant (List.getElem?_eq_getElem (Nat.lt_of_succ_lt hi))
  obtain ⟨hnext, hpos⟩ := hloops.jobs_eq hmeant (List.getElem?_eq_getElem hi)
  have hlt : 1 < rounds[i + 1].jobs := hpos (Nat.succ_ne_zero i)
  have hquotient : rounds[i + 1].jobs = rounds[i].jobs / o.jobsDivider.decimal := by
    rw [hnext, hjobs, div_pow_div]
  simp only [List.getElem_map]
  refine ⟨hquotient, ?_, hlt⟩
  -- A quotient that is greater than one needs a divider, and one that is not smaller a one.
  have hle := Nat.div_le_self rounds[i].jobs o.jobsDivider.decimal
  rcases Nat.lt_or_ge 1 o.jobsDivider.decimal with hbig | hsmall
  · rw [hquotient]
    exact Nat.div_lt_self (by omega) hbig
  · rcases Nat.le_one_iff_eq_zero_or_eq_one.mp hsmall with hzero | hone
    · rw [hzero, Nat.div_zero] at hquotient
      omega
    · rw [hone, Nat.one_pow, Nat.div_one] at hjobs
      rw [hone, Nat.div_one] at hquotient
      exact absurd hone (hdivider (by omega))

/-- Without a success the rounds go on to the last quotient that is greater than one. -/
private theorem Loops.complete (hmeant : AllAsMeant o)
    (hloops : Loops outcomes o 0 o.jobsCount.decimal o.jobsCount.arithmetic rounds success)
    (hfail : success = false) :
    ∀ last ∈ (rounds.map Round.jobs).getLast?, last / o.jobsDivider.decimal ≤ 1 := by
  obtain ⟨k, hlength, hnone⟩ := hloops.last hfail
  intro last hlast
  rw [List.getLast?_eq_getElem?, List.length_map, hlength, Nat.add_sub_cancel,
    List.getElem?_map] at hlast
  obtain ⟨r, hr, rfl⟩ := Option.map_eq_some_iff.mp hlast
  rw [hmeant k, meantJobs_eq_none] at hnone
  rw [(hloops.jobs_eq hmeant hr).1, div_pow_div]
  exact hnone

/-- The parts of a run that do not depend on the arithmetic. -/
private theorem Loops.faithful
    (hloops : Loops outcomes o 0 o.jobsCount.decimal o.jobsCount.arithmetic rounds success)
    (hquotients : (rounds.map Round.jobs).IsChain fun jobs next =>
      next = jobs / o.jobsDivider.decimal ∧ next < jobs ∧ 1 < next)
    (hcomplete : success = false →
      ∀ last ∈ (rounds.map Round.jobs).getLast?, last / o.jobsDivider.decimal ≤ 1) :
    (if success then ⟨rounds, none, true⟩
      else ⟨rounds, some (o.args ++ o.fallback), outcomes (calls rounds)⟩ : Run).Faithful
        outcomes o := by
  have hiff := hloops.success_iff
  simp only [Nat.zero_add] at hiff
  have hretries : ∀ r ∈ rounds, r.attempts ≤ o.retryCount.decimal :=
    fun r hr => (hloops.retries r hr).trans (attempts_le o.retryCount)
  cases success with
  | true =>
    obtain ⟨i, hi, hout⟩ := hiff.mp rfl
    refine ⟨hloops.first, hquotients, by simp, hretries, ?_, ?_⟩
    · refine (if_neg fun hall => ?_).symm
      exact absurd hout (by simp [hall i hi])
    · exact iff_of_true rfl ⟨i, by simpa [Run.calls] using hi, hout⟩
  | false =>
    have hall : ∀ i < calls rounds, outcomes i = false := by
      intro i hi
      by_contra hout
      exact absurd (hiff.mpr ⟨i, hi, by simpa using hout⟩) Bool.false_ne_true
    refine ⟨hloops.first, hquotients, fun _ => hcomplete rfl, hretries, ?_, ?_⟩
    · exact (if_pos hall).symm
    · constructor
      · intro hlast
        exact ⟨calls rounds, by simp [Run.calls], hlast⟩
      · rintro ⟨i, hi, hout⟩
        have hle : i < calls rounds + 1 := by simpa [Run.calls] using hi
        rcases Nat.lt_succ_iff_lt_or_eq.mp hle with hlt | rfl
        · exact absurd hout (by simp [hall i hlt])
        · exact hout

/-- The numbers of jobs of a faithful run are the quotients by the powers of the divider. -/
private theorem jobs_eq_of_chain
    (hfirst : (rounds.map Round.jobs).head? = some o.jobsCount.decimal)
    (hchain : (rounds.map Round.jobs).IsChain fun jobs next =>
      next = jobs / o.jobsDivider.decimal ∧ next < jobs ∧ 1 < next) {i : ℕ} {r : Round}
    (hr : rounds[i]? = some r) :
    r.jobs = o.jobsCount.decimal / o.jobsDivider.decimal ^ i ∧ (i ≠ 0 → 1 < r.jobs) := by
  induction i generalizing r with
  | zero =>
    rw [List.head?_eq_getElem?, List.getElem?_map, hr] at hfirst
    rw [Nat.pow_zero, Nat.div_one]
    exact ⟨Option.some.inj hfirst, fun h => absurd rfl h⟩
  | succ i ih =>
    obtain ⟨hlength, rfl⟩ := List.getElem?_eq_some_iff.mp hr
    obtain ⟨hjobs, -⟩ := ih (List.getElem?_eq_getElem (Nat.lt_of_succ_lt hlength))
    have hstep := hchain.getElem i (by simpa using hlength)
    simp only [List.getElem_map] at hstep
    refine ⟨?_, fun _ => hstep.2.2⟩
    rw [hstep.1, hjobs, div_pow_div]

end Faithful

/-- A run in which every call fails shows all numbers of jobs. -/
private theorem AlwaysFaithful.dividesAsMeant {o : Options} (hfaithful : AlwaysFaithful o) :
    (1 < o.jobsCount.decimal → o.jobsDivider.decimal ≠ 1) ∧ DividesAsMeant o := by
  obtain ⟨fuel, run, hrun, hrun'⟩ := hfaithful fun _ => false
  obtain ⟨⟨rounds, success⟩, hloop, heq⟩ := Option.map_eq_some_iff.mp hrun
  have hloops := loop_spec _ hloop
  have hfail : success = false := by
    by_contra hsuccess
    obtain ⟨i, -, hout⟩ := hloops.success_iff.mp (by simpa using hsuccess)
    cases hout
  subst hfail
  simp only [Bool.false_eq_true, if_false] at heq
  subst heq
  obtain ⟨k, hlength, hnone⟩ := hloops.last rfl
  have hjobs {i : ℕ} {r : Round} (hr : rounds[i]? = some r) :=
    jobs_eq_of_chain hrun'.first hrun'.quotients hr
  have hend : o.jobsCount.decimal / o.jobsDivider.decimal ^ (k + 1) ≤ 1 := by
    obtain ⟨r, hr⟩ : ∃ r, rounds[k]? = some r := ⟨_, List.getElem?_eq_getElem (by omega)⟩
    have hlast : (rounds.map Round.jobs).getLast? = some r.jobs := by
      rw [List.getLast?_eq_getElem?, List.length_map, hlength, Nat.add_sub_cancel,
        List.getElem?_map, hr]
      rfl
    have hcomplete := hrun'.complete rfl r.jobs hlast
    rwa [(hjobs hr).1, div_pow_div] at hcomplete
  refine ⟨fun hlt hone => ?_, fun l _ => ?_⟩
  · rw [hone, Nat.one_pow, Nat.div_one] at hend
    omega
  · rcases Nat.lt_or_ge l k with hlt | hge
    · have hr : rounds[l + 1]? = some rounds[l + 1] := List.getElem?_eq_getElem (by omega)
      rw [hloops.later l _ hr]
      exact (meantJobs_eq_some.mpr ⟨(hjobs hr).1, (hjobs hr).2 (Nat.succ_ne_zero l)⟩).symm
    · rw [laterJobs_eq_none hnone hge]
      refine (meantJobs_eq_none.mpr ?_).symm
      exact (div_pow_anti _ _ (Nat.succ_le_succ hge)).trans hend

/-- **Faithful retries.** Whatever becomes of the calls of `make`, the script ends, with
the rounds, the attempts, the last call and the status it is meant to have, exactly when
the divider is not one, unless there is one job at most, and the first two quotients of
the numbers that the shell reads are those of the numbers that are written. -/
theorem force_make_faithful_iff (o : Options) :
    AlwaysFaithful o ↔
      (1 < o.jobsCount.decimal → o.jobsDivider.decimal ≠ 1) ∧ DividesAsMeant o := by
  refine ⟨AlwaysFaithful.dividesAsMeant, ?_⟩
  rintro ⟨hdivider, htwice⟩ outcomes
  have hmeant : AllAsMeant o := htwice.all
  obtain ⟨k, hnone⟩ := exists_meantJobs_eq_none hdivider
  rw [← hmeant k] at hnone
  obtain ⟨⟨rounds, success⟩, hout⟩ : ∃ out, loop outcomes o (k + 1) 0 o.jobsCount.decimal
      o.jobsCount.arithmetic = some out := loop_terminates outcomes hnone
  have hloops := loop_spec outcomes hout
  refine ⟨k + 1, _, Option.map_eq_some_iff.mpr ⟨_, hout, rfl⟩, ?_⟩
  exact hloops.faithful (hloops.quotients hdivider hmeant) (hloops.complete hmeant)

/-- Four jobs with the divider one. -/
def neverFewer : Options :=
  ⟨⟨['4'], by decide⟩, ⟨['1'], by decide⟩, ⟨['1'], by decide⟩, [], []⟩

/-- Ten jobs, written with a leading zero. -/
def octalJobs : Options :=
  ⟨⟨"010".toList, by decide⟩, ⟨['2'], by decide⟩, ⟨['1'], by decide⟩, [], []⟩

private theorem loop_neverFewer (fuel call count : ℕ) :
    loop (fun _ => false) neverFewer fuel call count (some 4) = none := by
  have hround : ∀ call left, (round (fun _ => false) call left).2 = false := by
    intro call left
    by_contra hsuccess
    obtain ⟨i, -, hout⟩ := (round_spec _ call left).2.mp (by simpa using hsuccess)
    cases hout
  have hnext : nextJobs (some 4) neverFewer.jobsDivider.arithmetic = some 4 := by decide
  induction fuel generalizing call count with
  | zero => rfl
  | succ fuel ih =>
    unfold loop
    simp only [hround, Bool.false_eq_true, if_false, hnext]
    rw [ih]
    rfl

/-- With the divider one a build that fails is repeated without end, and ten jobs with a
leading zero are followed by four. -/
theorem divider_one_never_ends :
    (∀ fuel, forceMake (fun _ => false) neverFewer fuel = none) ∧ ¬AlwaysFaithful neverFewer ∧
    (forceMake (fun _ => false) octalJobs 5).map (fun run => run.rounds.map Round.jobs) =
      some [10, 4, 2] := by
  have hnone : ∀ fuel, forceMake (fun _ => false) neverFewer fuel = none := by
    intro fuel
    have hjobs : neverFewer.jobsCount.arithmetic = some 4 := by decide
    rw [forceMake, hjobs, loop_neverFewer]
    rfl
  refine ⟨hnone, fun hfaithful => ?_, by decide⟩
  obtain ⟨fuel, run, hrun, -⟩ := hfaithful fun _ => false
  rw [hnone fuel] at hrun
  cases hrun

end TurrisBuild.ForceMake
