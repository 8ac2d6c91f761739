import Mdencode.Go.FileBlocks

/-! The two logarithms of `mdZipFile.go` with what they do to their argument,
which is passed by reference, and with the steps they take. The `logN` of
`modScanFile.go` is the same text. -/

namespace Mdencode.Go

/-- What the loop of `logN` works on: the argument, its copy, and the counter. -/
structure LogN where
  fileblockint : ℕ
  fileblockintcopy : ℕ
  exponent : ℕ
  deriving DecidableEq

namespace LogN

/-- `fileblockintcopy.Quo(fileblockintcopy, base)`. -/
def quo (s : LogN) (base : ℕ) : LogN := { s with fileblockintcopy := s.fileblockintcopy / base }

/-- The `for` loop, left in the middle of a pass; `none` when it is still running
after this many passes. -/
def loop (base : ℕ) : ℕ → LogN → Option LogN
  | 0, _ => none
  | passes + 1, s =>
    let s := s.quo base
    if s.fileblockintcopy < base then some s
    else loop base passes { s with exponent := s.exponent + 1 }

/-- The exponent, and the argument afterwards. -/
def result (s : LogN) : ℕ × ℕ := (s.exponent, s.fileblockint)

def run (passes fileblockint base : ℕ) : Option (ℕ × ℕ) :=
  if fileblockint < base then some (0, fileblockint)
  else (loop base passes ⟨fileblockint, fileblockint, 1⟩).map result

end LogN

/-- `none` when the recursion is deeper than this many calls. -/
def logNrecursive (base : ℕ) : ℕ → ℕ → Option ℕ
  | 0, _ => none
  | calls + 1, x =>
    if x < base then some 0 else (logNrecursive base calls (x / base)).map (1 + ·)

/-! Both count the divisions down to a number below the base -/

section
variable {base : ℕ} (hbase : 2 ≤ base)
include hbase

theorem log_div {x : ℕ} (h : base ≤ x) : Nat.log base x = Nat.log base (x / base) + 1 :=
  Nat.log_of_one_lt_of_le hbase h

/-- The loop adds the rest of the logarithm, less the division it starts with. -/
theorem LogN.loop_eq {passes : ℕ} {s : LogN} (hle : base ≤ s.fileblockintcopy)
    (hpasses : Nat.log base s.fileblockintcopy ≤ passes) :
    (LogN.loop base passes s).map LogN.result =
      some (s.exponent + (Nat.log base s.fileblockintcopy - 1), s.fileblockint) := by
  induction passes generalizing s with
  | zero =>
    have := log_div hbase hle
    omega
  | succ passes ih =>
    have hlog := log_div hbase hle
    rw [LogN.loop]
    split_ifs with hlt
    · have hzero : Nat.log base (s.fileblockintcopy / base) = 0 := Nat.log_of_lt hlt
      rw [hlog, hzero]
      rfl
    · rw [not_lt] at hlt
      have hpos : Nat.log base (s.fileblockintcopy / base) = _ := log_div hbase hlt
      have hnext := @ih { s.quo base with exponent := s.exponent + 1 } hlt
        (by dsimp only [LogN.quo]; omega)
      apply hnext.trans
      dsimp only [LogN.quo]
      congr 2
      omega

theorem LogN.run_eq {passes x : ℕ} (hpasses : Nat.log base x ≤ passes) :
    LogN.run passes x base = some (Nat.log base x, x) := by
  unfold LogN.run
  split_ifs with hlt
  · rw [Nat.log_of_lt hlt]
  · rw [not_lt] at hlt
    have hlog := log_div hbase hlt
    rw [LogN.loop_eq hbase hlt hpasses]
    dsimp only
    congr 2
    omega

theorem logNrecursive_eq {calls x : ℕ} (hcalls : Nat.log base x < calls) :
    logNrecursive base calls x = some (Nat.log base x) := by
  induction calls generalizing x with
  | zero => omega
  | succ calls ih =>
    rw [logNrecursive]
    split_ifs with hlt
    · rw [Nat.log_of_lt hlt]
    · rw [not_lt] at hlt
      have hlog := log_div hbase hlt
      rw [ih (by omega), Option.map_some, hlog, Nat.add_comm]

/-- The bounded loop of the encoder's model has passes enough. -/
theorem logN_eq_log (x : ℕ) : logN x base = Nat.log base x := by
  have hloop {fuel y exponent : ℕ} (hle : base ≤ y) (hfuel : Nat.log base y ≤ fuel) :
      logNLoop base fuel y exponent = exponent + (Nat.log base y - 1) := by
    induction fuel generalizing y exponent with
    | zero =>
      have := log_div hbase hle
      omega
    | succ fuel ih =>
      have hlog := log_div hbase hle
      rw [logNLoop]
      split_ifs with hlt
      · have hzero := Nat.log_of_lt hlt
        omega
      · rw [not_lt] at hlt
        have hpos := log_div hbase hlt
        rw [ih hlt (by omega)]
        omega
  unfold logN
  split_ifs with hlt
  · rw [Nat.log_of_lt hlt]
  · rw [not_lt] at hlt
    have hlog := log_div hbase hlt
    have hlog2 : Nat.log base x ≤ x.log2 := by
      rw [Nat.log2_eq_log_two]
      exact Nat.log_anti_left (by norm_num) hbase
    rw [hloop hlt hlog2]
    omega

/-- Both end, however large the number is, with the exponent of the largest power
of the base that is not above it. -/
theorem logN_eq_logNrecursive {x : ℕ} (hx : 1 ≤ x) :
    ∃ exponent steps, (∀ passes ≥ steps, LogN.run passes x base = some (exponent, x)) ∧
      (∀ calls ≥ steps, logNrecursive base calls x = some exponent) ∧
      base ^ exponent ≤ x ∧ x < base ^ (exponent + 1) :=
  ⟨Nat.log base x, Nat.log base x + 1, fun _ h => LogN.run_eq hbase (by omega),
    fun _ h => logNrecursive_eq hbase (by omega), Nat.pow_log_le_self base (by omega),
    Nat.lt_pow_succ_log_self hbase x⟩

end

theorem logN_eq_logNrecursive_nine :
    ∃ exponent steps, (∀ passes ≥ steps, LogN.run passes 9 3 = some (exponent, 9)) ∧
      (∀ calls ≥ steps, logNrecursive 3 calls 9 = some exponent) ∧
      3 ^ exponent ≤ 9 ∧ 9 < 3 ^ (exponent + 1) :=
  logN_eq_logNrecursive (by norm_num) (by norm_num)

end Mdencode.Go
