import Mdencode.Lib.Transition
import Mdencode.Cpp.ModscanFile

/-! One thread's scan as a run of its own steps, with the stop flag set from
outside at any point. Iteration `i` tests `candidate i`; the ceiling is looked
at only in the iterations where the line counter has run over. -/

namespace Mdencode.Cpp

open Mdencode.Bytes Mdencode.Transition

/-- The value of `lineNum` in iteration `i` of a scan that goes on that long. -/
def lineNumAt (lineCount : ℤ) : ℕ → ℕ
  | 0 => 0
  | i + 1 => (if lineCount < lineNumAt lineCount i then 0 else lineNumAt lineCount i) + 1

/-- Iteration `i` compares its candidate with the ceiling. -/
abbrev ChecksCeiling (lineCount : ℤ) (i : ℕ) : Prop := lineCount < lineNumAt lineCount i

theorem lineNumAt_succ (lineCount i : ℕ) :
    lineNumAt lineCount (i + 1) = i % (lineCount + 1) + 1 := by
  induction i with
  | zero => simp [lineNumAt]
  | succ i ih =>
    have hlt : i % (lineCount + 1) < lineCount + 1 := Nat.mod_lt i (Nat.succ_pos lineCount)
    rw [lineNumAt, ih]
    split_ifs with h
    · rw [Nat.succ_mod_succ_eq_zero_iff.mpr (show i % (lineCount + 1) = lineCount by omega)]
    · have hone : 1 % (lineCount + 1) = 1 := Nat.mod_eq_of_lt (by omega)
      rw [Nat.add_mod_of_add_mod_lt (by omega), hone]

theorem checksCeiling_iff (lineCount i : ℕ) :
    ChecksCeiling lineCount i ↔ 0 < i ∧ lineCount + 1 ∣ i := by
  cases i with
  | zero => simp [ChecksCeiling, lineNumAt]
  | succ i =>
    have hlt : i % (lineCount + 1) < lineCount + 1 := Nat.mod_lt i (Nat.succ_pos lineCount)
    rw [ChecksCeiling, lineNumAt_succ, Nat.dvd_iff_mod_eq_zero, Nat.succ_mod_succ_eq_zero_iff]
    omega

theorem checksCeiling_of_neg {lineCount : ℤ} (h : lineCount < 0) (i : ℕ) :
    ChecksCeiling lineCount i := by
  unfold ChecksCeiling
  omega

/-- A thread takes its next step, or main sets its stop flag. -/
inductive DecodeAct
  | step
  | stopThread

section
variable {ρ : Type}

def decodeAct (compare : ρ → List UInt8 → Bool) :
    Modscan ρ × Activation → DecodeAct → Option (Modscan ρ × Activation)
  | (ms, act), .step => some (ms.decodeStep compare act)
  | (ms, act), .stopThread => some (ms.stopThread, act)

namespace Modscan

/-- The candidate of iteration `i` when the scan starts from this object. -/
def candidate (ms : Modscan ρ) (i : ℕ) : ℕ := ms.blockInt + i * ms.modulusInt

theorem candidate_succ (ms : Modscan ρ) (i : ℕ) :
    ms.candidate (i + 1) = ms.candidate i + ms.modulusInt := by
  rw [candidate, candidate]; ring

theorem candidate_mono (ms : Modscan ρ) {i j : ℕ} (h : i ≤ j) :
    ms.candidate i ≤ ms.candidate j :=
  Nat.add_le_add_left (Nat.mul_le_mul_right _ h) _

/-- The buffer candidate `i` is tested in. -/
def tested (ms : Modscan ρ) (i : ℕ) : List UInt8 := exported ms.blocksize (ms.candidate i)

end Modscan

variable (compare : ρ → List UInt8 → Bool) (ms₀ : Modscan ρ) (lineCount : ℤ)

/-- Iteration `i` neither matches nor ends the scan at the ceiling. -/
def Passed (i : ℕ) : Prop :=
  compare ms₀.hcl (ms₀.tested i) = false ∧
    (ChecksCeiling lineCount i → ms₀.candidate i ≤ ms₀.modulusExpIntCeil)

/-- What the program counter says about iteration `i`. -/
def PcFacts (i : ℕ) (byteblock : List UInt8) (lineNum : ℕ) : Pc → Prop
  | .head | .test => lineNum = lineNumAt lineCount i
  | .advance => lineNum + 1 = lineNumAt lineCount (i + 1) ∧ Passed compare ms₀ lineCount i
  | .setMatched buf | .exit (.matched buf) | .done (.matched buf) =>
    buf = ms₀.tested i ∧ byteblock = buf ∧ compare ms₀.hcl buf = true
  | .incNotFound | .setStopped | .exit .ceiling | .done .ceiling =>
    compare ms₀.hcl (ms₀.tested i) = false ∧ ChecksCeiling lineCount i ∧
      ms₀.modulusExpIntCeil < ms₀.candidate i
  | .exit .stopped | .done .stopped => True

/-- The thread is in iteration `i` of the scan that started from `ms₀`. -/
structure ScanAt (i : ℕ) (ms : Modscan ρ) (act : Activation) : Prop where
  blockInt : ms.blockInt = ms₀.candidate i
  modulusInt : ms.modulusInt = ms₀.modulusInt
  ceil : ms.modulusExpIntCeil = ms₀.modulusExpIntCeil
  blocksize : ms.blocksize = ms₀.blocksize
  hcl : ms.hcl = ms₀.hcl
  threadnumber : ms.threadnumber = ms₀.threadnumber
  length : ms.byteblock.length = ms₀.blocksize
  lineCount_eq : act.lineCount = lineCount
  passed : ∀ j < i, Passed compare ms₀ lineCount j
  pc : PcFacts compare ms₀ lineCount i ms.byteblock act.lineNum act.pc

variable {compare ms₀ lineCount}

theorem ScanAt.start {threadnumber : ℕ} (hlen : ms₀.byteblock.length = ms₀.blocksize) :
    ScanAt compare ms₀ (decodeLineCount threadnumber) 0 ms₀
      (Activation.start threadnumber) where
  blockInt := by simp [Modscan.candidate]
  modulusInt := rfl
  ceil := rfl
  blocksize := rfl
  hcl := rfl
  threadnumber := rfl
  length := hlen
  lineCount_eq := rfl
  passed := by simp
  pc := rfl

variable {i : ℕ} {ms : Modscan ρ} {act : Activation}

theorem ScanAt.stopThread (h : ScanAt compare ms₀ lineCount i ms act) :
    ScanAt compare ms₀ lineCount i ms.stopThread act := { h with }

theorem ScanAt.exportBlock (h : ScanAt compare ms₀ lineCount i ms act) :
    ms.exportBlock = ms₀.tested i := by
  rw [Modscan.exportBlock_eq (h.length.trans h.blocksize.symm), h.blocksize, h.blockInt,
    Modscan.tested]

@[simp] theorem Modscan.length_tested (ms : Modscan ρ) (i : ℕ) :
    (ms.tested i).length = ms.blocksize := length_exported _ _

/-- The test of candidate `i`. -/
theorem ScanAt.step_test (h : ScanAt compare ms₀ lineCount i ms act) (hpc : act.pc = .test) :
    ScanAt compare ms₀ lineCount i (ms.decodeStep compare act).1
      (ms.decodeStep compare act).2 := by
  have hline : act.lineNum = lineNumAt lineCount i := by simpa [hpc, PcFacts] using h.pc
  have hlen : ms.exportBlock.length = ms₀.blocksize :=
    (Modscan.length_exportBlock ms).trans h.length
  have hcond : compare ms.hcl (ms.exportBlock.take ms.blocksize) =
      compare ms₀.hcl (ms₀.tested i) := by
    rw [h.hcl, h.exportBlock, List.take_of_length_le (by simp [h.blocksize])]
  have hcount := h.lineCount_eq
  simp only [Modscan.decodeStep, hpc, hcond]
  split_ifs with hmatch hover hceil
  · exact { h with length := hlen, pc := ⟨h.exportBlock, rfl, h.exportBlock ▸ hmatch⟩ }
  · rw [h.ceil, h.blockInt] at hceil
    exact { h with length := hlen, pc := ⟨by simpa using hmatch, by omega, hceil⟩ }
  · rw [h.ceil, h.blockInt] at hceil
    refine { h with length := hlen, pc := ⟨?_, by simpa using hmatch, fun _ => by omega⟩ }
    rw [lineNumAt, if_pos (by omega)]
  · refine { h with length := hlen, pc := ⟨?_, by simpa using hmatch, fun hc => by omega⟩ }
    rw [lineNumAt, if_neg (by omega), hline]

theorem ScanAt.step_advance (h : ScanAt compare ms₀ lineCount i ms act) (hpc : act.pc = .advance) :
    ScanAt compare ms₀ lineCount (i + 1) (ms.decodeStep compare act).1
      (ms.decodeStep compare act).2 := by
  have hfacts := h.pc
  rw [hpc] at hfacts
  obtain ⟨hline, hpassed⟩ := hfacts
  simp only [Modscan.decodeStep, hpc]
  refine { h with
    blockInt := by simp only [h.blockInt, h.modulusInt, Modscan.candidate_succ]
    passed := fun j hj => ?_
    pc := hline }
  rcases Nat.lt_succ_iff_lt_or_eq.mp hj with hj | rfl
  · exact h.passed j hj
  · exact hpassed

theorem ScanAt.step (h : ScanAt compare ms₀ lineCount i ms act) :
    ∃ i', ScanAt compare ms₀ lineCount i' (ms.decodeStep compare act).1
      (ms.decodeStep compare act).2 := by
  have hfacts := h.pc
  cases hpc : act.pc with
  | test => exact ⟨i, h.step_test hpc⟩
  | advance => exact ⟨i + 1, h.step_advance hpc⟩
  | head =>
    rw [hpc] at hfacts
    simp only [Modscan.decodeStep, hpc]
    refine ⟨i, { h with pc := ?_ }⟩
    dsimp only
    split_ifs
    · trivial
    · exact hfacts
  | setMatched buf =>
    rw [hpc] at hfacts
    simp only [Modscan.decodeStep, hpc]
    exact ⟨i, { h with pc := hfacts }⟩
  | incNotFound =>
    rw [hpc] at hfacts
    simp only [Modscan.decodeStep, hpc]
    exact ⟨i, { h with pc := hfacts }⟩
  | setStopped =>
    rw [hpc] at hfacts
    simp only [Modscan.decodeStep, hpc]
    exact ⟨i, { h with pc := hfacts }⟩
  | exit outcome =>
    rw [hpc] at hfacts
    simp only [Modscan.decodeStep, hpc]
    exact ⟨i, { h with pc := by cases outcome <;> exact hfacts }⟩
  | done outcome =>
    simp only [Modscan.decodeStep, hpc]
    exact ⟨i, h⟩

/-- Every state of a scan is in some iteration. -/
theorem ScanAt.of_reach {threadnumber : ℕ} (hlen : ms₀.byteblock.length = ms₀.blocksize)
    {s : Modscan ρ × Activation}
    (h : Reach (decodeAct compare) Free (ms₀, Activation.start threadnumber) s) :
    ∃ i, ScanAt compare ms₀ (decodeLineCount threadnumber) i s.1 s.2 := by
  refine h.invariant (P := fun s => ∃ i, ScanAt compare ms₀ _ i s.1 s.2)
    ⟨0, ScanAt.start hlen⟩ ?_
  rintro ⟨ms, act⟩ a s' ⟨i, hi⟩ - hstep
  cases a with
  | step =>
    obtain rfl : ms.decodeStep compare act = s' := by simpa [decodeAct] using hstep
    exact hi.step
  | stopThread =>
    obtain rfl : (ms.stopThread, act) = s' := by simpa [decodeAct] using hstep
    exact ⟨i, hi.stopThread⟩

/-! Progress of a scan nobody stops -/

/-- The test of candidate `i` in a scan that nobody stops. -/
def scanState (ms₀ : Modscan ρ) (lineCount : ℤ) (i : ℕ) : Modscan ρ × Activation :=
  ({ ms₀ with
      blockInt := ms₀.candidate i
      byteblock := if i = 0 then ms₀.byteblock else ms₀.tested (i - 1) },
    { pc := .test, lineNum := lineNumAt lineCount i, lineCount })

theorem exportBlock_scanState (hlen : ms₀.byteblock.length = ms₀.blocksize) (lineCount : ℤ)
    (i : ℕ) :
    (scanState ms₀ lineCount i).1.exportBlock = ms₀.tested i := by
  rw [Modscan.exportBlock_eq]
  · rfl
  · simp only [scanState]
    split_ifs
    · exact hlen
    · exact ms₀.length_tested _

/-- A step inside the loop, which no other thread can see. -/
def Quiet (s : Modscan ρ × Activation) (a : DecodeAct) : Prop :=
  a = .step ∧ (s.2.pc = .head ∨ s.2.pc = .test ∨ s.2.pc = .advance)

/-- The three ways the test of candidate `i` goes on. -/
theorem decodeStep_scanState (hlen : ms₀.byteblock.length = ms₀.blocksize) (i : ℕ) :
    (scanState ms₀ lineCount i).1.decodeStep compare (scanState ms₀ lineCount i).2 =
      let ms := { ms₀ with blockInt := ms₀.candidate i, byteblock := ms₀.tested i }
      let act : Activation := (scanState ms₀ lineCount i).2
      if compare ms₀.hcl (ms₀.tested i) then
        ({ ms with isMatched := true }, { act with pc := .setMatched (ms₀.tested i) })
      else if ChecksCeiling lineCount i then
        (ms, { act with
          lineNum := 0
          pc := if ms₀.modulusExpIntCeil < ms₀.candidate i then .incNotFound else .advance })
      else (ms, { act with pc := .advance }) := by
  have hexport := exportBlock_scanState hlen lineCount i
  have htake : (ms₀.tested i).take ms₀.blocksize = ms₀.tested i :=
    List.take_of_length_le (by simp)
  unfold Modscan.decodeStep
  rw [hexport]
  simp only [scanState, htake]
  rfl

/-- From the test of one passed candidate to the test of the next. -/
theorem Passed.reach_succ (hlen : ms₀.byteblock.length = ms₀.blocksize) (hstop : ms₀.stop = false)
    (hpass : Passed compare ms₀ lineCount i) :
    Reach (decodeAct compare) Quiet (scanState ms₀ lineCount i)
      (scanState ms₀ lineCount (i + 1)) := by
  obtain ⟨hreject, hbelow⟩ := hpass
  set ms := { ms₀ with blockInt := ms₀.candidate i, byteblock := ms₀.tested i } with hms
  set line := if ChecksCeiling lineCount i then 0 else lineNumAt lineCount i with hline
  have htest : (scanState ms₀ lineCount i).1.decodeStep compare (scanState ms₀ lineCount i).2 =
      (ms, { pc := .advance, lineNum := line, lineCount }) := by
    rw [decodeStep_scanState hlen, hreject, if_neg (by simp), hline]
    split_ifs with hcheck hceil
    · exact absurd (hbelow hcheck) (by omega)
    · rfl
    · rfl
  have hnext : scanState ms₀ lineCount (i + 1) =
      ({ ms with blockInt := ms.blockInt + ms.modulusInt },
        { pc := .test, lineNum := line + 1, lineCount }) := by
    simp [scanState, Modscan.candidate_succ, lineNumAt, hms, hline]
  have hhead : ms.stop = false := hstop
  have hstepTest : Reach (decodeAct compare) Quiet (scanState ms₀ lineCount i)
      (ms, { pc := .advance, lineNum := line, lineCount }) :=
    .next .step .start ⟨rfl, .inr (.inl rfl)⟩ (by rw [← htest]; rfl)
  have hstepAdvance : Reach (decodeAct compare) Quiet (scanState ms₀ lineCount i)
      ({ ms with blockInt := ms.blockInt + ms.modulusInt },
        { pc := .head, lineNum := line + 1, lineCount }) :=
    .next .step hstepTest ⟨rfl, .inr (.inr rfl)⟩ rfl
  refine .next .step hstepAdvance ⟨rfl, .inl rfl⟩ ?_
  rw [hnext, decodeAct, Modscan.decodeStep]
  simp only [hhead, Bool.false_eq_true, if_false]

theorem reach_scanState {threadnumber : ℕ} (hlen : ms₀.byteblock.length = ms₀.blocksize)
    (hstop : ms₀.stop = false)
    (hpass : ∀ j < i, Passed compare ms₀ (decodeLineCount threadnumber) j) :
    Reach (decodeAct compare) Quiet (ms₀, Activation.start threadnumber)
      (scanState ms₀ (decodeLineCount threadnumber) i) := by
  induction i with
  | zero =>
    refine Reach.next .step Reach.start ⟨rfl, .inl rfl⟩ ?_
    rw [decodeAct, Modscan.decodeStep]
    have heta : ms₀ = { ms₀ with stop := false } := by rw [← hstop]
    simpa [Activation.start, scanState, hstop, Modscan.candidate, lineNumAt] using heta
  | succ i ih =>
    exact (ih fun j hj => hpass j (by omega)).trans
      ((hpass i (by omega)).reach_succ hlen hstop)

end

end Mdencode.Cpp
