import Mdencode.Lib.Stride
import Mdencode.Cpp.ScanRun

/-! Where the threads of one round start and which of them meets the block.
The first block is prepared by `setModscan`, every later one by `resetThread`;
the two round the floor down to multiples of different numbers. -/

namespace Mdencode.Cpp

open Mdencode.Bytes Mdencode.Transition

/-- The exponent as a record holds it: one byte up to block size 32, four bytes above. -/
def storedExponent (blocksize exponent : ℕ) : ℕ :=
  if blocksize ≤ 32 then exponent % 256 else exponent % 2 ^ 32

inductive BlockPosition
  | first
  | later
  deriving DecidableEq

/-- What `convertFloorBase2` reduces the floor by. -/
def floorModulus (m T : ℕ) : BlockPosition → ℕ
  | .first => calcModulusInt m
  | .later => calcModulusInt m * T

/-- The first candidate of thread `t`. -/
def scanStart (m T t rem exponent : ℕ) (pos : BlockPosition) : ℕ :=
  rem + calcModulusInt exponent / floorModulus m T pos * floorModulus m T pos +
    t * calcModulusInt m

section
variable {ρ : Type}

/-- The states of thread `t`'s object in an archive of block size `B`: set up
once, then scanned, stopped, reset for the next full block and given registers
any number of times. -/
inductive Modscan.Used (compare : ρ → List UInt8 → Bool) (m T t B : ℕ) : Modscan ρ → Prop
  | setModscan (hcl : ρ) (rem exp modexp : ℕ) :
      Used compare m T t B ((new hcl).setModscan rem (calcModulusInt m) exp modexp B t T)
  | resetThread {ms : Modscan ρ} (rem modexp : ℕ) :
      Used compare m T t B ms → Used compare m T t B (ms.resetThread rem modexp B)
  | setRegisters {ms : Modscan ρ} (hcl : ρ) :
      Used compare m T t B ms → Used compare m T t B { ms with hcl }
  | decodeStep {ms : Modscan ρ} (act : Activation) :
      Used compare m T t B ms → Used compare m T t B (ms.decodeStep compare act).1
  | stopThread {ms : Modscan ρ} :
      Used compare m T t B ms → Used compare m T t B ms.stopThread

/-- Thread `t`'s object as it is when its scan of an `n`-byte block starts. -/
inductive Modscan.Prepared (compare : ρ → List UInt8 → Bool) (m T t B rem exp n : ℕ) :
    BlockPosition → Modscan ρ → Prop
  | first (hcl₀ hcl : ρ) (modexp : ℕ) :
      Prepared compare m T t B rem exp n .first
        { (new hcl₀).setModscan rem (calcModulusInt m) exp modexp n t T with hcl }
  | later {ms : Modscan ρ} (hcl : ρ) : Used compare m T t B ms → n ≤ B →
      Prepared compare m T t B rem exp n .later { ms.resetThread rem exp n with hcl }

variable {compare : ρ → List UInt8 → Bool} {m T t B rem exp n : ℕ} {ms : Modscan ρ}
  {pos : BlockPosition}

theorem Modscan.Used.spec (h : ms.Used compare m T t B) :
    ms.modulusInt = calcModulusInt m * T ∧ ms.modulusThreadInt = t * calcModulusInt m ∧
      ms.threadnumber = t ∧ ms.blocksize = B ∧ ms.byteblock.length = B := by
  induction h with
  | setModscan => simp [Modscan.setModscan, new]
  | resetThread rem modexp _ ih =>
    obtain ⟨hmod, hthread, hnum, hsize, hlen⟩ := ih
    exact ⟨hmod, hthread, hnum, rfl, by simp [Modscan.resetThread, hsize, hlen]⟩
  | setRegisters _ _ ih => exact ih
  | @decodeStep ms act _ ih =>
    obtain ⟨_, _, _, _, hlen, hframe⟩ := ms.decodeStep_frame compare act
    rw [hframe]
    exact ⟨ih.1, ih.2.1, ih.2.2.1, ih.2.2.2.1, hlen.trans ih.2.2.2.2⟩
  | stopThread _ ih => exact ih

theorem Modscan.blockInt_setModscan (hcl : ρ) (m T t rem exp modexp n : ℕ) :
    ((new hcl).setModscan rem (calcModulusInt m) exp modexp n t T).blockInt =
      scanStart m T t rem exp .first := by
  simp [setModscan, new, scanStart, floorModulus, convertFloorBase2_eq]

theorem Modscan.Used.blockInt_resetThread (h : ms.Used compare m T t B) (rem exp n : ℕ) :
    (ms.resetThread rem exp n).blockInt = scanStart m T t rem exp .later := by
  obtain ⟨hmod, hthread, -⟩ := h.spec
  simp [Modscan.resetThread, scanStart, floorModulus, convertFloorBase2_eq, hmod, hthread]

/-- Everything a scan depends on, at its start. -/
theorem Modscan.Prepared.spec (h : ms.Prepared compare m T t B rem exp n pos) :
    ms.blockInt = scanStart m T t rem exp pos ∧ ms.modulusInt = calcModulusInt m * T ∧
      ms.modulusExpIntCeil = 2 ^ (exp + 1) ∧ ms.threadnumber = t ∧ ms.blocksize = n ∧
      ms.byteblock.length = n ∧ ms.stop = false := by
  cases h with
  | first hcl₀ hcl modexp =>
    refine ⟨blockInt_setModscan hcl₀ m T t rem exp modexp n, ?_, rfl, rfl, rfl, ?_, rfl⟩
    · simp [setModscan, new]
    · simp [setModscan]
  | later hcl hused hn =>
    obtain ⟨hmod, -, hnum, hsize, hlen⟩ := hused.spec
    refine ⟨hused.blockInt_resetThread rem exp n, hmod, rfl, hnum, rfl, ?_, rfl⟩
    · simp only [resetThread]
      split_ifs with hlt
      · simp
      · omega

/-! First and later blocks -/

/-- Two objects that scan alike, candidate for candidate. -/
structure SameScan (ms₁ ms₂ : Modscan ρ) : Prop where
  blockInt : ms₁.blockInt = ms₂.blockInt
  modulusInt : ms₁.modulusInt = ms₂.modulusInt
  modulusExpIntCeil : ms₁.modulusExpIntCeil = ms₂.modulusExpIntCeil
  stop : ms₁.stop = ms₂.stop
  stopped : ms₁.stopped = ms₂.stopped
  candidate : ∀ i, ms₁.candidate i = ms₂.candidate i

/-- An object that is reset scans as a fresh one does exactly when the threads
divide the multiple of the modulus that the floor is. -/
theorem sameScan_resetThread_iff (hused : ms.Used compare m T t B) (hcl : ρ)
    (rem exp modexp n : ℕ) :
    SameScan (ms.resetThread rem exp n)
        ((Modscan.new hcl).setModscan rem (calcModulusInt m) exp modexp n t T) ↔
      T ∣ calcModulusInt exp / calcModulusInt m := by
  have hmod : (ms.resetThread rem exp n).modulusInt = calcModulusInt m * T := hused.spec.1
  have hstep : ((Modscan.new hcl).setModscan rem (calcModulusInt m) exp modexp n t T).modulusInt =
      calcModulusInt m * T := by simp [Modscan.setModscan, Modscan.new]
  have hstart : scanStart m T t rem exp .later = scanStart m T t rem exp .first ↔
      T ∣ calcModulusInt exp / calcModulusInt m := by
    rw [← Stride.floor_mul_eq_iff, scanStart, scanStart, floorModulus, floorModulus]
    omega
  rw [← hstart, ← hused.blockInt_resetThread rem exp n,
    ← Modscan.blockInt_setModscan hcl m T t rem exp modexp n]
  refine ⟨SameScan.blockInt, fun heq => ⟨heq, hmod.trans hstep.symm, rfl, rfl, rfl, fun i => ?_⟩⟩
  rw [Modscan.candidate, Modscan.candidate, heq, hstep, hmod]

/-- The second of two threads, with a floor that is ten times the modulus. -/
theorem sameScan_resetThread_iff_two :
    SameScan (((Modscan.new ()).setModscan 0 (calcModulusInt 2) 2 1 1 1 2).resetThread 1 5 1)
        ((Modscan.new ()).setModscan 1 (calcModulusInt 2) 5 1 1 1 2) ↔
      2 ∣ calcModulusInt 5 / calcModulusInt 2 := by
  have hused : ((Modscan.new ()).setModscan 0 (calcModulusInt 2) 2 1 1 1 2).Used
      (fun _ _ => false) 2 2 1 1 := .setModscan () 0 2 1
  exact sameScan_resetThread_iff hused () 1 5 1 1

/-- Two threads under modsize 2: the first block is scanned from 3, a later one
with the same record from 0. -/
theorem later_block_scanned_from_zero :
    ¬ ∀ (m T t B rem exp modexp n : ℕ) (ms : Modscan Unit), ms.Used (fun _ _ => false) m T t B →
      SameScan (ms.resetThread rem exp n)
        ((Modscan.new ()).setModscan rem (calcModulusInt m) exp modexp n t T) := by
  intro h
  have hstart := (h 2 2 0 1 0 2 1 1 _ (.setModscan () 0 2 1)).blockInt
  revert hstart
  decide

/-! The thread that meets the block -/

theorem calcModulusInt_pos (hm : 1 ≤ m) : 0 < calcModulusInt m := by
  have := Nat.pow_le_pow_right (n := 2) (by norm_num) hm
  rw [calcModulusInt]; omega

theorem floorModulus_pos (hm : 1 ≤ m) (hT : 1 ≤ T) : 0 < floorModulus m T pos := by
  cases pos with
  | first => exact calcModulusInt_pos hm
  | later => exact Nat.mul_pos (calcModulusInt_pos hm) hT

theorem dvd_floorModulus : calcModulusInt m ∣ floorModulus m T pos := by
  cases pos with
  | first => exact dvd_rfl
  | later => exact Dvd.intro _ rfl

/-- The floor of a block is at or below it, by a multiple of the modulus, for
every exponent whose floor is. -/
theorem exists_block_eq {b : ℕ} (h : calcModulusInt exp / floorModulus m T pos = 0 ∨
    calcModulusInt exp ≤ b) :
    ∃ q, b = scanStart m T 0 (b % calcModulusInt m) exp pos + q * calcModulusInt m := by
  obtain ⟨k, hk⟩ : calcModulusInt m ∣ floorModulus m T pos := dvd_floorModulus
  set M := calcModulusInt m
  set c := calcModulusInt exp / floorModulus m T pos * k with hc
  have hfloor : calcModulusInt exp / floorModulus m T pos * floorModulus m T pos = c * M := by
    rw [hc, Nat.mul_assoc, Nat.mul_comm k M, ← hk]
  have hle : c * M ≤ b := by
    rcases h with h | h
    · simp [hc, h]
    · exact hfloor ▸ (Nat.div_mul_le_self _ _).trans h
  have hcb : c ≤ b / M := by
    rcases Nat.eq_zero_or_pos M with hM | hM
    · have : floorModulus m T pos = 0 := by rw [hk, hM, Nat.zero_mul]
      simp [hc, this]
    · exact (Nat.le_div_iff_mul_le hM).mpr hle
  refine ⟨b / M - c, ?_⟩
  rw [scanStart, hfloor, Nat.zero_mul, Nat.add_zero, Nat.add_assoc, ← Nat.add_mul,
    Nat.add_sub_cancel' hcb, Nat.mul_comm]
  exact (Nat.mod_add_div b M).symm

theorem three_le_calcModulusInt (hm : 2 ≤ m) : 3 ≤ calcModulusInt m := by
  have := Nat.pow_le_pow_right (n := 2) (by norm_num) hm
  rw [calcModulusInt]; omega

theorem floor_calcExponent (hm : 2 ≤ m) (hT : 1 ≤ T) (b : ℕ) (pos : BlockPosition) :
    calcModulusInt (calcExponent b) / floorModulus m T pos = 0 ∨
      calcModulusInt (calcExponent b) ≤ b := by
  have hM := three_le_calcModulusInt hm
  have hle : calcModulusInt m ≤ floorModulus m T pos :=
    Nat.le_of_dvd (floorModulus_pos (by omega) hT) dvd_floorModulus
  rcases (calcExponent_spec b).2.2 with h | h
  · refine .inl (Nat.div_eq_of_lt ?_)
    rw [h, calcModulusInt]
    omega
  · exact .inr h

theorem Modscan.Prepared.candidate_eq (h : ms.Prepared compare m T t B rem exp n pos) (i : ℕ) :
    ms.candidate i =
      Stride.visit (scanStart m T 0 rem exp pos) (calcModulusInt m) T t i := by
  obtain ⟨hstart, hmod, -⟩ := h.spec
  rw [candidate, hstart, hmod, Stride.visit, scanStart, scanStart]
  ring

/-- Exactly one thread's candidates contain the block. That thread sees none
above its ceiling up to the block, so it tests the block unless it matches
something earlier. -/
theorem scan_complete {b : ℕ} (hm : 2 ≤ m) (hT : 1 ≤ T) (mst : ℕ → Modscan ρ)
    (hmst : ∀ t < T, (mst t).Prepared compare m T t B (b % calcModulusInt m) (calcExponent b) n
      pos) :
    (∃! t, t < T ∧ ∃ i, (mst t).candidate i = b) ∧
      ∀ t < T, ∀ i, (mst t).candidate i = b →
        (mst t).modulusExpIntCeil = 2 ^ (calcExponent b + 1) ∧
        (∀ j ≤ i, (mst t).candidate j ≤ (mst t).modulusExpIntCeil) ∧
        ((∃ j < i, compare (mst t).hcl ((mst t).tested j) = true) ∨
          ∃ ms act, act.pc = .test ∧ ms.blockInt = b ∧
            Reach (decodeAct compare) Free (mst t, Activation.start t) (ms, act)) := by
  have hM : 0 < calcModulusInt m := by have := three_le_calcModulusInt hm; omega
  obtain ⟨q, hq⟩ := exists_block_eq (floor_calcExponent hm hT b pos)
  have hceil := (calcExponent_spec b).2.1
  constructor
  · obtain ⟨t, ⟨ht, i, hi⟩, huniq⟩ := Stride.existsUnique_visit
      (scanStart m T 0 (b % calcModulusInt m) (calcExponent b) pos) q hM hT
    refine ⟨t, ⟨ht, i, ?_⟩, ?_⟩
    · rw [(hmst t ht).candidate_eq, hi, ← hq]
    · rintro t' ⟨ht', i', hi'⟩
      refine huniq t' ⟨ht', i', ?_⟩
      rw [← (hmst t' ht').candidate_eq, hi', ← hq]
  · intro t ht i hi
    obtain ⟨-, -, hexp, -, hsize, hlen, hstop⟩ := (hmst t ht).spec
    have hbelow : ∀ j ≤ i, (mst t).candidate j ≤ (mst t).modulusExpIntCeil := by
      intro j hj
      have := (mst t).candidate_mono hj
      omega
    refine ⟨hexp, hbelow, ?_⟩
    by_cases hmatch : ∃ j < i, compare (mst t).hcl ((mst t).tested j) = true
    · exact .inl hmatch
    · have hpass : ∀ j < i, Passed compare (mst t) (decodeLineCount t) j := by
        intro j hj
        refine ⟨?_, fun _ => hbelow j (by omega)⟩
        by_contra htrue
        exact hmatch ⟨j, hj, by simpa using htrue⟩
      have hreach := reach_scanState (hlen.trans hsize.symm) hstop hpass
      exact .inr ⟨_, _, rfl, hi, hreach.mono fun _ _ _ => trivial⟩

/-- The block `[5]` under modsize 2 with two threads, as the first block. -/
theorem scan_complete_five :
    ∃! t, t < 2 ∧ ∃ i, ((Modscan.new ()).setModscan (5 % calcModulusInt 2) (calcModulusInt 2)
      (calcExponent 5) 1 1 t 2).candidate i = 5 := by
  have hmst : ∀ t < 2, Modscan.Prepared (fun _ _ => false) 2 2 t 1 (5 % calcModulusInt 2)
      (calcExponent 5) 1 .first ((Modscan.new ()).setModscan (5 % calcModulusInt 2)
        (calcModulusInt 2) (calcExponent 5) 1 1 t 2) :=
    fun t _ => .first () () 1
  exact (scan_complete (by norm_num) (by norm_num) _ hmst).1

/-! Candidates and the size of the buffer -/

/-- The iteration in which a scan that matches nothing ends at its ceiling. -/
def ceilingStop (start step ceil : ℕ) (lineCount : ℤ) : ℕ :=
  if lineCount < 0 then if ceil < start then 0 else (ceil - start) / step + 1
  else
    (lineCount.toNat + 1) *
      if ceil < start then 1 else (ceil - start) / ((lineCount.toNat + 1) * step) + 1

theorem lt_add_div_mul {start step ceil : ℕ} (hstep : 0 < step) (k : ℕ) :
    ceil < start + k * step ↔ ceil < start ∨ (ceil - start) / step < k := by
  rw [Nat.div_lt_iff_lt_mul hstep]
  omega

/-- The stop is the first check with a candidate above the ceiling. -/
theorem ceilingStop_spec (start ceil : ℕ) {step : ℕ} (hstep : 0 < step) (lineCount : ℤ) :
    ChecksCeiling lineCount (ceilingStop start step ceil lineCount) ∧
      ceil < start + ceilingStop start step ceil lineCount * step ∧
      ∀ j, ChecksCeiling lineCount j → ceil < start + j * step →
        ceilingStop start step ceil lineCount ≤ j := by
  unfold ceilingStop
  rcases lt_or_ge lineCount 0 with hneg | hnonneg
  · rw [if_pos hneg]
    refine ⟨checksCeiling_of_neg hneg _, ?_, fun j _ hj => ?_⟩
    · rw [lt_add_div_mul hstep]
      split_ifs <;> omega
    · rw [lt_add_div_mul hstep] at hj
      split_ifs <;> omega
  · obtain ⟨every, rfl⟩ := Int.eq_ofNat_of_zero_le hnonneg
    have hevery : 0 < (every + 1) * step := Nat.mul_pos (Nat.succ_pos _) hstep
    have hmul (k : ℕ) : (every + 1) * k * step = k * ((every + 1) * step) := by ring
    rw [if_neg (by omega), Int.toNat_natCast]
    refine ⟨?_, ?_, fun j hcheck hj => ?_⟩
    · rw [checksCeiling_iff]
      refine ⟨Nat.mul_pos (Nat.succ_pos _) ?_, Dvd.intro _ rfl⟩
      split_ifs <;> exact Nat.succ_pos _
    · rw [hmul, lt_add_div_mul hevery]
      split_ifs with hlt
      · exact .inl hlt
      · exact .inr (Nat.lt_succ_self _)
    · obtain ⟨hpos, k, rfl⟩ := (checksCeiling_iff every j).mp hcheck
      rw [hmul, lt_add_div_mul hevery] at hj
      apply Nat.mul_le_mul_left _
      split_ifs with hlt
      · exact Nat.pos_of_mul_pos_left hpos
      · exact hj.resolve_left hlt

/-- No candidate is exported past the buffer, and what matches is the number in
the buffer, whichever candidates match besides the block itself. -/
def CandidatesFit (block : List UInt8) (ms : Modscan ρ) : Prop :=
  ∀ compare : ρ → List UInt8 → Bool, compare ms.hcl block = true →
    ∀ s, Reach (decodeAct compare) Free (ms, Activation.start ms.threadnumber) s →
      (s.2.pc = .test → s.1.blockInt < 256 ^ block.length ∧
        (mpzExport s.1.blockInt s.1.byteblock).2 ≤ block.length) ∧
      ∀ buf, s.2.pc = .setMatched buf → buf.length = block.length ∧ ofBE buf = s.1.blockInt

section
variable {block : List UInt8} (hsize : ms.blocksize = block.length)
  (hlen : ms.byteblock.length = block.length)
include hsize hlen

/-- It is enough to bound the candidates that get tested. -/
theorem candidatesFit_of_lt
    (h : ∀ compare : ρ → List UInt8 → Bool, compare ms.hcl block = true → ∀ i,
      (∀ j < i, Passed compare ms (decodeLineCount ms.threadnumber) j) →
        ms.candidate i < 256 ^ block.length) : CandidatesFit block ms := by
  intro compare haccept s hs
  obtain ⟨i, hat⟩ := ScanAt.of_reach (hlen.trans hsize.symm) hs
  have hlt := h compare haccept i hat.passed
  constructor
  · intro _
    rw [hat.blockInt]
    exact ⟨hlt, (byteLen_le_iff _ _).mpr hlt⟩
  · intro buf hpc
    have hfacts := hat.pc
    rw [hpc] at hfacts
    obtain ⟨rfl, -, -⟩ := hfacts
    rw [Modscan.tested, hsize, length_exported, exported_of_lt hlt, ofBE_toBE_of_lt hlt,
      hat.blockInt]
    exact ⟨rfl, rfl⟩

theorem candidatesFit_of_meets {i : ℕ} (hi : ms.candidate i = ofBE block) :
    CandidatesFit block ms := by
  apply candidatesFit_of_lt hsize hlen
  intro compare haccept k hpassed
  have hle : k ≤ i := by
    by_contra hlt
    have hrejects := (hpassed i (by omega)).1
    rw [Modscan.tested, hi, hsize, exported_of_lt (ofBE_lt block), toBE_ofBE, haccept] at hrejects
    cases hrejects
  exact (ms.candidate_mono hle).trans_lt (hi ▸ ofBE_lt block)

theorem candidatesFit_of_stop {i : ℕ} (hcheck : ChecksCeiling (decodeLineCount ms.threadnumber) i)
    (hceil : ms.modulusExpIntCeil < ms.candidate i) (hlt : ms.candidate i < 256 ^ block.length) :
    CandidatesFit block ms := by
  apply candidatesFit_of_lt hsize hlen
  intro compare _ k hpassed
  have hle : k ≤ i := by
    by_contra hk
    have := (hpassed i (by omega)).2 hcheck
    omega
  exact (ms.candidate_mono hle).trans_lt hlt

/-- A scan that never meets the block goes past the buffer when its stop does. -/
theorem not_candidatesFit (hstop : ms.stop = false) {i : ℕ}
    (hmiss : ∀ j, ms.candidate j ≠ ofBE block) (hge : 256 ^ block.length ≤ ms.candidate i)
    (hfirst : ∀ j < i, ChecksCeiling (decodeLineCount ms.threadnumber) j →
      ms.candidate j ≤ ms.modulusExpIntCeil) : ¬ CandidatesFit block ms := by
  intro hfit
  classical
  have hex : ∃ k, 256 ^ block.length ≤ ms.candidate k := ⟨i, hge⟩
  have hpass : ∀ j < Nat.find hex, Passed (fun _ buf => decide (buf = block)) ms
      (decodeLineCount ms.threadnumber) j := by
    intro j hj
    have hlt : ms.candidate j < 256 ^ block.length := Nat.lt_of_not_le (Nat.find_min hex hj)
    refine ⟨?_, hfirst j (hj.trans_le (Nat.find_min' hex hge))⟩
    rw [Modscan.tested, hsize, exported_of_lt hlt, decide_eq_false_iff_not]
    intro heq
    apply hmiss j
    rw [← heq, ofBE_toBE_of_lt hlt]
  have hreach := reach_scanState (hlen.trans hsize.symm) hstop hpass
  have hlt := ((hfit _ (decide_eq_true rfl) _ (hreach.mono fun _ _ _ => trivial)).1 rfl).1
  exact absurd (Nat.find_spec hex) (Nat.not_le_of_lt hlt)

end

/-- Thread `t` meets the block, or its candidate at the first check above the
ceiling still fits. -/
def Fits (m T t : ℕ) (pos : BlockPosition) (exponent : ℕ) (block : List UInt8) : Prop :=
  let start := scanStart m T t (ofBE block % calcModulusInt m) exponent pos
  let step := calcModulusInt m * T
  (∃ i, start + i * step = ofBE block) ∨
    start + ceilingStop start step (2 ^ (exponent + 1)) (decodeLineCount t) * step <
      256 ^ block.length

theorem Fits.candidatesFit {block : List UInt8} (hm : 1 ≤ m) (ht : t < T)
    (hms : ms.Prepared compare m T t B (ofBE block % calcModulusInt m) exp block.length pos)
    (h : Fits m T t pos exp block) : CandidatesFit block ms := by
  obtain ⟨hstart, hmod, hceil, hnum, hsize, hlen, -⟩ := hms.spec
  have hcand (i : ℕ) : ms.candidate i =
      scanStart m T t (ofBE block % calcModulusInt m) exp pos + i * (calcModulusInt m * T) := by
    rw [Modscan.candidate, hstart, hmod]
  rcases h with ⟨i, hi⟩ | hlt
  · exact candidatesFit_of_meets hsize hlen ((hcand i).trans hi)
  · obtain ⟨hcheck, hover, -⟩ := ceilingStop_spec
      (scanStart m T t (ofBE block % calcModulusInt m) exp pos) (2 ^ (exp + 1))
      (Nat.mul_pos (calcModulusInt_pos hm) (Nat.zero_lt_of_lt ht)) (decodeLineCount t)
    rw [← hcand] at hover hlt
    exact candidatesFit_of_stop hsize hlen (by rw [hnum]; exact hcheck) (by rw [hceil]; exact hover)
      hlt

/-- The candidates of a thread fit the block exactly when the thread meets the
block, or the candidate at its first effective ceiling check still fits. -/
theorem candidates_fit_iff {block : List UInt8} (hm : 1 ≤ m) (ht : t < T)
    (hms : ms.Prepared compare m T t B (ofBE block % calcModulusInt m)
      (storedExponent B (calcExponent (ofBE block))) block.length pos) :
    let exponent := storedExponent B (calcExponent (ofBE block))
    let start := scanStart m T t (ofBE block % calcModulusInt m) exponent pos
    let step := calcModulusInt m * T
    CandidatesFit block ms ↔
      (∃ i, start + i * step = ofBE block) ∨
        start + ceilingStop start step (2 ^ (exponent + 1)) (decodeLineCount t) * step <
          256 ^ block.length := by
  obtain ⟨hstart, hmod, hceil, hnum, hsize, hlen, hstop⟩ := hms.spec
  intro exponent start step
  have hcand (i : ℕ) : ms.candidate i = start + i * step := by
    rw [Modscan.candidate, hstart, hmod]
  replace hceil : ms.modulusExpIntCeil = 2 ^ (exponent + 1) := hceil
  have hline : decodeLineCount ms.threadnumber = decodeLineCount t := by rw [hnum]
  have hstep : 0 < step := Nat.mul_pos (calcModulusInt_pos hm) (by omega)
  have hfirst := (ceilingStop_spec start (2 ^ (exponent + 1)) hstep (decodeLineCount t)).2.2
  constructor
  · intro hfit
    by_contra hcon
    obtain ⟨hmiss, hge⟩ := not_or.mp hcon
    refine not_candidatesFit hsize hlen hstop (fun j hj => hmiss ⟨j, hcand j ▸ hj⟩)
      ((Nat.le_of_not_lt hge).trans_eq (hcand _).symm) ?_ hfit
    intro j hj hchecks
    by_contra hgt
    rw [hcand, hceil] at hgt
    have := hfirst j (hline ▸ hchecks) (by omega)
    omega
  · exact fun h => Fits.candidatesFit hm ht hms h

/-- The object of thread `t` of `T` for the block `[0]` under modsize 64. -/
def zeroBlockScan (T t : ℕ) : Modscan Unit :=
  { (Modscan.new ()).setModscan 0 (calcModulusInt 64) 1 1 [(0 : UInt8)].length t T with hcl := () }

theorem zeroBlockScan_prepared (T t : ℕ) :
    (zeroBlockScan T t).Prepared (fun _ _ => false) 64 T t 1 (ofBE [0] % calcModulusInt 64)
      (storedExponent 1 (calcExponent (ofBE [0]))) [(0 : UInt8)].length .first := by
  have hrem : ofBE [0] % calcModulusInt 64 = 0 := by decide
  have hexp : storedExponent 1 (calcExponent (ofBE [0])) = 1 := by decide
  rw [hrem, hexp]
  exact .first () () 1

def fiveBlock : List UInt8 := [0, 7, 1, 9, 200]

/-- The object of the second of two threads under modsize 2. -/
def fiveBlockScan : Modscan Unit :=
  { (Modscan.new ()).setModscan (ofBE fiveBlock % calcModulusInt 2) (calcModulusInt 2)
      (storedExponent 5 (calcExponent (ofBE fiveBlock))) 1 fiveBlock.length 1 2 with hcl := () }

theorem fiveBlockScan_prepared :
    fiveBlockScan.Prepared (fun _ _ => false) 2 2 1 5 (ofBE fiveBlock % calcModulusInt 2)
      (storedExponent 5 (calcExponent (ofBE fiveBlock))) fiveBlock.length .first :=
  .first () () 1

/-- The thread does not meet the block, but its first check above the ceiling is
at a candidate far below what the buffer can hold. -/
theorem candidates_fit_iff_five : CandidatesFit fiveBlock fiveBlockScan := by
  refine (candidates_fit_iff (by norm_num) (by norm_num) fiveBlockScan_prepared).mpr (.inr ?_)
  rw [decodeLineCount_eq (by norm_num)]
  decide +kernel

/-- The second of two threads exports `2 ^ 64 - 1` into the one-byte buffer. -/
theorem candidates_overrun_zero :
    (zeroBlockScan 2 1).Prepared (fun _ _ => false) 64 2 1 1 (ofBE [0] % calcModulusInt 64)
      (storedExponent 1 (calcExponent (ofBE [0]))) [(0 : UInt8)].length .first ∧
      ¬ CandidatesFit [0] (zeroBlockScan 2 1) := by
  have hstart : (zeroBlockScan 2 1).blockInt = 2 ^ 64 - 1 := by decide
  refine ⟨zeroBlockScan_prepared 2 1, not_candidatesFit (i := 0) rfl rfl rfl (fun j => ?_) ?_ ?_⟩
  · have hzero : ofBE [0] = 0 := by decide
    rw [Modscan.candidate, hstart, hzero]
    omega
  · rw [Modscan.candidate, hstart]
    norm_num
  · simp

end

end Mdencode.Cpp
