import Mdencode.Go.ScanCoverage

/-! What a goroutine has found out by the time it returns, and how many steps it
can take at the most. It tests its candidates in order, up to the first one that
is above the ceiling or too wide for the buffer. -/

namespace Mdencode.Go

open Mdencode.Bytes Mdencode.Transition

/-- What has been tested was not accepted, unless it was a match. -/
structure RejectAt (m T t : ℕ) (args : ScanArgs) (accepts : List UInt8 → Bool) (i : ℕ)
    (scan : Scan) : Prop where
  stop : scan.md.stop = false
  unmatched : scan.pc.isSearching = true → scan.md.matchFound = false
  before : ∀ j < i, accepts (toBE args.blocksize (candidate m T t args j)) = false
  here : scan.pc = .advance → accepts (toBE args.blocksize (candidate m T t args i)) = false
  past : scan.pc = .finished ∨ scan.pc = .exit ∧ scan.md.matchFound = false →
    ¬ Tests m T t args i

def Rejects (m T t : ℕ) (args : ScanArgs) (accepts : List UInt8 → Bool) (scan : Scan) : Prop :=
  scan = launched m T t args ∨
    ∃ i, InLoop m T t args i scan ∧ RejectAt m T t args accepts i scan

/-- The loop over the list goes on as it would for who has the hash objects to
itself: the object in use holds what the goroutine has put there. -/
def Scan.Checks (hc : HashContextList) (accepts : List UInt8 → Bool) (scan : Scan) : Prop :=
  ∀ op position start, scan.pc = .check op position start →
    BlockHash.checkFrom hc.hashBlockBytes scan.buf start (hc.blockHashList.drop position) =
      accepts scan.buf ∧
    ∀ h, hc.blockHashList[position]? = some h →
      match op with
      | .reset => True
      | .write => hc.written h.hashName = []
      | .sum => hc.written h.hashName = scan.buf
      | .equal digest => digest = h.sum scan.buf

section
variable {m T t i : ℕ} {args : ScanArgs} {hc : HashContextList} {scan : Scan}
  {accepts : List UInt8 → Bool}

/-- Every candidate has the remainder of the block. -/
theorem candidate_mod {k : ℕ} : candidate m T t args k % 2 ^ m = args.modRemainder % 2 ^ m := by
  obtain ⟨c, hc⟩ := dvd_convertFloorBase2 args.modSize.toNat m
  rw [candidate_eq, Stride.visit, hc]
  have hsplit : args.modRemainder + 2 ^ m * c + t * 2 ^ m + k * (2 ^ m * T) =
      args.modRemainder + 2 ^ m * (c + t + k * T) := by ring
  rw [hsplit, Nat.add_mul_mod_self_left]

/-! The test of the hash list -/

theorem Scan.checks_of_ne (hpc : ∀ op position start, scan.pc ≠ .check op position start) :
    scan.Checks hc accepts := fun op position start h => absurd h (hpc op position start)

/-- The objects are used as if nobody else did. -/
theorem Scan.Checks.step (h : scan.Checks hc accepts)
    (hstart : ∀ buf, BlockHash.checkFrom hc.hashBlockBytes buf 0 hc.blockHashList = accepts buf) :
    (scan.step hc).Checks (scan.hashStep hc) accepts := by
  obtain ⟨hlist, hbytes⟩ := @Scan.hashStep_fields hc scan
  cases hpc : scan.pc with
  | check op position start =>
    obtain ⟨hcheck, hobject⟩ := h op position start hpc
    cases hget : hc.blockHashList[position]? with
    | none =>
      apply Scan.checks_of_ne
      simp [Scan.step, hpc, hget]
    | some entry =>
      have hentry := hobject entry hget
      rintro op' position' start' hpc'
      rw [hlist, hbytes]
      cases op with
      | reset =>
        simp only [Scan.step, Scan.hashStep, hpc, hget, HashContextList.afterOp] at hpc' ⊢
        cases hpc'
        refine ⟨hcheck, fun other hother => ?_⟩
        obtain rfl := Option.some.inj (hget.symm.trans hother)
        exact Function.update_self ..
      | write =>
        simp only [Scan.step, Scan.hashStep, hpc, hget, HashContextList.afterOp] at hpc' ⊢
        cases hpc'
        refine ⟨hcheck, fun other hother => ?_⟩
        obtain rfl := Option.some.inj (hget.symm.trans hother)
        dsimp only at hentry ⊢
        rw [HashContextList.write, hentry, List.nil_append]
        exact Function.update_self ..
      | sum =>
        simp only [Scan.step, Scan.hashStep, hpc, hget, HashContextList.afterOp] at hpc' ⊢
        cases hpc'
        refine ⟨hcheck, fun other hother => ?_⟩
        obtain rfl := Option.some.inj (hget.symm.trans hother)
        exact congrArg entry.sum hentry
      | equal digest =>
        simp only [Scan.step, Scan.hashStep, hpc, hget, HashContextList.afterOp] at hpc' ⊢
        split_ifs at hpc' with heq
        cases hpc'
        refine ⟨?_, fun _ _ => trivial⟩
        have hsum : entry.sum scan.buf = entry.slice hc.hashBlockBytes start := by
          rw [← heq]
          exact hentry.symm
        rw [BlockHash.checkFrom_drop hget, decide_eq_true hsum, Bool.true_and] at hcheck
        exact hcheck
  | copy =>
    rw [Scan.hashStep_eq (by rw [hpc]; simp)]
    rintro op' position' start' hpc'
    simp only [Scan.step, hpc] at hpc' ⊢
    split at hpc'
    · cases hpc'
    · rename_i buf hcopy
      cases hpc'
      rw [List.drop_zero]
      exact ⟨hstart _, fun _ _ => trivial⟩
  | start args =>
    apply Scan.checks_of_ne
    simp [Scan.step, hpc, decode]
  | advance =>
    apply Scan.checks_of_ne
    simp only [Scan.step, hpc]
    split_ifs <;> simp
  | exit =>
    apply Scan.checks_of_ne
    simp only [Scan.step, hpc]
    split_ifs <;> simp
  | setFileBuffer | done | init | notified | finished =>
    apply Scan.checks_of_ne
    simp [Scan.step, hpc]

/-! What is rejected -/

theorem rejectAt_begin : RejectAt m T t args accepts 0
    (decode ((launched m T t args).md.modulusScanFileBytesOrig args)) where
  stop := rfl
  unmatched _ := rfl
  before := by simp
  here h := by cases h
  past h := by rcases h with h | ⟨h, -⟩ <;> cases h

theorem RejectAt.step_copy (h : RejectAt m T t args accepts i scan)
    (hat : InLoop m T t args i scan) (hpc : scan.pc = .copy) :
    RejectAt m T t args accepts i (scan.step hc) := by
  have hpadded : PaddedFor scan.buf scan.md.modulusStart := by
    simpa only [BufferFacts, hpc] using hat.buffer
  have hcopy := copyModulusStart_of_paddedFor hpadded
  rw [hat.length, ← hat.blocksize] at hcopy
  have hunmatched := h.unmatched (by rw [hpc]; rfl)
  simp only [Scan.step, hpc, hcopy]
  split_ifs with hfits
  · exact ⟨h.stop, fun _ => hunmatched, h.before, (fun h => by cases h), fun hm => by
      rcases hm with hm | ⟨hm, -⟩ <;> cases hm⟩
  · refine ⟨h.stop, (fun h => by cases h), h.before, (fun h => by cases h),
      fun _ htests => hfits ?_⟩
    rw [hat.blocksize, hat.candidate]
    exact htests.2

theorem RejectAt.step_check (h : RejectAt m T t args accepts i scan)
    (hat : InLoop m T t args i scan) (hchecks : scan.Checks hc accepts) {op : HashOp}
    {position start : ℕ} (hpc : scan.pc = .check op position start) :
    RejectAt m T t args accepts i (scan.step hc) := by
  have hbuffer := hat.buffer_check hpc
  have hunmatched := h.unmatched (by rw [hpc]; rfl)
  obtain ⟨hcheck, hobject⟩ := hchecks op position start hpc
  simp only [Scan.step, hpc]
  cases hget : hc.blockHashList[position]? with
  | none =>
    exact ⟨h.stop, (fun h => by cases h), h.before, (fun h => by cases h), fun hm => by
      rcases hm with hm | ⟨-, hm⟩ <;> cases hm⟩
  | some entry =>
    dsimp only
    refine ⟨h.stop, fun _ => hunmatched, h.before, fun hadvance => ?_, fun hm => ?_⟩
    · -- only the comparison gives a candidate up
      cases op with
      | reset | write | sum => cases hadvance
      | equal digest =>
        have hdigest : digest = entry.sum scan.buf := hobject entry hget
        simp only [HashContextList.afterOp] at hadvance
        split_ifs at hadvance with heq
        rw [hdigest] at heq
        rw [BlockHash.checkFrom_drop hget, decide_eq_false heq, Bool.false_and] at hcheck
        rw [← hat.candidate, ← hbuffer.2, ← hcheck]
    · rcases @HashContextList.afterOp_cases hc entry position start op with
        ⟨op', position', start', heq⟩ | heq
      · rw [heq] at hm
        rcases hm with hm | ⟨hm, -⟩ <;> cases hm
      · rw [heq] at hm
        rcases hm with hm | ⟨hm, -⟩ <;> cases hm

theorem RejectAt.step_advance (h : RejectAt m T t args accepts i scan)
    (hat : InLoop m T t args i scan) (hpc : scan.pc = .advance) :
    RejectAt m T t args accepts (i + 1) (scan.step hc) := by
  have hcandidate : scan.md.modulusStart + scan.md.modulusThreadCount =
      candidate m T t args (i + 1) := by
    rw [hat.candidate, hat.step, candidate_succ]
  have hunmatched := h.unmatched (by rw [hpc]; rfl)
  have hbefore : ∀ j < i + 1, accepts (toBE args.blocksize (candidate m T t args j)) = false := by
    intro j hj
    rcases Nat.lt_succ_iff_lt_or_eq.mp hj with hlt | rfl
    · exact h.before j hlt
    · exact h.here hpc
  simp only [Scan.step, hpc, hcandidate]
  split_ifs with hover hstop
  · refine ⟨h.stop, (fun h => by cases h), hbefore, (fun h => by cases h), fun _ htests => ?_⟩
    rw [hat.modceil] at hover
    rcases htests.1 with hzero | hle
    · cases hzero
    · exact absurd hover (Nat.not_lt.mpr hle)
  · rw [h.stop] at hstop
    cases hstop
  · exact ⟨h.stop, fun _ => hunmatched, hbefore, (fun h => by cases h), fun hm => by
      rcases hm with hm | ⟨hm, -⟩ <;> cases hm⟩

theorem RejectAt.step (h : RejectAt m T t args accepts i scan)
    (hat : InLoop m T t args i scan) (hchecks : scan.Checks hc accepts) :
    RejectAt m T t args accepts (scan.nextIndex i) (scan.step hc) := by
  cases hpc : scan.pc with
  | init | start =>
    have hbegun := hat.begun
    rw [hpc] at hbegun
    cases hbegun
  | copy =>
    rw [Scan.nextIndex_of_ne (by rw [hpc]; simp)]
    exact h.step_copy hat hpc
  | check op position start =>
    rw [Scan.nextIndex_of_ne (by rw [hpc]; simp)]
    exact h.step_check hat hchecks hpc
  | advance =>
    rw [Scan.nextIndex, if_pos hpc]
    exact h.step_advance hat hpc
  | exit =>
    rw [Scan.nextIndex_of_ne (by rw [hpc]; simp)]
    have hpast := h.past
    simp only [Scan.step, hpc]
    refine ⟨h.stop, fun hs => ?_, h.before, fun ha => ?_, fun hm => hpast (.inr ⟨hpc, ?_⟩)⟩
    · dsimp only at hs
      split_ifs at hs <;> cases hs
    · dsimp only at ha
      split_ifs at ha
    · dsimp only at hm
      split_ifs at hm with hmatch
      · rcases hm with hm | ⟨hm, -⟩ <;> cases hm
      · simpa using hmatch
  | setFileBuffer =>
    rw [Scan.nextIndex_of_ne (by rw [hpc]; simp)]
    simp only [Scan.step, hpc]
    exact ⟨h.stop, (fun h => by cases h), h.before, (fun h => by cases h),
      fun hm => by rcases hm with hm | ⟨hm, -⟩ <;> cases hm⟩
  | done =>
    rw [Scan.nextIndex_of_ne (by rw [hpc]; simp)]
    simp only [Scan.step, hpc]
    exact ⟨h.stop, (fun h => by cases h), h.before, (fun h => by cases h),
      fun hm => by rcases hm with hm | ⟨hm, -⟩ <;> cases hm⟩
  | notified | finished =>
    rw [Scan.nextIndex_of_ne (by rw [hpc]; simp)]
    simp only [Scan.step, hpc]
    exact h

theorem Rejects.step (h : Rejects m T t args accepts scan) (hchecks : scan.Checks hc accepts) :
    Rejects m T t args accepts (scan.step hc) := by
  rcases h with rfl | ⟨i, hat, hreject⟩
  · exact .inr ⟨0, inLoop_begin false, rejectAt_begin⟩
  · exact .inr ⟨_, hat.stepped hc, hreject.step hat hchecks⟩

/-- A goroutine that has finished without a match has no accepted candidate. -/
theorem Rejects.finished (h : Rejects m T t args accepts scan) (hpc : scan.pc = .finished) {k : ℕ}
    (htests : Tests m T t args k) :
    accepts (toBE args.blocksize (candidate m T t args k)) = false := by
  rcases h with rfl | ⟨i, hat, hreject⟩
  · cases hpc
  · rcases Nat.lt_or_ge k i with hlt | hge
    · exact hreject.before k hlt
    · -- past a candidate that is not tested none is
      have hmono : candidate m T t args i ≤ candidate m T t args k := candidate_mono hge
      refine absurd ⟨?_, hmono.trans_lt htests.2⟩ (hreject.past (.inl hpc))
      rcases htests.1 with rfl | hle
      · exact .inl (Nat.le_zero.mp hge)
      · exact .inr (hmono.trans hle)

end

/-! The steps that are left of a goroutine -/

namespace Scan

/-- How often the goroutine can still go on to a next candidate. -/
def advancesLeft (scan : Scan) : ℕ :=
  (scan.modceil - scan.md.modulusStart) / scan.md.modulusThreadCount

/-- How far the test of one position is. -/
def opsDone : HashOp → ℕ
  | .reset => 0
  | .write => 1
  | .sum => 2
  | .equal _ => 3

/-- The steps that are left under a hash list of `L` entries. -/
def stepsLeft (L : ℕ) (scan : Scan) : ℕ :=
  match scan.pc with
  | .start args =>
    (decode (scan.md.modulusScanFileBytesOrig args)).advancesLeft * (4 * L + 3) + 4 * L + 7
  | .copy => scan.advancesLeft * (4 * L + 3) + 4 * L + 6
  | .check op position _ =>
    scan.advancesLeft * (4 * L + 3) + (4 * (L - position) - opsDone op) + 5
  | .advance => scan.advancesLeft * (4 * L + 3) + 4
  | .exit => 3
  | .setFileBuffer => 2
  | .done => 1
  | .init | .notified | .finished => 0

variable {hc : HashContextList} {scan : Scan}

theorem advancesLeft_advance (hpos : 0 < scan.md.modulusThreadCount)
    (hle : scan.md.modulusStart + scan.md.modulusThreadCount ≤ scan.modceil) :
    (scan.modceil - (scan.md.modulusStart + scan.md.modulusThreadCount)) /
      scan.md.modulusThreadCount + 1 = scan.advancesLeft := by
  rw [advancesLeft, ← Nat.add_div_right _ hpos]
  congr 1
  omega

theorem stepsLeft_step (hrun : scan.pc.isRunning = true)
    (hpos : scan.pc = .advance → 0 < scan.md.modulusThreadCount) :
    (scan.step hc).stepsLeft hc.blockHashList.length < scan.stepsLeft hc.blockHashList.length := by
  cases hpc : scan.pc with
  | start args =>
    simp only [step, stepsLeft, hpc]
    change _ * _ + _ + 6 < _
    exact Nat.lt_succ_self _
  | copy =>
    simp only [step, hpc]
    cases copyModulusStart scan.buf scan.md.blocksizeInt scan.md.modulusStart with
    | none =>
      simp only [stepsLeft, hpc]
      omega
    | some buf =>
      simp only [stepsLeft, hpc, advancesLeft]
      omega
  | check op position start =>
    simp only [step, hpc]
    cases hget : hc.blockHashList[position]? with
    | none =>
      simp only [stepsLeft, hpc]
      omega
    | some entry =>
      have hlt := (List.getElem?_eq_some_iff.mp hget).1
      cases op with
      | reset | write | sum =>
        simp only [stepsLeft, hpc, HashContextList.afterOp, advancesLeft, opsDone]
        omega
      | equal digest =>
        dsimp only [HashContextList.afterOp]
        split_ifs
        · simp only [stepsLeft, hpc, advancesLeft, opsDone]
          omega
        · simp only [stepsLeft, hpc, advancesLeft, opsDone]
          omega
  | advance =>
    simp only [step, hpc]
    split_ifs with hover
    · simp only [stepsLeft, hpc]
      omega
    · simp only [stepsLeft, hpc]
      omega
    · have hnext := advancesLeft_advance (hpos hpc) (Nat.le_of_not_lt hover)
      simp only [stepsLeft, hpc]
      rw [← hnext, Nat.succ_mul _ (4 * hc.blockHashList.length + 3)]
      simp only [advancesLeft]
      omega
  | exit =>
    simp only [step, hpc]
    cases hfound : scan.md.matchFound with
    | true => simp [stepsLeft, hpc]
    | false => simp [stepsLeft, hpc]
  | setFileBuffer => simp [step, stepsLeft, hpc]
  | done => simp [step, stepsLeft, hpc]
  | init | notified | finished =>
    rw [hpc] at hrun
    cases hrun

end Scan

end Mdencode.Go
