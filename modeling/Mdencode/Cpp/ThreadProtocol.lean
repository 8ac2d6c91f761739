import Mdencode.Cpp.UnzipInvariant

/-! Safety of the rounds of the block loop, and a run that is not safe. After
its ceiling a thread writes `stopped` twice; when main resets the object
between the two writes, the second one tells main that the next thread has
stopped while it is still running. -/

namespace Mdencode.Cpp

open Mdencode.Bytes Mdencode.Transition

section
variable {ρ : Type} {job : UnzipJob ρ} {s s' : UnzipState ρ}

variable (job) in
/-- What main may rely on in a state of the block loop. -/
structure RoundSafe (s : UnzipState ρ) : Prop where
  /-- NOTFOUND is only seen when all threads of the round passed their ceiling. -/
  notfound : s.mutex.isMatched = .notfound → ∀ t < job.threadcount,
    ∃ act, s.acts (s.blk, t) = some act ∧ act.pc.passedCeiling = true
  /-- What was written is the buffer that a thread of that round matched. -/
  written : ∀ c ∈ s.out, c.thread < job.threadcount ∧
    ∃ act, s.acts (c.block, c.thread) = some act ∧ act.pc.hasMatched c.bytes
  /-- Whoever is about to report belongs to the current round. -/
  own_round : ∀ r t act, s.acts (r, t) = some act →
    (act.pc = .incNotFound ∨ ∃ buf, act.pc = .setMatched buf) → r = s.blk
  /-- FOUND ends only with main's reset. -/
  found : s.mutex.isMatched = .found → ∀ a s', unzipStep job s a = some s' →
    s'.mutex.isMatched = .found ∨ a = .main ∧ s.main = .resetMatched

theorem UnzipInv.own_round (h : UnzipInv job s) {r t : ℕ} {act : Activation}
    (hact : s.acts (r, t) = some act)
    (hpc : act.pc = .incNotFound ∨ ∃ buf, act.pc = .setMatched buf) : r = s.blk := by
  rcases lt_trichotomy r s.blk with hr | hr | hr
  · have hstopped := (h.stale r hr t act hact).1
    rcases hpc with hpc | ⟨buf, hpc⟩ <;> rw [hpc] at hstopped <;> cases hstopped
  · exact hr
  · rw [h.absent r t (.inl hr)] at hact
    cases hact

theorem UnzipInv.found (h : UnzipInv job s) (hfound : s.mutex.isMatched = .found) {a : UnzipAct}
    (hstep : unzipStep job s a = some s') :
    s'.mutex.isMatched = .found ∨ a = .main ∧ s.main = .resetMatched := by
  obtain ⟨record, rfl, -, rfl⟩ | ⟨r, t, act, rfl, hact, -, rfl⟩ := unzipStep_cases hstep
  · by_cases hreset : s.main = .resetMatched
    · exact .inr ⟨rfl, hreset⟩
    · left
      unfold Mdencode.Cpp.mainStep
      cases hpc : s.main with
      | resetMatched => exact absurd hpc hreset
      | _ => first | exact hfound | (dsimp only; split_ifs <;> exact hfound)
  · left
    rw [threadStep_eq]
    dsimp only
    by_cases hreport : act.pc = .incNotFound ∨ ∃ buf, act.pc = .setMatched buf
    · obtain rfl := h.own_round hact hreport
      rw [h.threadnumber hact]
      exact h.ledger.found_step job.compareBlockHashList (h.lt_threadcount hact) hact (s.mst t)
        hfound
    · rw [not_or, not_exists] at hreport
      rw [mutexStep_eq hreport.2 hreport.1]
      exact hfound

/-- Every state of a disciplined run is safe. -/
theorem round_safe (hreach : Reach (unzipStep job) Disciplined (UnzipState.initial job) s) :
    RoundSafe job s := by
  have h := UnzipInv.of_reach hreach
  refine ⟨fun hnot t ht => ?_, fun c hc => ?_, fun r t act hact hpc => h.own_round hact hpc,
    fun hfound a s' hstep => h.found hfound hstep⟩
  · have hfull : passedThreads job.threadcount (fun t => s.acts (s.blk, t)) =
        Finset.range job.threadcount :=
      Finset.eq_of_subset_of_card_le (Finset.filter_subset _ _) (by
        rw [Finset.card_range, ← h.ledger.notFound, h.ledger.notfound hnot])
    exact (mem_passedThreads.mp (hfull ▸ Finset.mem_range.mpr ht)).2
  · obtain ⟨-, act, hact, hbuf⟩ := h.out c hc
    exact ⟨h.lt_threadcount hact, act, hact, hbuf⟩

end

/-! The run -/

theorem staleRecords_blocksize : ∀ record ∈ ([⟨[0], 1, 0, 1⟩, ⟨[1], 1, 1, 1⟩, ⟨[1], 1, 1, 1⟩] :
    List (BlockRecord (List UInt8))), record.blocksize = 1 := by
  simp

/-- The file `00 01 01` in blocks of one byte, with modsize 8 and two threads;
a digest is the block itself. -/
def staleJob : UnzipJob (List UInt8) where
  threadcount := 2
  modsize := 8
  blocksize := 1
  registers := []
  compareBlockHashList := fun block buf => decide (buf = block)
  records := [⟨[0], 1, 0, 1⟩, ⟨[1], 1, 1, 1⟩, ⟨[1], 1, 1, 1⟩]
  blocksize_eq := fun _ record h _ => staleRecords_blocksize record (List.mem_of_getElem? h)
  blocksize_le := fun _ record h => (staleRecords_blocksize record (List.mem_of_getElem? h)).le

/-- Main has set both objects up for block 0 and started both threads. -/
def staleStart : List UnzipAct := List.replicate 6 .main

/-- Thread 1 goes past its ceiling, thread 0 matches, main goes on to block 1
and then to block 2, while thread 1 of block 0 makes its second write and
thread 1 of block 1 finds a match. -/
def staleRest : List UnzipAct :=
  List.replicate 2 (.thread 0 1) ++ List.replicate 4 (.thread 0 0) ++
  List.replicate 16 .main ++ [.thread 0 1] ++ List.replicate 2 (.thread 1 1) ++
  List.replicate 4 (.thread 1 0) ++ List.replicate 10 .main

/-- Object 1 as main leaves it for block 0. -/
def staleScan : Modscan (List UInt8) :=
  prepareThread staleJob 0 1 ⟨[0], 1, 0, 1⟩ (Modscan.new [])

/-- The iteration in which thread 1 looks at its ceiling. -/
def staleStop : ℕ := 102000001

theorem exported_one_ne {v : ℕ} (hv : 0 < v) : exported 1 v ≠ [0] := by
  unfold exported
  split_ifs with hlt
  · intro heq
    have hval := ofBE_toBE_of_lt hlt
    rw [heq] at hval
    simp [ofBE] at hval
    omega
  · obtain ⟨b, rest, hmag, hb⟩ := exists_magBE_eq_cons hv
    rw [hmag]
    simpa using hb

theorem staleScan_candidate (i : ℕ) : staleScan.candidate i = 255 + i * 510 := rfl

theorem staleScan_rejects (i : ℕ) :
    staleJob.compareBlockHashList staleScan.hcl (staleScan.tested i) = false := by
  apply decide_eq_false
  rw [Modscan.tested, staleScan_candidate]
  exact exported_one_ne (by omega)

theorem staleScan_passed (i : ℕ) (hi : i < staleStop) :
    Passed staleJob.compareBlockHashList staleScan (decodeLineCount 1) i := by
  refine ⟨staleScan_rejects i, fun hcheck => ?_⟩
  · rw [decodeLineCount_eq (by norm_num), checksCeiling_iff] at hcheck
    have := Nat.le_of_dvd hcheck.1 hcheck.2
    unfold staleStop at hi
    omega

/-- Main waits for block 0 with both threads started. -/
def staleStarted : UnzipState (List UInt8) where
  main := .poll
  blk := 0
  mst := Function.update (Function.update (fun _ => Modscan.new []) 0
    (prepareThread staleJob 0 0 ⟨[0], 1, 0, 1⟩ (Modscan.new []))) 1 staleScan
  mutex := MdMutex.new 2
  acts := Function.update
    (Function.update (fun _ => none) (0, 0) (some (Activation.start 0))) (0, 1)
    (some (Activation.start 1))
  out := []

theorem exec_staleStart :
    exec (unzipStep staleJob) (UnzipState.initial staleJob) staleStart = some staleStarted := by
  rfl

/-- The object that main is about to set up. -/
def MainPc.setsUp : MainPc → Option ℕ
  | .setModscan tnum => some tnum
  | _ => none

theorem MainPc.setsUp_eq_some {p : MainPc} {tnum : ℕ} :
    p.setsUp = some tnum ↔ p = .setModscan tnum := by
  cases p <;> simp [setsUp]

instance {ρ : Type} (s : UnzipState ρ) (a : UnzipAct) : Decidable (Disciplined s a) :=
  decidable_of_iff (a = .main → ∀ tnum ∈ s.main.setsUp, ∀ r < s.blk, ∀ act ∈ s.acts (r, tnum),
    act.pc.isDone = true) <| by
    simp only [Option.mem_def, MainPc.setsUp_eq_some, Disciplined]

/-- Thread 0 matches and main writes its buffer; thread 1 is stopped, and returns
before main sets both objects up for block 1 and starts their threads. -/
def disciplinedRun : List UnzipAct :=
  staleStart ++ List.replicate 4 (.thread 0 0) ++ List.replicate 7 .main ++
  List.replicate 2 (.thread 0 1) ++ List.replicate 9 .main

theorem round_safe_next_block : ∃ s,
    Reach (unzipStep staleJob) Disciplined (UnzipState.initial staleJob) s ∧ s.blk = 1 ∧
    s.main = .poll ∧ s.out = [⟨0, 0, [0]⟩] ∧ RoundSafe staleJob s := by
  have hrun : (exec (fun s a => if Disciplined s a then unzipStep staleJob s a else none)
      (UnzipState.initial staleJob) disciplinedRun).map (fun s => (s.blk, s.main, s.out)) =
        some (1, .poll, [⟨0, 0, [0]⟩]) := by decide +kernel
  obtain ⟨s, hs, hplace⟩ := Option.map_eq_some_iff.mp hrun
  obtain ⟨hblk, hmain, hout⟩ : s.blk = 1 ∧ s.main = .poll ∧ s.out = [⟨0, 0, [0]⟩] := by
    simpa using hplace
  have hreach := Reach.of_exec_checked disciplinedRun hs
  exact ⟨s, hreach, hblk, hmain, hout, round_safe hreach⟩

/-- Thread 1 has found its candidate above the ceiling. -/
def staleAbove : UnzipState (List UInt8) := { staleStarted with
  mst := Function.update staleStarted.mst 1
    { staleScan with
      blockInt := staleScan.candidate staleStop, byteblock := staleScan.tested staleStop }
  acts := Function.update staleStarted.acts (0, 1)
    (some { pc := .incNotFound, lineNum := 0, lineCount := decodeLineCount 1 }) }

theorem reach_staleAbove :
    Reach (unzipStep staleJob) Free (UnzipState.initial staleJob) staleAbove := by
  have hscan : Reach (decodeAct staleJob.compareBlockHashList) Quiet
      (staleScan, Activation.start 1) (scanState staleScan (decodeLineCount 1) staleStop) :=
    reach_scanState rfl rfl staleScan_passed
  have hcheck : ChecksCeiling (decodeLineCount 1) staleStop := by
    rw [decodeLineCount_eq (by norm_num), checksCeiling_iff]
    decide
  have hceil : staleScan.modulusExpIntCeil < staleScan.candidate staleStop := by decide
  have hstep : decodeAct staleJob.compareBlockHashList
      (scanState staleScan (decodeLineCount 1) staleStop) .step =
        some (staleAbove.mst 1, ⟨.incNotFound, 0, decodeLineCount 1⟩) := by
    have hlen : staleScan.byteblock.length = staleScan.blocksize := rfl
    change some ((scanState staleScan (decodeLineCount 1) staleStop).1.decodeStep _
      (scanState staleScan (decodeLineCount 1) staleStop).2) = _
    rw [decodeStep_scanState hlen, staleScan_rejects, if_neg (by simp), if_pos hcheck,
      if_pos hceil]
    rfl
  exact (Reach.of_exec staleStart exec_staleStart).trans
    (reach_quiet rfl rfl (hscan.next .step ⟨rfl, .inr (.inl rfl)⟩ hstep))

/-- Main is in block 2 while thread 1 of block 1 is about to report its match. -/
theorem exec_staleRest :
    (exec (unzipStep staleJob) staleAbove staleRest).map (fun s =>
      (s.blk, (s.acts (1, 1)).map Activation.pc)) = some (2, some (.setMatched [1])) := by
  decide +kernel

/-- Some run counts the match of one block in the next. -/
theorem stale_match_counted :
    ∃ s, Reach (unzipStep staleJob) Free (UnzipState.initial staleJob) s ∧
      ¬ RoundSafe staleJob s := by
  obtain ⟨s, hexec, hs⟩ := Option.map_eq_some_iff.mp exec_staleRest
  obtain ⟨hblk, hpc⟩ := Prod.mk.inj hs
  obtain ⟨act, hact, hpc⟩ := Option.map_eq_some_iff.mp hpc
  refine ⟨s, reach_staleAbove.trans (Reach.of_exec _ hexec), fun hsafe => ?_⟩
  have hround := hsafe.own_round 1 1 act hact (.inr ⟨[1], hpc⟩)
  omega

end Mdencode.Cpp
