import Mdencode.Go.UnzipInvariant

/-! Safety of the block loop of `DecodeFile`, and a run that is not safe. The
first statement of a goroutine clears the stop flag, so that a goroutine that
starts late undoes the `StopScan` of main. -/

namespace Mdencode.Go

open Mdencode.Bytes Mdencode.Transition

/-- What the block loop is for, in one state of a run. -/
structure ProtocolSafe (job : UnzipJob) (s : UnzipState) : Prop where
  /-- What was written for a block is what a scan of that block has matched. -/
  written : ∀ w ∈ s.written, ∃ t < job.threadCount, (s.scans (w.1, t)).pc = .notified ∧
    (s.scans (w.1, t)).md.byteblock = w.2 ∧ job.accepts w.1 w.2
  /-- A scan that main has stopped is still stopped. -/
  stopped : ∀ i t, s.stopIssued job i t → (s.scans (i, t)).md.stop = true
  /-- No more goroutines of a block are done than main has added for it. -/
  dones_le : ∀ i, s.dones job i ≤ s.adds i

variable {job : UnzipJob} {s : UnzipState}

theorem UnzipInv.dones_le_one (h : UnzipInv job s) (i : ℕ) : s.dones job i ≤ 1 := by
  rw [UnzipState.dones, ← List.toFinset_card_of_nodup (List.nodup_range.filter _),
    Finset.card_le_one]
  intro t ht t' ht'
  simp only [List.mem_toFinset, List.mem_filter, decide_eq_true_eq] at ht ht'
  exact h.unique i t t' (by rw [ht.2]; rfl) (by rw [ht'.2]; rfl)

/-- A block that main has not added one for has no goroutine. -/
theorem UnzipInv.dones_eq_zero (h : UnzipInv job s) {i : ℕ} (hi : s.adds i = 0) :
    s.dones job i = 0 := by
  have hlate : s.blockNumber < i ∨ i = s.blockNumber ∧ s.main = .add := by
    unfold UnzipState.adds at hi
    split_ifs at hi with hadd
    rw [not_or, not_and, not_not] at hadd
    rcases (Nat.le_of_not_lt hadd.1).lt_or_eq with hlt | heq
    · exact .inl hlt
    · exact .inr ⟨heq.symm, hadd.2 heq.symm⟩
  rw [UnzipState.dones, List.length_eq_zero_iff, List.filter_eq_nil_iff]
  intro t _ hpc
  have hinit := (h.fresh i t (.inr (hlate.imp_right fun hcur =>
    ⟨hcur.1, by rw [hcur.2]; trivial⟩))).1
  rw [hinit] at hpc
  cases hpc

/-- Every state of a timely run is safe. -/
theorem goroutines_safe (hreach : Reach (unzipStep job) (Timely job) (UnzipState.initial job) s) :
    ProtocolSafe job s := by
  have h := UnzipInv.of_reach hreach
  refine ⟨fun w hw => ?_, h.stopped, fun i => ?_⟩
  · obtain ⟨t, ht, hbyte⟩ := h.written w hw
    have hmatched := h.matched w.1 t (by rw [ht]; rfl)
    rw [hbyte] at hmatched
    exact ⟨t, h.lt_threadCount (by rw [ht]; nofun), ht, hbyte, hmatched⟩
  · rcases Nat.eq_zero_or_pos (s.adds i) with hzero | hpos
    · exact (h.dones_eq_zero hzero).trans_le (Nat.zero_le _)
    · exact (h.dones_le_one i).trans hpos

/-! The run -/

/-- The file `05` in one block with modsize 8 and two goroutines. -/
def lateJob : UnzipJob where
  threadCount := 2
  modSize := 8
  blockHashList := [⟨ascii "crc32", 4, crc32.sum⟩]
  records := [⟨crc32.sum [5], ⟨2, 5, 1⟩⟩]

/-- Both goroutines are launched, the first one matches, and main writes the
block and stops both scans. -/
def lateRun : List UnzipAct :=
  List.replicate 6 .main ++ List.replicate 10 (.goroutine 0 0) ++ List.replicate 8 .main

/-- The run is timely as long as the second goroutine does not start. -/
theorem goroutines_safe_late :
    ∃ s, Reach (unzipStep lateJob) (Timely lateJob) (UnzipState.initial lateJob) s ∧
      s.written = [(0, [5])] ∧ ProtocolSafe lateJob s := by
  have hrun : (exec (fun s a => if Timely lateJob s a then unzipStep lateJob s a else none)
      (UnzipState.initial lateJob) lateRun).map UnzipState.written = some [(0, [5])] := by
    decide +kernel
  obtain ⟨s, hs, hwritten⟩ := Option.map_eq_some_iff.mp hrun
  have hreach := Reach.of_exec_checked lateRun hs
  exact ⟨s, hreach, hwritten, goroutines_safe hreach⟩

/-- The second goroutine starts after main has stopped its scan. -/
theorem late_start_undoes_stop :
    ∃ s, Reach (unzipStep lateJob) Free (UnzipState.initial lateJob) s ∧
      ¬ ProtocolSafe lateJob s := by
  have hrun : (exec (unzipStep lateJob) (UnzipState.initial lateJob)
      (lateRun ++ [.goroutine 0 1])).map (fun s =>
        (s.main, s.blockNumber, (s.scans (0, 1)).md.stop)) = some (.resetMutex, 0, false) := by
    decide +kernel
  obtain ⟨s, hs, hstate⟩ := Option.map_eq_some_iff.mp hrun
  obtain ⟨hmain, hstate⟩ := Prod.mk.inj hstate
  obtain ⟨hblk, hstop⟩ := Prod.mk.inj hstate
  refine ⟨s, Reach.of_exec _ hs, fun hsafe => ?_⟩
  have hissued : s.stopIssued lateJob 0 1 :=
    ⟨Nat.one_lt_two, .inr ⟨hblk.symm, by rw [hmain]; trivial⟩⟩
  rw [hsafe.stopped 0 1 hissued] at hstop
  cases hstop

end Mdencode.Go
