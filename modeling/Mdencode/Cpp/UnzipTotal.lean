import Mdencode.Cpp.UnzipProgress

/-! What becomes of an archive under any schedule that leaves nobody out: the
block loop finishes or a thread gets to the edge of its buffer, it writes no more
than the header announces, and when the blocks are told apart, the candidates
fit them and no object is set up while it is in use, it leaves the file behind. -/

namespace Mdencode.Cpp

open Mdencode.Bytes Mdencode.Transition

instance : Countable UnzipAct := by
  apply Function.Injective.countable (f := fun
    | UnzipAct.main => none
    | UnzipAct.thread blk tnum => some (blk, tnum))
  rintro (_ | ⟨_, _⟩) (_ | ⟨_, _⟩) h
  · rfl
  · cases h
  · cases h
  · cases h
    rfl

instance : Nonempty UnzipAct := ⟨.main⟩

/-! Runs that leave the file behind -/

/-- A fair disciplined run leaves the blocks behind. -/
theorem Restorable.output_finally {ρ : Type} {job : UnzipJob ρ} {blocks : List (List UInt8)}
    (h : Restorable job blocks) (hT : 1 ≤ job.threadcount) (hfits : AllFit job blocks)
    {schedule : ℕ → UnzipAct} {run : ℕ → UnzipState ρ} (hfair : Fair schedule)
    (hrun : Scheduled (unzipStep job) Disciplined (UnzipState.initial job) schedule run) :
    ∃ n, Finished job (run n) ∧ (∀ m ≥ n, (run m).output = blocks.flatten) ∧
      ∀ m, ¬ Overruns (run m) := by
  have hcontained (m : ℕ) : ¬ Overruns (run m) :=
    (UnzipInv.of_reach (hrun.reach m)).not_overruns h hfits
  obtain ⟨n, hstays, hend⟩ :=
    exists_finished hT h.one_le_modsize (fun _ _ hok _ => hok) hfair hrun
  have hfinished := hend.resolve_right (hcontained n)
  refine ⟨n, hfinished, fun m hmn => ?_, hcontained⟩
  rw [hstays m hmn]
  exact output_eq_flatten h (hrun.reach n) hfinished.blk

/-! The archives of `mdzipfile` -/

/-- No thread gets past the buffer of a block of the file. -/
def FileFits (args : MdzipArgs) (T : ℕ) : Prop :=
  ∀ i < args.zipBlockcount, ∀ t < T, Fits args.modsize T t (blockPosition i)
    (storedExponent args.zipBlocksize (calcExponent (ofBE (args.block i)))) (args.block i)

section
variable (world : ZipWorld) {args : MdzipArgs}

/-- The job that the reader makes of an archive leads back to the blocks. -/
theorem exists_restorable (memory : UnzipMemory) {T : ℕ} (hm : 2 ≤ args.modsize) (hT : 1 ≤ T)
    (hne : args.file ≠ []) (hsep : FileSeparated world args)
    (hcount : args.zipBlockcount < 2 ^ 31)
    (hones : args.zipBlocksize = 32 → (∃ i < args.zipBlockcount, args.block i = onesBlock) →
      OnesMetInTime args.modsize T) :
    ∃ archive job, mdzipfile world args = .ok (some archive) ∧
      mdunzipfile world.lib memory T args.mdzipname archive = .ok (some job) ∧
      job.threadcount = T ∧
      Restorable job ((List.range args.zipBlockcount).map args.block) ∧
      (FileFits args T → AllFit job ((List.range args.zipBlockcount).map args.block)) := by
  obtain ⟨hcountpos, -⟩ := length_file_eq hne
  have hlist := (hsep 0 hcountpos).ne_nil (length_block hne hcountpos).1
  obtain ⟨archive, job, hzip, hjob, hthreads, hmodsize, hcompare, hlength, hrecords⟩ :=
    mdunzipfile_mdzipfile world memory T hne (le_archiveSize hne hlist) hcount
  have hrecordOf {i : ℕ} {record : BlockRecord Registers} {block : List UInt8}
      (hrecord : job.records[i]? = some record)
      (hblock : ((List.range args.zipBlockcount).map args.block)[i]? = some block) :
      i < args.zipBlockcount ∧ args.block i = block ∧ RecordOf world.lib args.blockList
        (keysAt world args i) args.modsize args.zipBlocksize block record := by
    have hi : i < args.zipBlockcount := hlength ▸ (List.getElem?_eq_some_iff.mp hrecord).1
    obtain rfl : args.block i = block := by simpa [hi] using hblock
    obtain ⟨record', hrecord', hof⟩ := hrecords i hi
    obtain rfl : record = record' := Option.some.inj (hrecord.symm.trans hrecord')
    exact ⟨hi, rfl, hof⟩
  refine ⟨archive, job, hzip, hjob, hthreads, ⟨by omega, by simp [hlength], ?_⟩, ?_⟩
  · intro i record block hrecord hblock
    obtain ⟨hi, rfl, hof⟩ := hrecordOf hrecord hblock
    exact hof.restores world hm hT hne hi (hsep i hi)
      (fun hsize hblock => hones hsize ⟨i, hi, hblock⟩) hthreads hmodsize hcompare
  · intro hfits i record block hrecord hblock t ht
    obtain ⟨hi, rfl, hof⟩ := hrecordOf hrecord hblock
    rw [hof.modexponent, hmodsize, hthreads]
    exact hfits i hi t (hthreads ▸ ht)

/-- Under a fair schedule the file is there in the end, and stays; until then no
thread is at the edge of its buffer. -/
theorem mdunzip_restores_finally (memory : UnzipMemory) {T : ℕ} (hm : 2 ≤ args.modsize)
    (hT : 1 ≤ T) (hne : args.file ≠ []) (hsep : FileSeparated world args)
    (hcount : args.zipBlockcount < 2 ^ 31)
    (hones : args.zipBlocksize = 32 → (∃ i < args.zipBlockcount, args.block i = onesBlock) →
      OnesMetInTime args.modsize T) (hfits : FileFits args T) :
    ∃ archive job, mdzipfile world args = .ok (some archive) ∧
      mdunzipfile world.lib memory T args.mdzipname archive = .ok (some job) ∧
      ∀ schedule run, Fair schedule →
        Scheduled (unzipStep job) Disciplined (UnzipState.initial job) schedule run →
        ∃ n, Finished job (run n) ∧ (∀ m ≥ n, (run m).output = args.file) ∧
          ∀ m, ¬ Overruns (run m) := by
  obtain ⟨archive, job, hzip, hjob, hthreads, hrestorable, hfit⟩ :=
    exists_restorable world memory hm hT hne hsep hcount hones
  refine ⟨archive, job, hzip, hjob, fun schedule run hfair hrun => ?_⟩
  obtain ⟨n, hfinished, houtput, hcontained⟩ :=
    hrestorable.output_finally (hthreads ▸ hT) (hfit hfits) hfair hrun
  exact ⟨n, hfinished, fun m hmn => (houtput m hmn).trans (flatten_blocks hne), hcontained⟩

/-- Two threads stop far below what five bytes hold, and four. -/
theorem nine_fileFits : FileFits nineArgs 2 := by
  intro i hi t ht
  have hi : i < 2 := hi
  right
  rw [decodeLineCount_eq (by omega)]
  interval_cases i <;> interval_cases t <;> decide +kernel

/-- Two blocks, of which the second is short, and two threads. -/
theorem mdunzip_restores_finally_nine : ∃ archive job schedule run n,
    mdzipfile echoWorld nineArgs = .ok (some archive) ∧
    mdunzipfile echoWorld.lib echoMemory 2 nineArgs.mdzipname archive = .ok (some job) ∧
    Fair schedule ∧ Scheduled (unzipStep job) Disciplined (UnzipState.initial job) schedule run ∧
    (run n).output = nineArgs.file ∧ ∀ m, ¬ Overruns (run m) := by
  obtain ⟨archive, job, hzip, hjob, hall⟩ := mdunzip_restores_finally echoWorld echoMemory
    (by decide) one_le_two (by decide) nine_fileSeparated (by decide)
    (fun h => absurd h (by decide)) nine_fileFits
  obtain ⟨schedule, run, hfair, hrun⟩ :=
    exists_fair_scheduled (unzipStep job) Disciplined (UnzipState.initial job)
  obtain ⟨n, -, houtput, hcontained⟩ := hall schedule run hfair hrun
  exact ⟨archive, job, schedule, run, n, hzip, hjob, hfair, hrun, houtput n le_rfl, hcontained⟩

end

/-! Every archive that is accepted -/

section
variable {lib : HashLibrary} {memory : UnzipMemory} {T : ℕ} {filename archive : List UInt8}
  {job : UnzipJob Registers} {ok : UnzipState Registers → UnzipAct → Prop}
  {schedule : ℕ → UnzipAct} {run : ℕ → UnzipState Registers}

/-- Whatever is in the archive, every fair run gets to the end of its blocks and
all threads return, whether or not objects may be set up while they are in use,
unless a thread comes to export a candidate that its buffer cannot hold. -/
theorem unzip_finishes (hT : 1 ≤ T)
    (hjob : mdunzipfile lib memory T filename archive = .ok (some job))
    (hok : ∀ s a, Disciplined s a → Contained s a → ok s a) (hfair : Fair schedule)
    (hrun : Scheduled (unzipStep job) ok (UnzipState.initial job) schedule run) :
    ∃ n, (∀ m ≥ n, run m = run n) ∧ (Finished job (run n) ∨ Overruns (run n)) := by
  obtain ⟨header, nf, -, hsized, hthreads, hmodsize, -, hrecords⟩ := mdunzipfile_eq_some hjob
  by_cases hnil : job.records = []
  · have hstart (n : ℕ) := eq_initial_of_records_nil hnil (hrun.reach n)
    refine ⟨0, fun m _ => by rw [hstart, hstart], .inl ⟨?_, fun p act hact => ?_⟩⟩
    · rw [hstart, hnil]
      rfl
    · rw [hstart] at hact
      cases hact
  · have hm : 1 ≤ job.modsize := by
      rw [hrecords, ← ne_eq, ← List.length_pos_iff, recordsOf, length_readRecords] at hnil
      have := hsized.one_le_modsize (by omega)
      omega
    exact exists_finished (hthreads ▸ hT) hm hok hfair hrun

/-- Two threads that keep out of each other's way. -/
theorem unzip_finishes_nine : ∃ archive job schedule run n,
    mdunzipfile echoWorld.lib echoMemory 2 nineArgs.mdzipname archive = .ok (some job) ∧
    Fair schedule ∧ Scheduled (unzipStep job) Disciplined (UnzipState.initial job) schedule run ∧
    Finished job (run n) := by
  obtain ⟨archive, job, -, hjob, -, hrestorable, hfit⟩ := exists_restorable echoWorld echoMemory
    (by decide) one_le_two (by decide) nine_fileSeparated (by decide)
    (fun h => absurd h (by decide))
  obtain ⟨schedule, run, hfair, hrun⟩ :=
    exists_fair_scheduled (unzipStep job) Disciplined (UnzipState.initial job)
  obtain ⟨n, -, hend⟩ := unzip_finishes one_le_two hjob (fun _ _ h _ => h) hfair hrun
  have hcontained := (UnzipInv.of_reach (hrun.reach n)).not_overruns hrestorable
    (hfit nine_fileFits)
  exact ⟨archive, job, schedule, run, n, hjob, hfair, hrun, hend.resolve_right hcontained⟩

/-! No more than the header announces -/

theorem tmod_nonpos {a : ℤ} (b : ℤ) (h : a ≤ 0) : a.tmod b ≤ 0 := by
  have hneg := Int.neg_tmod (-a) b
  rw [Int.neg_neg] at hneg
  have hpos := Int.tmod_nonneg b (show 0 ≤ -a by omega)
  omega

theorem tdiv_nonpos {a b : ℤ} (ha : a ≤ 0) (hb : 0 ≤ b) : a.tdiv b ≤ 0 := by
  have hneg := Int.neg_tdiv (a := -a) (b := b)
  rw [Int.neg_neg] at hneg
  have hpos := Int.tdiv_nonneg (show 0 ≤ -a by omega) hb
  omega

variable {header : MdzipHeader} {nf : IStream}

/-- Below zero the file size leaves at most one block, of no bytes. -/
theorem sum_recordsOf_of_filesize_neg
    (hcount : calcFileBlocks header.filesize header.blocksize = .ok header.blockcount)
    (hrem : calcFileBlocksRemainder header.filesize header.blocksize = .ok header.blockremainder)
    (hneg : header.filesize < 0) :
    ((recordsOf header nf).map BlockRecord.blocksize).sum = 0 := by
  rcases le_or_gt header.blockcount 0 with hle | hpos
  · exact sum_recordsOf_of_nonpos hle
  · obtain ⟨left, hleft⟩ := Int.eq_ofNat_of_zero_le (show 0 ≤ header.blockcount - 1 by omega)
    have hmod := tmod_nonpos header.blocksize hneg.le
    unfold calcFileBlocks at hcount
    unfold calcFileBlocksRemainder at hrem
    rw [sum_recordsOf_of_pos (show header.blockcount = (left : ℤ) + 1 by omega)]
    rcases lt_or_ge header.blocksize 0 with hlt | hge
    · rw [Int.toNat_of_nonpos hlt.le, Nat.mul_zero, Nat.zero_add]
      apply Int.toNat_of_nonpos
      split_ifs at hrem <;> rw [Except.ok.injEq] at hrem <;> omega
    · have hdiv := tdiv_nonpos hneg.le hge
      split_ifs at hcount with hzero hover htmod
      · rw [Except.ok.injEq] at hcount
        omega
      · rw [if_neg hzero, if_neg hover, if_neg htmod, Except.ok.injEq] at hrem
        rw [Except.ok.injEq] at hcount
        obtain rfl : left = 0 := by omega
        rw [Nat.zero_mul, Nat.zero_add]
        exact Int.toNat_of_nonpos (by omega)

/-- The blocks behind a header are no more than the file it announces. -/
theorem sum_recordsOf_le
    (hcount : calcFileBlocks header.filesize header.blocksize = .ok header.blockcount)
    (hrem : calcFileBlocksRemainder header.filesize header.blocksize = .ok header.blockremainder) :
    ((recordsOf header nf).map BlockRecord.blocksize).sum ≤ header.filesize.toNat := by
  rcases lt_or_ge header.filesize 0 with hneg | hnonneg
  · rw [sum_recordsOf_of_filesize_neg hcount hrem hneg]
    exact Nat.zero_le _
  · obtain ⟨filesize, hfs⟩ := Int.eq_ofNat_of_zero_le hnonneg
    rcases lt_or_gt_of_ne (calcFileBlocks_eq_ok_iff.mp hcount).1 with hlt | hgt
    · obtain ⟨blocksize, hbs⟩ := Int.eq_ofNat_of_zero_le (show 0 ≤ -header.blocksize by omega)
      rw [sum_recordsOf_of_blocksize_neg hcount hrem (show 0 < blocksize by omega) hfs (by omega),
        hfs, Int.toNat_natCast]
      split_ifs
      · exact le_rfl
      · exact Nat.zero_le _
    · obtain ⟨blocksize, hbs⟩ := Int.eq_ofNat_of_zero_le hgt.le
      rw [sum_recordsOf_of_blocksize_pos hcount hrem (show 0 < blocksize by omega) hfs hbs, hfs,
        Int.toNat_natCast]

/-- In no state of any run, however the threads get in each other's way, is
there more output than the header announces, or a block written twice or after
a later one. -/
theorem unzip_writes_in_order (hjob : mdunzipfile lib memory T filename archive = .ok (some job))
    (hread : readHeader memory (IStream.ofBytes archive) = .ok (header, nf))
    {s : UnzipState Registers} (hreach : Reach (unzipStep job) Free (UnzipState.initial job) s) :
    (s.out.map Chunk.block).Pairwise (· < ·) ∧ s.output.length ≤ header.filesize.toNat := by
  obtain ⟨header', nf', hread', -, -, -, -, hrecords⟩ := mdunzipfile_eq_some hjob
  rw [hread, Except.ok.injEq, Prod.mk.injEq] at hread'
  obtain ⟨rfl, rfl⟩ := hread'
  obtain ⟨hcount, hrem⟩ := calcFileBlocks_of_readHeader hread
  have hout := OutInv.of_reach hreach
  refine ⟨hout.order, hout.length.trans ?_⟩
  calc ((job.records.take s.passed).map BlockRecord.blocksize).sum
      ≤ (job.records.map BlockRecord.blocksize).sum :=
        ((List.take_sublist _ _).map _).sum_le_sum fun _ _ => Nat.zero_le _
    _ ≤ header.filesize.toNat := hrecords ▸ sum_recordsOf_le hcount hrem

/-- The run that gives up the block of ones. -/
theorem unzip_writes_in_order_ones : ∃ archive job header nf, ∃ s : UnzipState Registers,
    mdunzipfile echoWorld.lib echoMemory 1 (echoArgs onesBlock (by simp [onesBlock])).mdzipname
      archive = .ok (some job) ∧
    readHeader echoMemory (IStream.ofBytes archive) = .ok (header, nf) ∧
    s.blk = job.records.length ∧ (s.out.map Chunk.block).Pairwise (· < ·) ∧
    s.output.length ≤ header.filesize.toNat := by
  obtain ⟨archive, job, record, s, -, hjob, -, hreach, hend, -⟩ := exists_ones_run
  obtain ⟨header, nf, hread, -⟩ := mdunzipfile_eq_some hjob
  exact ⟨archive, job, header, nf, s, hjob, hread, hend, unzip_writes_in_order hjob hread hreach⟩

end

end Mdencode.Cpp
