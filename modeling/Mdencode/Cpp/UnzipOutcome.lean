import Mdencode.Cpp.FileValidation
import Mdencode.Cpp.ValidateMdZip
import Mdencode.Cpp.RoundTrip

/-! What `mdunzipfile` returns, and when that says that all of the file is there.
A round that ends without a match is logged and the loop goes on; without
`--val` nothing is looked at afterwards. -/

namespace Mdencode.Cpp

open Mdencode.Bytes Mdencode.Transition

/-- What is returned after the block loop. -/
def unzipReturn (lib : HashLibrary) (header : MdzipHeader) (output : Registers) (validate : Bool)
    (s : UnzipState Registers) : ℕ :=
  if validate then
    if header.hclfile.compareFileHashList lib output s.output then 0 else 1
  else 0

/-- The round of block `i` has found a match and written it. -/
def RoundFound {ρ : Type} (s : UnzipState ρ) (i : ℕ) : Prop := ∃ c ∈ s.out, c.block = i

/-- All rounds have found a match and the output has the size in the header. -/
def Complete (job : UnzipJob Registers) (header : MdzipHeader) (s : UnzipState Registers) : Prop :=
  (∀ i < job.records.length, RoundFound s i) ∧ (s.output.length : ℤ) = header.filesize

/-- The sizes in the header under which the blocks make up the file. -/
def MdzipHeader.SizesFit (header : MdzipHeader) : Prop :=
  0 ≤ header.filesize ∧ (0 < header.blocksize ∨ header.filesize < -header.blocksize)

/-! What the sizes in the header add up to -/

section
variable {R : Type} {read : Bool → ℤ → R → BlockRecord Registers × R}
  {blocksize blockremainder : ℤ}

theorem sum_blocksize_readRecords
    (hread : ∀ last currblocksize r, (read last currblocksize r).1.blocksize = currblocksize.toNat)
    (left : ℕ) (r : R) :
    ((readRecords read blocksize blockremainder (left + 1) r).map BlockRecord.blocksize).sum =
      left * blocksize.toNat + blockremainder.toNat := by
  induction left generalizing r with
  | zero =>
    have hlast : (if 0 = 0 ∧ blockremainder ≠ blocksize then blockremainder else blocksize) =
        blockremainder := by
      split_ifs <;> simp_all
    rw [readRecords, List.map_cons, List.sum_cons, hread, hlast]
    simp [readRecords]
  | succ left ih =>
    rw [readRecords, List.map_cons, List.sum_cons, ih, hread, if_neg (by omega)]
    ring

end

section
variable {header : MdzipHeader} {nf : IStream}

theorem sum_recordsOf_of_nonpos (h : header.blockcount ≤ 0) :
    ((recordsOf header nf).map BlockRecord.blocksize).sum = 0 := by
  rw [recordsOf, Int.toNat_of_nonpos h]
  rfl

theorem sum_recordsOf_of_pos {left : ℕ} (h : header.blockcount = (left : ℤ) + 1) :
    ((recordsOf header nf).map BlockRecord.blocksize).sum =
      left * header.blocksize.toNat + header.blockremainder.toNat := by
  rw [recordsOf, h, show ((left : ℤ) + 1).toNat = left + 1 by omega]
  exact sum_blocksize_readRecords
    (fun _ => readRecord_blocksize (incKeyOf header.mdversion) header.blocksize) left _

variable (hcount : calcFileBlocks header.filesize header.blocksize = .ok header.blockcount)
  (hrem : calcFileBlocksRemainder header.filesize header.blocksize = .ok header.blockremainder)
include hcount hrem

/-- Blocks of a positive size make up any file. -/
theorem sum_recordsOf_of_blocksize_pos {filesize blocksize : ℕ} (hblock : 0 < blocksize)
    (hfs : header.filesize = filesize) (hbs : header.blocksize = blocksize) :
    ((recordsOf header nf).map BlockRecord.blocksize).sum = filesize := by
  rw [hfs, hbs, calcFileBlocks_natCast hblock, Except.ok.injEq] at hcount
  rw [hfs, hbs, calcFileBlocksRemainder_natCast hblock, Except.ok.injEq] at hrem
  rcases Nat.eq_zero_or_pos filesize with rfl | hpos
  · rw [sum_recordsOf_of_nonpos]
    rw [← hcount, Nat.div_eq_of_lt (by omega)]
    rfl
  · obtain ⟨hblocks, hsum⟩ := length_eq_blocks hpos hblock
    obtain ⟨left, hleft⟩ := Nat.exists_eq_add_of_le' hblocks
    rw [hleft] at hcount hsum
    rw [sum_recordsOf_of_pos (by rw [← hcount]; push_cast; rfl), ← hrem, hbs, Int.toNat_natCast,
      Int.toNat_natCast]
    exact hsum.symm

/-- Below zero the block size only serves a file that is shorter than one block. -/
theorem sum_recordsOf_of_blocksize_neg {filesize blocksize : ℕ} (hblock : 0 < blocksize)
    (hfs : header.filesize = filesize) (hbs : header.blocksize = -(blocksize : ℤ)) :
    ((recordsOf header nf).map BlockRecord.blocksize).sum =
      if filesize < blocksize then filesize else 0 := by
  have hdiv : (filesize : ℤ).tdiv (-(blocksize : ℤ)) = -((filesize / blocksize : ℕ) : ℤ) := by
    rw [Int.tdiv_neg, ← Int.ofNat_tdiv]
  have hmod : (filesize : ℤ).tmod (-(blocksize : ℤ)) = (filesize % blocksize : ℕ) := by
    rw [Int.tmod_neg, ← Int.ofNat_tmod]
  rw [hfs, hbs, calcFileBlocks, if_neg (by omega), if_neg (by omega), hdiv, hmod] at hcount
  rw [hfs, hbs, calcFileBlocksRemainder, if_neg (by omega), if_neg (by omega), hmod] at hrem
  split_ifs with hlt
  · rw [Nat.div_eq_of_lt hlt, Nat.mod_eq_of_lt hlt] at hcount
    rw [Nat.mod_eq_of_lt hlt] at hrem
    rcases Nat.eq_zero_or_pos filesize with rfl | hpos
    · rw [if_pos Nat.cast_zero, Except.ok.injEq] at hcount
      exact sum_recordsOf_of_nonpos (by omega)
    · rw [if_neg (by omega), Except.ok.injEq] at hcount hrem
      rw [sum_recordsOf_of_pos (show header.blockcount = ((0 : ℕ) : ℤ) + 1 by omega)]
      omega
  · have hdivpos := Nat.div_pos (Nat.le_of_not_lt hlt) hblock
    apply sum_recordsOf_of_nonpos
    split_ifs at hcount <;> rw [Except.ok.injEq] at hcount <;> omega

/-- The blocks behind a header make up a file of its size exactly when the sizes fit. -/
theorem sum_blocksize_eq_iff (nf : IStream) :
    ((((recordsOf header nf).map BlockRecord.blocksize).sum : ℕ) : ℤ) = header.filesize ↔
      header.SizesFit := by
  have hzero : header.blocksize ≠ 0 := (calcFileBlocks_eq_ok_iff.mp hcount).1
  unfold MdzipHeader.SizesFit
  rcases lt_or_ge header.filesize 0 with hneg | hnonneg
  · exact iff_of_false (by omega) (by omega)
  · obtain ⟨filesize, hfs⟩ := Int.eq_ofNat_of_zero_le hnonneg
    rcases lt_or_gt_of_ne hzero with hlt | hgt
    · obtain ⟨blocksize, hbs⟩ := Int.eq_ofNat_of_zero_le (show 0 ≤ -header.blocksize by omega)
      rw [sum_recordsOf_of_blocksize_neg hcount hrem (show 0 < blocksize by omega) hfs (by omega)]
      split_ifs <;> omega
    · obtain ⟨blocksize, hbs⟩ := Int.eq_ofNat_of_zero_le hgt.le
      rw [sum_recordsOf_of_blocksize_pos hcount hrem (show 0 < blocksize by omega) hfs hbs]
      exact iff_of_true hfs.symm ⟨hnonneg, .inl hgt⟩

end

/-! What a run has written -/

section
variable {ρ : Type} {job : UnzipJob ρ} {s s' : UnzipState ρ} {record : BlockRecord ρ}

/-- Every chunk has the size of its block and an accepted record; when all
records are accepted no block is left out. -/
structure WrittenSoFar (job : UnzipJob ρ) (s : UnzipState ρ) : Prop where
  inv : UnzipInv job s
  chunks : ∀ c ∈ s.out, ∃ record, job.records[c.block]? = some record ∧
    c.bytes.length = record.blocksize ∧ Accepted job c.block record
  order : (∀ i record, job.records[i]? = some record → Accepted job i record) → InOrder job s

theorem WrittenSoFar.mainStep (hm : 1 ≤ job.modsize) (h : WrittenSoFar job s)
    (hrecord : job.records[s.blk]? = some record) (hinv : UnzipInv job (mainStep job s record)) :
    WrittenSoFar job (mainStep job s record) := by
  refine ⟨hinv, fun c hc => ?_, fun hall => ?_⟩
  · rcases mem_out_mainStep h.inv hrecord hc with hold | ⟨k, act, buf, hact, hbuf, rfl⟩
    · exact h.chunks c hold
    · obtain ⟨haccepted, hlen⟩ := accepted_of_matched hm h.inv hrecord hact hbuf
      exact ⟨record, hrecord, hlen, haccepted⟩
  · exact (h.order hall).mainStep record (List.getElem?_eq_some_iff.mp hrecord).1
      (not_notfound hm h.inv hrecord (hall s.blk record hrecord))

theorem WrittenSoFar.step (hm : job.records ≠ [] → 1 ≤ job.modsize) (h : WrittenSoFar job s)
    {a : UnzipAct} (hok : Disciplined s a) (hstep : unzipStep job s a = some s') :
    WrittenSoFar job s' := by
  have hinv := h.inv.step hok hstep
  obtain ⟨record, rfl, hrecord, rfl⟩ | ⟨r, t, act, rfl, -, -, rfl⟩ := unzipStep_cases hstep
  · exact h.mainStep (hm (List.ne_nil_of_mem (List.mem_of_getElem? hrecord))) hrecord hinv
  · exact ⟨hinv, h.chunks, fun hall => (h.order hall).keep rfl rfl rfl⟩

theorem WrittenSoFar.of_reach (hm : job.records ≠ [] → 1 ≤ job.modsize)
    (h : Reach (unzipStep job) Disciplined (UnzipState.initial job) s) : WrittenSoFar job s := by
  refine h.invariant ⟨UnzipInv.initial, by simp [UnzipState.initial], fun _ => ⟨rfl, ?_⟩⟩
    fun _ _ _ hs hok hstep => hs.step hm hok hstep
  intro hwritten
  cases hwritten

/-- A run that has written every block has written as many bytes as the blocks have. -/
theorem WrittenSoFar.length_output (h : WrittenSoFar job s)
    (horder : s.out.map Chunk.block = List.range job.records.length) :
    s.output.length = (job.records.map BlockRecord.blocksize).sum := by
  have hlengths : s.out.map (fun c => c.bytes.length) =
      job.records.map BlockRecord.blocksize := by
    apply map_chunks_eq (by rw [List.length_map]; exact horder)
    intro c hc
    obtain ⟨record, hrecord, hlen, -⟩ := h.chunks c hc
    rw [List.getElem?_map, hrecord, hlen]
    rfl
  rw [UnzipState.output, List.length_flatMap, hlengths]

end

/-- Success goes with a complete output in exactly the runs over headers with
sizes that fit and records that are all accepted. -/
theorem unzip_complete_iff {lib : HashLibrary} {memory : UnzipMemory} {T : ℕ}
    {filename archive : List UInt8} {job : UnzipJob Registers} {header : MdzipHeader}
    {nf : IStream} {s : UnzipState Registers} (output : Registers)
    (hjob : mdunzipfile lib memory T filename archive = .ok (some job))
    (hread : readHeader memory (IStream.ofBytes archive) = .ok (header, nf))
    (hrun : Reach (unzipStep job) Disciplined (UnzipState.initial job) s)
    (hend : s.blk = job.records.length) :
    (unzipReturn lib header output false s = 0 → Complete job header s) ↔
      header.SizesFit ∧ ∀ i record, job.records[i]? = some record → Accepted job i record := by
  obtain ⟨header', nf', hread', hsized, -, hmodsize, -, hrecords⟩ := mdunzipfile_eq_some hjob
  rw [hread, Except.ok.injEq, Prod.mk.injEq] at hread'
  obtain ⟨rfl, rfl⟩ := hread'
  obtain ⟨hcount, hrem⟩ := calcFileBlocks_of_readHeader hread
  have hm : job.records ≠ [] → 1 ≤ job.modsize := by
    intro hne
    rw [hrecords, ← List.length_pos_iff, recordsOf, length_readRecords] at hne
    have := hsized.one_le_modsize (by omega)
    omega
  have hwritten := WrittenSoFar.of_reach hm hrun
  have hsum := sum_blocksize_eq_iff hcount hrem nf
  rw [← hrecords] at hsum
  constructor
  · intro hcomplete
    obtain ⟨hfound, hlen⟩ := hcomplete rfl
    have hall : ∀ i record, job.records[i]? = some record → Accepted job i record := by
      intro i record hrecord
      obtain ⟨c, hc, rfl⟩ := hfound i (List.getElem?_eq_some_iff.mp hrecord).1
      obtain ⟨record', hrecord', -, haccepted⟩ := hwritten.chunks c hc
      rw [hrecord, Option.some.injEq] at hrecord'
      exact hrecord' ▸ haccepted
    rw [hwritten.length_output ((hwritten.order hall).complete hend)] at hlen
    exact ⟨hsum.mp hlen, hall⟩
  · rintro ⟨hfit, hall⟩ -
    have horder := (hwritten.order hall).complete hend
    refine ⟨fun i hi => ?_, ?_⟩
    · have hmem : i ∈ s.out.map Chunk.block := by
        rw [horder]
        exact List.mem_range.mpr hi
      exact List.mem_map.mp hmem
    · rw [hwritten.length_output horder]
      exact hsum.mpr hfit

/-- In a job of one record no thread is ever left over from an earlier block. -/
theorem disciplined_of_single {ρ : Type} {job : UnzipJob ρ} {record : BlockRecord ρ}
    {s : UnzipState ρ} (hone : job.records = [record])
    (h : Reach (unzipStep job) Free (UnzipState.initial job) s) :
    Reach (unzipStep job) Disciplined (UnzipState.initial job) s := by
  induction h with
  | start => exact .start
  | next a _ _ hstep ih =>
    refine ih.next a ?_ hstep
    rintro rfl tnum - r hr
    obtain ⟨record', -, hrecord, -⟩ | ⟨_, _, _, hthread, -⟩ := unzipStep_cases hstep
    · have hlt := (List.getElem?_eq_some_iff.mp hrecord).1
      rw [hone, List.length_singleton] at hlt
      omega
    · cases hthread

/-- The run that gives up the block of ones. -/
theorem unzip_complete_iff_ones :
    ∃ archive job header nf s,
      mdunzipfile echoWorld.lib echoMemory 1 (echoArgs onesBlock (by simp [onesBlock])).mdzipname
        archive = .ok (some job) ∧
      readHeader echoMemory (IStream.ofBytes archive) = .ok (header, nf) ∧
      s.blk = job.records.length ∧
      ((unzipReturn echoWorld.lib header (fun _ _ => 0) false s = 0 → Complete job header s) ↔
        header.SizesFit ∧ ∀ i record, job.records[i]? = some record → Accepted job i record) := by
  obtain ⟨archive, job, record, s, -, hjob, hone, hrun, hend, -⟩ := exists_ones_run
  obtain ⟨header, nf, hread, -⟩ := mdunzipfile_eq_some hjob
  exact ⟨archive, job, header, nf, s, hjob, hread, hend,
    unzip_complete_iff _ hjob hread (disciplined_of_single hone hrun) hend⟩

/-- The archive validates, its one block is not found, and 0 is returned over an
empty file. -/
theorem lost_block_reported_as_success :
    ∃ archive job header nf s,
      mdzipfile echoWorld (echoArgs onesBlock (by simp [onesBlock])) = .ok (some archive) ∧
      validateMDzip echoMemory (echoArgs onesBlock (by simp [onesBlock])).mdzipname archive =
        .ok 0 ∧
      mdunzipfile echoWorld.lib echoMemory 1 (echoArgs onesBlock (by simp [onesBlock])).mdzipname
        archive = .ok (some job) ∧
      readHeader echoMemory (IStream.ofBytes archive) = .ok (header, nf) ∧
      Reach (unzipStep job) Free (UnzipState.initial job) s ∧ s.blk = job.records.length ∧
      unzipReturn echoWorld.lib header (fun _ _ => 0) false s = 0 ∧ ¬ Complete job header s := by
  set args := echoArgs onesBlock (by simp [onesBlock]) with hargs
  have hne : args.file ≠ [] := by decide
  obtain ⟨archive, job, record, s, hzip, hjob, hone, hrun, hend, hout⟩ := exists_ones_run
  obtain ⟨header, nf, hread, -⟩ := mdunzipfile_eq_some hjob
  obtain ⟨archive', hzip', hvalidates⟩ : Validates echoWorld echoMemory args :=
    (validates_iff_counted echoWorld echoMemory hne).mpr (by decide)
  obtain rfl : archive = archive' := by simpa [← hargs, hzip'] using hzip.symm
  refine ⟨archive, job, header, nf, s, hzip, hvalidates, hjob, hread, hrun, hend, rfl, ?_⟩
  rintro ⟨hfound, -⟩
  obtain ⟨c, hc, -⟩ := hfound 0 (by rw [hone]; exact Nat.zero_lt_one)
  rw [hout] at hc
  cases hc

end Mdencode.Cpp
