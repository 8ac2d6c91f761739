import Mdencode.Cpp.MdRecords
import Mdencode.Cpp.BlockRestore

/-! The round trip of `mdzipfile` and `mdunzipfile`. A block of 32 bytes `0xFF`
in an archive of block size 32 has the exponent 256, which its one byte holds
as 0; its scan then starts at the remainder and may stop at a ceiling of 2
before it gets to the block. -/

namespace Mdencode.Cpp

open Mdencode.Bytes Mdencode.Transition

/-! Which blocks are met -/

def onesBlock : List UInt8 := List.replicate 32 255

/-- The thread that meets the block of ones, from the exponent 0, meets it no
later than the check at which its scan would stop. -/
def OnesMetInTime (m T : ℕ) : Prop :=
  let q := ofBE onesBlock / calcModulusInt m
  q / T ≤ ceilingStop (ofBE onesBlock % calcModulusInt m + q % T * calcModulusInt m)
    (calcModulusInt m * T) 2 (decodeLineCount (q % T))

section
variable {m T : ℕ} {pos : BlockPosition}

/-- With its own exponent every block is met in time. -/
theorem metInTime_calcExponent (hm : 2 ≤ m) (hT : 1 ≤ T) (block : List UInt8) :
    MetInTime m T pos (calcExponent (ofBE block)) block := by
  have hM : 0 < calcModulusInt m := calcModulusInt_pos (by omega)
  obtain ⟨q, hq⟩ := exists_block_eq (floor_calcExponent hm hT (ofBE block) pos)
  have hceil := (calcExponent_spec (ofBE block)).2.1
  set base := scanStart m T 0 (ofBE block % calcModulusInt m) (calcExponent (ofBE block)) pos
  have hbase (t : ℕ) : scanStart m T t (ofBE block % calcModulusInt m)
      (calcExponent (ofBE block)) pos = base + t * calcModulusInt m := by
    simp [base, scanStart]
  have hmeet : base + Stride.owner T q * calcModulusInt m +
      Stride.position T q * (calcModulusInt m * T) = ofBE block :=
    (Stride.visit_owner hM hT).trans hq.symm
  refine ⟨Stride.owner T q, Stride.owner_lt hT, Stride.position T q, ?_, ?_⟩
  · rw [hbase, hmeet]
  · -- a stop before the block would be at a candidate above the block
    rw [hbase]
    by_contra hlt
    obtain ⟨-, hover, -⟩ := ceilingStop_spec (base + Stride.owner T q * calcModulusInt m)
      (2 ^ (calcExponent (ofBE block) + 1)) (Nat.mul_pos hM hT)
      (decodeLineCount (Stride.owner T q))
    have hmono := Nat.mul_le_mul_right (calcModulusInt m * T) (Nat.le_of_not_le hlt)
    omega

theorem metInTime_ones (hT : 1 ≤ T) (h : OnesMetInTime m T) :
    MetInTime m T pos 0 onesBlock := by
  have hstart (t : ℕ) : scanStart m T t (ofBE onesBlock % calcModulusInt m) 0 pos =
      ofBE onesBlock % calcModulusInt m + t * calcModulusInt m := by
    simp [scanStart, calcModulusInt]
  set q := ofBE onesBlock / calcModulusInt m with hq
  refine ⟨q % T, Nat.mod_lt _ hT, q / T, ?_, ?_⟩
  · rw [hstart, Nat.add_assoc, Nat.mul_comm (calcModulusInt m) T, ← Nat.mul_assoc, ← Nat.add_mul,
      Nat.mod_add_div' q T, hq, Nat.mod_add_div']
  · rw [hstart]
    exact h

/-- Only the block of ones has an exponent that one byte does not hold. -/
theorem storedExponent_eq {block : List UInt8} {blocksize : ℕ} (hpos : 0 < block.length)
    (hle : block.length ≤ blocksize) (hsize : blocksize ≤ 100) :
    storedExponent blocksize (calcExponent (ofBE block)) = calcExponent (ofBE block) ∨
      blocksize = 32 ∧ block = onesBlock := by
  have he := calcExponent_le hpos
  unfold storedExponent
  split_ifs with hsmall
  · rcases Nat.lt_or_ge (calcExponent (ofBE block)) 256 with hlt | hge
    · exact .inl (Nat.mod_eq_of_lt hlt)
    · have hlen : block.length = 32 := by omega
      refine .inr ⟨by omega, ofBE_inj (by simp [onesBlock, hlen]) ?_⟩
      have hmax := ofBE_lt block
      have hexp : calcExponent (ofBE block) = 256 := by omega
      obtain ⟨-, -, h⟩ := calcExponent_spec (ofBE block)
      have hones : ofBE onesBlock = 256 ^ 32 - 1 := by decide
      rw [hlen] at hmax
      rw [hexp] at h
      rw [hones]
      omega
  · exact .inl (Nat.mod_eq_of_lt (by omega))

end

/-! The job a reader makes of an archive -/

section
variable (world : ZipWorld) (args : MdzipArgs)

theorem incKeyOf_chooseVersion (inc dec : Bool) :
    incKeyOf (toLE 8 (chooseVersion inc dec).1) = (chooseVersion inc dec).2 := by
  cases inc <;> cases dec <;> decide

/-- The keys in force at block `i`. -/
def keysAt (i : ℕ) : Registers :=
  (contextAt (chooseVersion args.inc args.dec).2 (args.hclblock world) i).hregister

/-- Block `i` of the file. -/
def MdzipArgs.block (i : ℕ) : List UInt8 := fileBlock args.zipBlocksize args.file i

theorem zipBlocksize_le : args.zipBlocksize ≤ 100 := by
  have := args.blocksize_le
  unfold MdzipArgs.zipBlocksize
  split_ifs <;> omega

theorem exponentReady_zero (blocksize : ℕ) : ExponentReady blocksize (intBytes 4 0) :=
  ⟨rfl, fun _ => by decide⟩

variable {args}

theorem length_block (hne : args.file ≠ []) {i : ℕ} (hi : i < args.zipBlockcount) :
    0 < (args.block i).length ∧ (args.block i).length ≤ args.zipBlocksize := by
  obtain ⟨hcount, hlen⟩ := length_file_eq hne
  have hpos := zipRemainder_pos hne
  have hle := Nat.mul_le_mul_right args.zipBlocksize (show i ≤ args.zipBlockcount - 1 by omega)
  have hsize := zipBlocksize_pos hne
  rw [MdzipArgs.block, fileBlock, List.length_take, List.length_drop]
  omega

theorem storedExponent_le (blocksize exponent : ℕ) :
    storedExponent blocksize exponent ≤ exponent := by
  unfold storedExponent
  split_ifs <;> exact Nat.mod_le _ _

/-- The reader accepts the archive and finds every record in it. -/
theorem mdunzipfile_mdzipfile (memory : UnzipMemory) (T : ℕ) (hne : args.file ≠ [])
    (hmin : 48 ≤ args.headerSize + args.recordSize * args.zipBlockcount)
    (hcount : args.zipBlockcount < 2 ^ 31) :
    ∃ archive job, mdzipfile world args = .ok (some archive) ∧
      mdunzipfile world.lib memory T args.mdzipname archive = .ok (some job) ∧
      job.threadcount = T ∧ job.modsize = args.modsize ∧
      job.compareBlockHashList = compareUnder world.lib args.blockList ∧
      job.records.length = args.zipBlockcount ∧
      ∀ i < args.zipBlockcount, ∃ record, job.records[i]? = some record ∧
        RecordOf world.lib args.blockList (keysAt world args i) args.modsize args.zipBlocksize
          (args.block i) record := by
  obtain ⟨archive, hzip, hlength⟩ := mdzipfile_length world hne
  have hcontext : (args.hclblock world).hashlistvt = args.blockList :=
    hashlistvt_hclblock world
  have hcons : ∀ hash ∈ (args.hclblock world).hashlistvt, hash.Consistent := by
    rw [hcontext]
    exact args.registered_blockList.consistent mdHashlist_tabled
  have hunshared : Unshared (args.hclblock world).hashlistvt := by
    rw [hcontext]
    exact args.registered_blockList.unshared mdHashlist_tabled
  have harchive := hzip
  rw [mdzipfile_eq world hne, Except.ok.injEq, Option.some.injEq] at harchive
  set incKey := (chooseVersion args.inc args.dec).2 with hinc
  obtain ⟨header, hread, hversion, hblocksize, hmodsize, -, -, hcount', hrem, -, hsame⟩ :=
    readHeader_writeHeader world memory hne (chooseVersion args.inc args.dec).1
      (mdzipBlocks world.lib incKey args.zipBlocksize args.modsize args.zipRemainder
        args.zipBlockcount args.file (args.hclblock world))
  rw [harchive] at hread
  set nf := IStream.ofBytes (mdzipBlocks world.lib incKey args.zipBlocksize args.modsize
    args.zipRemainder args.zipBlockcount args.file (args.hclblock world)) with hnf
  have hpos := zipRemainder_pos hne
  have hle := zipRemainder_le hne
  have hmod := args.modsize_lt
  have hlist' : header.hclblock.hashlistvt = args.blockList := hsame.hashlistvt.symm.trans hcontext
  have hrecords : ∀ i < args.zipBlockcount, ∃ record, (recordsOf header nf)[i]? = some record ∧
      RecordOf world.lib args.blockList (keysAt world args i) args.modsize args.zipBlocksize
        (args.block i) record := by
    intro i hi
    have hspec : SameContext (args.hclblock world) (args.hclblock world) :=
      ⟨rfl, rfl, KeysAgree.refl _⟩
    have hfile : 0 < args.zipBlockcount → args.file.length =
        (args.zipBlockcount - 1) * args.zipBlocksize + args.zipRemainder :=
      fun _ => (length_file_eq hne).2
    rw [recordsOf, hversion, incKeyOf_chooseVersion, ← hinc, hblocksize, hrem, hcount', hmodsize,
      Int.toNat_natCast, ← hcontext]
    exact readRecords_mdzipBlocks args.one_le_modsize hpos hle (zipBlocksize_le args) [] hcons
      hunshared hsame hspec (exponentReady_zero _) (by simp) hfile (by simp [hnf]) hi
  have hrecordslength : (recordsOf header nf).length = args.zipBlockcount := by
    rw [recordsOf, length_readRecords, hcount', Int.toNat_natCast]
  have hexp : ∀ record ∈ recordsOf header nf, record.modexponent < 2 ^ 31 - 1 := by
    intro record hmem
    obtain ⟨i, hi, hget⟩ := List.getElem_of_mem hmem
    obtain ⟨record', hget', hof⟩ := hrecords i (by omega)
    rw [List.getElem?_eq_getElem hi, hget, Option.some.injEq] at hget'
    subst hget'
    obtain ⟨hblock, hblockle⟩ := length_block hne (show i < args.zipBlockcount by omega)
    have := zipBlocksize_le args
    rw [hof.modexponent]
    exact ((storedExponent_le _ _).trans (calcExponent_le hblock)).trans_lt (by omega)
  obtain ⟨job, hjob, hT, hm, hcompare, hjobrecords⟩ :=
    mdunzipfile_of_readHeader world.lib memory T args.fileExtension_mdzipname (by omega) hread
      (by rw [hmodsize, calcModulusBytes_natCast]; omega)
      (by have := args.one_le_modsize; omega) (by omega)
      (by have := zipBlocksize_le args; omega) (by omega) (by omega) hexp
  refine ⟨archive, job, hzip, hjob, hT, by rw [hm, hmodsize, Int.toNat_natCast], ?_, ?_, ?_⟩
  · rw [hcompare, hlist']
  · rw [hjobrecords, hrecordslength]
  · rw [hjobrecords]
    exact hrecords

/-! The file comes back -/

theorem flatten_fileBlock (blocksize : ℕ) (file : List UInt8) (n : ℕ) :
    ((List.range n).map (fileBlock blocksize file)).flatten = file.take (n * blocksize) := by
  induction n with
  | zero => simp
  | succ n ih =>
    rw [List.range_succ, List.map_append, List.flatten_append, ih, Nat.succ_mul, List.take_add]
    simp [fileBlock]

/-- The blocks of a file put together. -/
theorem flatten_blocks (hne : args.file ≠ []) :
    ((List.range args.zipBlockcount).map args.block).flatten = args.file := by
  obtain ⟨hcount, hlen⟩ := length_file_eq hne
  have hle := zipRemainder_le hne
  have hsplit : args.zipBlockcount * args.zipBlocksize =
      (args.zipBlockcount - 1) * args.zipBlocksize + args.zipBlocksize := by
    rw [← Nat.succ_mul, Nat.succ_eq_add_one, Nat.sub_add_cancel hcount]
  apply (flatten_fileBlock args.zipBlocksize args.file args.zipBlockcount).trans
  exact List.take_of_length_le (by omega)

/-- Each block of the file is told from all others of its length. -/
def FileSeparated (world : ZipWorld) (args : MdzipArgs) : Prop :=
  ∀ i < args.zipBlockcount, Separates world.lib (keysAt world args i) args.blockList (args.block i)

/-- In every disciplined run that has worked through the archive, what has been
written is the file. -/
def RestoresFile (ok : UnzipState Registers → UnzipAct → Prop) (world : ZipWorld)
    (memory : UnzipMemory) (args : MdzipArgs) (T : ℕ) : Prop :=
  ∃ archive job, mdzipfile world args = .ok (some archive) ∧
    mdunzipfile world.lib memory T args.mdzipname archive = .ok (some job) ∧
    ∀ s, Reach (unzipStep job) ok (UnzipState.initial job) s → s.blk = job.records.length →
      s.output = args.file

/-- A hash list that tells a block from another is not empty. -/
theorem Separates.ne_nil {lib : HashLibrary} {keys : Registers} {hashlistvt : List Hashlist}
    {block : List UInt8} (h : Separates lib keys hashlistvt block) (hpos : 0 < block.length) :
    hashlistvt ≠ [] := by
  rintro rfl
  have hall (b : UInt8) : List.replicate block.length b = block := h _ (by simp) (by simp)
  have heq := (hall 0).trans (hall 1).symm
  obtain ⟨n, hn⟩ := Nat.exists_eq_succ_of_ne_zero hpos.ne'
  rw [hn, List.replicate_succ, List.replicate_succ, List.cons.injEq] at heq
  exact absurd heq.1 (by decide)

theorem storedExponent_ones : storedExponent 32 (calcExponent (ofBE onesBlock)) = 0 := by
  have hones : ofBE onesBlock = 256 ^ 32 - 1 := by decide
  have hpow : (2 : ℕ) ^ 256 = 256 ^ 32 := by norm_num
  have hexp : calcExponent (ofBE onesBlock) = 256 := by
    rw [calcExponent_eq_iff (by norm_num), hones, pow_succ 2 256, hpow]
    exact ⟨by norm_num, .inr le_rfl⟩
  rw [hexp]
  rfl

/-- A record of a separated block leads back to it. -/
theorem RecordOf.restores {job : UnzipJob Registers} {T i : ℕ} {record : BlockRecord Registers}
    (hm : 2 ≤ args.modsize) (hT : 1 ≤ T) (hne : args.file ≠ []) (hi : i < args.zipBlockcount)
    (hsep : Separates world.lib (keysAt world args i) args.blockList (args.block i))
    (hones : args.zipBlocksize = 32 → args.block i = onesBlock → OnesMetInTime args.modsize T)
    (hthreads : job.threadcount = T) (hmodsize : job.modsize = args.modsize)
    (hcompare : job.compareBlockHashList = compareUnder world.lib args.blockList)
    (h : RecordOf world.lib args.blockList (keysAt world args i) args.modsize args.zipBlocksize
      (args.block i) record) : Restores job i record (args.block i) := by
  obtain ⟨hpos, hle⟩ := length_block hne hi
  refine ⟨h.blocksize, hmodsize.symm ▸ h.modulusIntRemainder, ?_, fun data hdata haccept => ?_, ?_⟩
  · rw [hcompare, h.accepts]
    exact fun _ _ => rfl
  · rw [hcompare, h.accepts] at haccept
    exact hsep data (hdata.length_eq.trans h.blocksize) haccept
  · rw [h.modexponent, hthreads, hmodsize]
    rcases storedExponent_eq hpos hle (zipBlocksize_le args) with heq | ⟨hsize, hblock⟩
    · rw [heq]
      exact metInTime_calcExponent hm hT _
    · rw [hsize, hblock, storedExponent_ones]
      exact metInTime_ones hT (hones hsize hblock)

/-- Disciplined runs restore the file unless a block of ones is stopped short of. -/
theorem mdunzip_restores (memory : UnzipMemory) {T : ℕ} (hm : 2 ≤ args.modsize) (hT : 1 ≤ T)
    (hne : args.file ≠ []) (hsep : FileSeparated world args)
    (hcount : args.zipBlockcount < 2 ^ 31)
    (hones : args.zipBlocksize = 32 → (∃ i < args.zipBlockcount, args.block i = onesBlock) →
      OnesMetInTime args.modsize T) :
    RestoresFile Disciplined world memory args T := by
  obtain ⟨hcountpos, -⟩ := length_file_eq hne
  have hlist := (hsep 0 hcountpos).ne_nil (length_block hne hcountpos).1
  obtain ⟨archive, job, hzip, hjob, hthreads, hmodsize, hcompare, hlength, hrecords⟩ :=
    mdunzipfile_mdzipfile world memory T hne (le_archiveSize hne hlist) hcount
  refine ⟨archive, job, hzip, hjob, fun s hreach hend => ?_⟩
  have hrestorable : Restorable job ((List.range args.zipBlockcount).map args.block) := by
    refine ⟨by omega, by simp [hlength], fun i record block hrecord hblock => ?_⟩
    have hi : i < args.zipBlockcount := hlength ▸ (List.getElem?_eq_some_iff.mp hrecord).1
    obtain rfl : args.block i = block := by simpa [hi] using hblock
    obtain ⟨record', hrecord', hof⟩ := hrecords i hi
    obtain rfl : record = record' := Option.some.inj (hrecord.symm.trans hrecord')
    exact hof.restores world hm hT hne hi (hsep i hi)
      (fun hsize hblock => hones hsize ⟨i, hi, hblock⟩) hthreads hmodsize hcompare
  rw [output_eq_flatten hrestorable hreach hend, flatten_blocks hne]

end

/-! A block that is stopped short of -/

section
variable {ρ : Type} {job : UnzipJob ρ} {record : BlockRecord ρ}

/-- A single thread that rejects all candidates up to its ceiling stop leaves
nothing written. -/
theorem reach_notfound (hT : job.threadcount = 1) (hrecords : job.records = [record]) (stop : ℕ)
    (hreject : ∀ i ≤ stop, job.compareBlockHashList record.hregister
      ((prepareThread job 0 0 record (Modscan.new job.registers)).tested i) = false)
    (hfirst : ∀ i < stop, ¬ ChecksCeiling (decodeLineCount 0) i)
    (hcheck : ChecksCeiling (decodeLineCount 0) stop)
    (hover : (prepareThread job 0 0 record (Modscan.new job.registers)).modulusExpIntCeil <
      (prepareThread job 0 0 record (Modscan.new job.registers)).candidate stop) :
    ∃ s, Reach (unzipStep job) Free (UnzipState.initial job) s ∧ s.blk = job.records.length ∧
      s.out = [] := by
  obtain ⟨T, m, B, registers, compare, records, heq, hle⟩ := job
  dsimp only at hT hrecords hreject ⊢
  subst hT hrecords
  set job : UnzipJob ρ := ⟨1, m, B, registers, compare, [record], heq, hle⟩ with hjob
  set ms := prepareThread job 0 0 record (Modscan.new registers) with hms
  have hlen : ms.byteblock.length = ms.blocksize := by
    simp [hms, prepareThread, Modscan.setModscan]
  -- main sets the object up and starts the thread
  set started : UnzipState ρ :=
    { main := .poll, blk := 0, mst := Function.update (fun _ => Modscan.new registers) 0 ms,
      mutex := MdMutex.new 1,
      acts := Function.update (fun _ => none) (0, 0) (some (Activation.start 0)), out := [] }
  have hstart : exec (unzipStep job) (UnzipState.initial job) (List.replicate 4 .main) =
      some started := rfl
  -- the thread rejects everything up to the check that stops it
  have hcl : ms.hcl = record.hregister := rfl
  have hpass : ∀ i < stop, Passed compare ms (decodeLineCount 0) i := fun i hi =>
    ⟨hcl ▸ hreject i hi.le, fun hchecks => absurd hchecks (hfirst i hi)⟩
  have hscan := reach_scanState hlen rfl hpass
  have htest : decodeAct compare (scanState ms (decodeLineCount 0) stop) .step =
      some ({ ms with blockInt := ms.candidate stop, byteblock := ms.tested stop },
        ⟨.incNotFound, 0, decodeLineCount 0⟩) := by
    change some ((scanState ms (decodeLineCount 0) stop).1.decodeStep compare
      (scanState ms (decodeLineCount 0) stop).2) = _
    rw [decodeStep_scanState hlen, hcl, hreject stop le_rfl, if_neg (by simp), if_pos hcheck,
      if_pos hover]
    rfl
  have habove := (Reach.of_exec _ hstart).trans
    (reach_quiet (s := started) (r := 0) (t := 0) rfl rfl
      (hscan.next .step ⟨rfl, .inr (.inl rfl)⟩ htest))
  -- it reports, and main leaves the block without a write
  set rest : List UnzipAct := List.replicate 2 (.thread 0 0) ++ List.replicate 6 .main
  obtain ⟨s, hexec, hs⟩ : ∃ s, exec (unzipStep job) { started with
      mst := Function.update started.mst 0
        { ms with blockInt := ms.candidate stop, byteblock := ms.tested stop }
      acts := Function.update started.acts (0, 0) (some ⟨.incNotFound, 0, decodeLineCount 0⟩) }
      rest = some s ∧ (s.blk, s.out) = (1, []) := ⟨_, rfl, rfl⟩
  obtain ⟨hblk, hout⟩ := Prod.mk.inj hs
  exact ⟨s, habove.trans (Reach.of_exec _ hexec), hblk, hout⟩

end

/-! Hashes that give back the data -/

def echoWorld : ZipWorld where
  lib := { hash := fun _ _ data k => data.getD k 0, fileHash := fun _ _ _ _ => 0 }
  random := fun _ _ => 0
  fileMemory := fun _ _ => 0
  blockMemory := fun _ _ => 0

def echoMemory : UnzipMemory where
  locals := fun _ _ => 0
  fileMemory := fun _ _ => 0
  blockMemory := fun _ _ => 0
  threadMemory := fun _ _ => 0

/-- Blocks of 32 bytes under a digest of 32 bytes. -/
def echoArgs (file : List UInt8) (h : file.length < 2 ^ 63) : MdzipArgs where
  filename := ascii "echo"
  file
  blocksize := 32
  modsize := 64
  fhlist := []
  bhlist := [37]
  randombh := false
  inc := false
  dec := false
  filename_ne := by decide
  one_le_blocksize := by norm_num
  blocksize_le := by norm_num
  one_le_modsize := by norm_num
  modsize_lt := by norm_num
  length_lt := h

/-- A digest of 32 bytes that gives back the data separates blocks up to that size. -/
theorem echo_separated {args : MdzipArgs} (hlist : args.blockList = [⟨.sha256, "sha256", 32, 0⟩])
    (hsize : args.zipBlocksize ≤ 32) : FileSeparated echoWorld args := by
  intro i _ data hlen hsame
  set block := args.block i with hblock
  have hsize : block.length ≤ 32 := by
    rw [hblock, MdzipArgs.block, fileBlock, List.length_take]
    omega
  have hsig := hsame ⟨.sha256, "sha256", 32, 0⟩ (by rw [hlist]; simp)
  apply List.ext_getElem hlen
  intro k hk hk'
  have hget (bytes : List UInt8) (hbytes : k < bytes.length) (hle : bytes.length ≤ 32) :
      (blockSignature echoWorld.lib (keysAt echoWorld args i) bytes
        ⟨.sha256, "sha256", 32, 0⟩)[k]? = some bytes[k] := by
    have hk32 : k < 32 := by omega
    simp [blockSignature, digest, Digest.run, echoWorld, hk32, hbytes]
  rw [← Option.some.injEq, ← hget data hk (by omega), ← hget block hk' hsize, hsig]

theorem echo_fileSeparated {file : List UInt8} (h : file.length < 2 ^ 63) :
    FileSeparated echoWorld (echoArgs file h) := by
  refine echo_separated (by rfl) ?_
  unfold MdzipArgs.zipBlocksize
  split_ifs with hlt
  · exact hlt.le
  · exact le_rfl

/-- Nine bytes in blocks of five under a small modulus. -/
def nineArgs : MdzipArgs :=
  { echoArgs [0, 0, 7, 1, 9, 0, 2, 0, 5] (by simp) with
    blocksize := 5
    modsize := 2
    one_le_blocksize := by norm_num
    blocksize_le := by norm_num
    one_le_modsize := by norm_num
    modsize_lt := by norm_num }

theorem nine_fileSeparated : FileSeparated echoWorld nineArgs :=
  echo_separated (by rfl) (by decide)

/-- Two threads bring back both blocks, of which the second is short. -/
theorem mdunzip_restores_nine : RestoresFile Disciplined echoWorld echoMemory nineArgs 2 :=
  mdunzip_restores echoWorld echoMemory (by decide) one_le_two (by decide) nine_fileSeparated
    (by decide) (fun h => absurd h (by decide))

/-- The iteration in which thread 0 first looks at its ceiling. -/
def firstCheck : ℕ := 101000001

/-- One thread gives the block of ones up, and the file stays empty. -/
theorem exists_ones_run :
    ∃ archive job record s, mdzipfile echoWorld (echoArgs onesBlock (by simp [onesBlock])) =
        .ok (some archive) ∧
      mdunzipfile echoWorld.lib echoMemory 1 (echoArgs onesBlock (by simp [onesBlock])).mdzipname
        archive = .ok (some job) ∧
      job.records = [record] ∧ Reach (unzipStep job) Free (UnzipState.initial job) s ∧
      s.blk = job.records.length ∧ s.out = [] := by
  set args := echoArgs onesBlock (by simp [onesBlock]) with hargs
  have hne : args.file ≠ [] := by decide
  have hcount : args.zipBlockcount = 1 := by decide
  have hblock : args.block 0 = onesBlock := by decide
  have hsize : args.zipBlocksize = 32 := by decide
  obtain ⟨archive, job, hzip, hjob, hthreads, hmodsize, hcompare, hlength, hrecords⟩ :=
    mdunzipfile_mdzipfile echoWorld echoMemory 1 hne (le_archiveSize hne (by decide))
      (by rw [hcount]; norm_num)
  obtain ⟨record, hrecord, hof⟩ := hrecords 0 (by omega)
  rw [hblock, hsize] at hof
  have hone : job.records = [record] := by
    obtain ⟨first, hfirst⟩ := List.length_eq_one_iff.mp (hlength.trans hcount)
    rw [hfirst] at hrecord ⊢
    simpa using hrecord
  have hones : ofBE onesBlock = 256 ^ 32 - 1 := by decide
  have hrem : record.modulusIntRemainder = 0 := by
    rw [hof.modulusIntRemainder, hones]
    decide
  have hexp : record.modexponent = 0 := hof.modexponent.trans storedExponent_ones
  set ms := prepareThread job 0 0 record (Modscan.new job.registers) with hms
  have hprepared : ms.Prepared job.compareBlockHashList job.modsize job.threadcount 0 32
      record.modulusIntRemainder record.modexponent record.blocksize .first := .first _ _ _
  obtain ⟨hstart, hstep, hceil, -, hmssize, -⟩ := hprepared.spec
  have hcand (i : ℕ) : ms.candidate i = i * (2 ^ 64 - 1) := by
    rw [Modscan.candidate, hstart, hstep, hrem, hexp, hmodsize, hthreads]
    simp [scanStart, calcModulusInt, hargs, echoArgs]
  have hceil2 : ms.modulusExpIntCeil = 2 := by rw [hceil, hexp]; rfl
  have hcheck (i : ℕ) : ChecksCeiling (decodeLineCount 0) i ↔ 0 < i ∧ firstCheck ∣ i := by
    rw [decodeLineCount_eq (by norm_num), checksCeiling_iff]
    rfl
  have hreject : ∀ i ≤ firstCheck,
      job.compareBlockHashList record.hregister (ms.tested i) = false := by
    intro i hi
    rw [Bool.eq_false_iff]
    intro haccept
    rw [hcompare, hof.accepts] at haccept
    have hlt : ms.candidate i < 256 ^ 32 := by
      rw [hcand]
      unfold firstCheck at hi
      omega
    have htested : ms.tested i = toBE 32 (ms.candidate i) := by
      rw [Modscan.tested, hmssize, hof.blocksize, show onesBlock.length = 32 by decide,
        exported_of_lt hlt]
    -- the only buffer with the digests of the block is the block
    have heq : ms.tested i = onesBlock := by
      rw [← hblock]
      refine echo_fileSeparated (by simp [onesBlock]) 0 (by decide) _ ?_ ?_
      · rw [htested, length_toBE]
        rfl
      · rw [← hargs, hblock]
        exact haccept
    have hval := congrArg ofBE heq
    rw [htested, ofBE_toBE_of_lt hlt, hcand, hones] at hval
    unfold firstCheck at hi
    omega
  have hfirst : ∀ i < firstCheck, ¬ ChecksCeiling (decodeLineCount 0) i := by
    intro i hi hchecks
    rw [hcheck] at hchecks
    exact absurd (Nat.le_of_dvd hchecks.1 hchecks.2) (by omega)
  obtain ⟨s, hreach, hend, hout⟩ := reach_notfound hthreads hone firstCheck hreject hfirst
    ((hcheck _).mpr ⟨by decide, dvd_rfl⟩) (by rw [← hms, hceil2, hcand]; decide)
  exact ⟨archive, job, record, s, hzip, hjob, hone, hreach, hend, hout⟩

/-- The block of ones is separated and yet does not come back. -/
theorem ones_not_restored :
    2 ≤ (echoArgs onesBlock (by simp [onesBlock])).modsize ∧
      FileSeparated echoWorld (echoArgs onesBlock (by simp [onesBlock])) ∧
      ¬ RestoresFile Free echoWorld echoMemory (echoArgs onesBlock (by simp [onesBlock])) 1 := by
  refine ⟨by simp [echoArgs], echo_fileSeparated _, ?_⟩
  rintro ⟨archive, job, hzip, hjob, hall⟩
  obtain ⟨archive', job', -, s, hzip', hjob', -, hreach, hend, hout⟩ := exists_ones_run
  obtain rfl : archive = archive' := by simpa [hzip] using hzip'
  obtain rfl : job = job' := by simpa [hjob] using hjob'
  have hlost := hall s hreach hend
  rw [UnzipState.output, hout] at hlost
  exact absurd hlost (by decide)

end Mdencode.Cpp
