import Mdencode.Lib.Chunks
import Mdencode.Cpp.RoundTrip
import Mdencode.Cpp.ValidateFormats

/-! The reader `mdunzipfile` of `mdUnzipSimple.cpp`. It has the sizes and the
hash list built in, and moves the block number on only after the first block. -/

namespace Mdencode.Cpp

open Mdencode.Bytes

namespace MdSimple

/-- What is carried from one block to the next besides the threads. -/
structure Reader where
  blk : ℕ
  hclblock : MdHashContextList
  modexponent : List UInt8
  modulusbytes : List UInt8
  nf : IStream

def readRecord (currblocksize : ℤ) (r : Reader) : BlockRecord Registers × Reader :=
  let (hclblock, nf) := r.hclblock.readBlockHashList r.nf
  let (modexponent, nf) := readExponent blocksize r.modexponent nf
  let (modulusbytes, nf) := nf.read r.modulusbytes
  let modulusIntRemainder := mpzImport modulusbytes
  let hclblock := if 0 < r.blk then hclblock.incrementBlockNum .noinc else hclblock
  ({ hregister := hclblock.hregister
     modexponent := ofLE modexponent
     modulusIntRemainder
     blocksize := currblocksize.toNat },
    { blk := r.blk + 1, hclblock, modexponent, modulusbytes, nf })

theorem readRecord_blocksize (currblocksize : ℤ) (r : Reader) :
    (readRecord currblocksize r).1.blocksize = currblocksize.toNat := rfl

variable (lib : HashLibrary)

/-- What is done before the block loop, and all that the loop will read. The
exponents are bytes, and the modulus is not zero. -/
def mdunzipfile (memory : UnzipMemory) (threadcount : ℕ) (filename archive : List UInt8) :
    Except Trap (Option (UnzipJob Registers)) :=
  if fileExtension filename ≠ ascii "mdsz" ∧ fileExtension filename ≠ ascii "out" then .ok none
  else if archive.length < 24 then .ok none
  else do
    let nf := IStream.ofBytes archive
    let (filesize, nf) := nf.read (intBytes 8 0)
    let (blockkey, nf) := nf.read (intBytes 8 0)
    let filesize := intOfBytes filesize
    let modsizeBytes := calcModulusBytes modsize
    let blockcount ← calcFileBlocks filesize blocksize
    let blockremainder ← calcFileBlocksRemainder filesize blocksize
    let hclblock := MdHashContextList.new memory.blockMemory blocklist
    let hclblock := { hclblock with hregister := hclblock.hregister.store .fast64seed blockkey }
    let blockhashnames := getHLvectorsStringNames hclblock.hashlistvt
    let job ← startBlocks threadcount modsize (initialRegisters memory.threadMemory)
      (compareUnder lib (setVectorHLstring mdHashlist blockhashnames))
      (fun _ => readRecord_blocksize) blocksize blockremainder blockcount
      { blk := 0
        hclblock
        modexponent := intBytes 4 0
        modulusbytes := List.replicate modsizeBytes.toNat 0
        nf }
    .ok (some job)

/-! The records are those that the reader of `mdUnzip.cpp` finds -/

theorem incrementBlockNum_noinc (hcl : MdHashContextList) :
    hcl.incrementBlockNum .noinc = { hcl with blocknumber := hcl.blocknumber + 1 } := by
  simp [MdHashContextList.incrementBlockNum]

theorem contextAt_noinc (hcl : MdHashContextList) (i : ℕ) :
    (contextAt .noinc hcl i).hregister = hcl.hregister := by
  induction i generalizing hcl with
  | zero => rw [contextAt, incrementBlockNum_noinc]
  | succ i ih => rw [contextAt, ih, incrementBlockNum_noinc]

/-- The two readers are at the same place, except for the block number. -/
structure SameReader (r : Reader) (r' : UnzipReader) : Prop where
  hashlistvt : r.hclblock.hashlistvt = r'.hclblock.hashlistvt
  hregister : r.hclblock.hregister = r'.hclblock.hregister
  modexponent : r.modexponent = r'.modexponent
  modulusbytes : r.modulusbytes = r'.modulusbytes
  nf : r.nf = r'.nf

theorem SameReader.readRecord {r : Reader} {r' : UnzipReader} (h : SameReader r r')
    (currblocksize : ℤ) :
    (readRecord currblocksize r).1 = (Cpp.readRecord .noinc blocksize currblocksize r').1 ∧
      SameReader (readRecord currblocksize r).2
        (Cpp.readRecord .noinc blocksize currblocksize r').2 := by
  obtain ⟨blk, ⟨hashlistvt, hregister, n⟩, modexponent, modulusbytes, nf⟩ := r
  obtain ⟨⟨hashlistvt', hregister', n'⟩, modexponent', modulusbytes', nf'⟩ := r'
  obtain ⟨rfl, rfl, rfl, rfl, rfl⟩ := h
  -- the list that is read does not depend on the block number
  simp only [MdSimple.readRecord, Cpp.readRecord, incrementBlockNum_noinc,
    MdHashContextList.readBlockHashList, MdHashContextList.blockListSpans]
  split_ifs
  · exact ⟨rfl, rfl, rfl, rfl, rfl, rfl⟩
  · exact ⟨rfl, rfl, rfl, rfl, rfl, rfl⟩

theorem readRecords_eq {r : Reader} {r' : UnzipReader} (h : SameReader r r')
    (blockremainder : ℤ) (left : ℕ) :
    readRecords (fun _ => readRecord) blocksize blockremainder left r =
      readRecords (fun _ => Cpp.readRecord .noinc blocksize) blocksize blockremainder left r' := by
  induction left generalizing r r' with
  | zero => rfl
  | succ left ih =>
    obtain ⟨hrecord, hnext⟩ := h.readRecord
      (if left = 0 ∧ blockremainder ≠ blocksize then blockremainder else blocksize)
    rw [readRecords, readRecords]
    dsimp only
    rw [hrecord, ih hnext]

/-! The archive of a file -/

section
variable (mdz : MdSimple)

def zipRemainder : ℕ :=
  if mdz.file.length % blocksize = 0 then blocksize else mdz.file.length % blocksize

/-- Block `i` of the file. -/
def block (i : ℕ) : List UInt8 := fileBlock blocksize mdz.file i

/-- The keys, which are in force at every block. -/
def keys (blockMemory : Registers) : Registers := (mdz.hclblock blockMemory).hregister

variable {mdz}

theorem exists_blocks (hne : mdz.file ≠ []) : 0 < mdz.zipBlockcount ∧
    mdz.file.length = (mdz.zipBlockcount - 1) * blocksize + mdz.zipRemainder :=
  length_eq_blocks (List.length_pos_iff.mpr hne) (by decide)

variable (mdz) in
theorem zipRemainder_bounds : 0 < mdz.zipRemainder ∧ mdz.zipRemainder ≤ blocksize := by
  have hlt := Nat.mod_lt mdz.file.length (show 0 < blocksize by decide)
  unfold zipRemainder
  split_ifs <;> omega

theorem length_block (hne : mdz.file ≠ []) {i : ℕ} (hi : i < mdz.zipBlockcount) :
    0 < (mdz.block i).length ∧ (mdz.block i).length ≤ blocksize := by
  obtain ⟨hcount, hlen⟩ := exists_blocks hne
  obtain ⟨hpos, -⟩ := mdz.zipRemainder_bounds
  have hle := Nat.mul_le_mul_right blocksize (show i ≤ mdz.zipBlockcount - 1 by omega)
  have hsize : 0 < blocksize := by decide
  rw [block, fileBlock, List.length_take, List.length_drop]
  omega

theorem flatten_block (hne : mdz.file ≠ []) :
    ((List.range mdz.zipBlockcount).map mdz.block).flatten = mdz.file := by
  obtain ⟨hcount, hlen⟩ := exists_blocks hne
  obtain ⟨-, hle⟩ := mdz.zipRemainder_bounds
  have hsplit : mdz.zipBlockcount * blocksize =
      (mdz.zipBlockcount - 1) * blocksize + blocksize := by
    rw [← Nat.succ_mul, Nat.succ_eq_add_one, Nat.sub_add_cancel hcount]
  apply (Chunks.flatten_slices blocksize mdz.file mdz.zipBlockcount).trans
  exact List.take_of_length_le (by omega)

theorem registered_blocklist : Registered mdHashlist blocklist :=
  setVectorHL_registered mdHashlist_wellNamed [6]

/-- A short block has an exponent that one byte holds. -/
theorem storedExponent_calcExponent {block : List UInt8} (hpos : 0 < block.length)
    (hle : block.length ≤ blocksize) :
    storedExponent blocksize (calcExponent (ofBE block)) = calcExponent (ofBE block) := by
  have hexp := calcExponent_le hpos
  have hsize : blocksize = 14 := rfl
  rw [storedExponent, if_pos (by omega)]
  exact Nat.mod_eq_of_lt (by omega)

variable (mdz) (lib : HashLibrary) (blockMemory : Registers)

def records : List UInt8 :=
  mdzipBlocks lib .noinc blocksize modsize mdz.zipRemainder mdz.zipBlockcount mdz.file
    (mdz.hclblock blockMemory)

def archive : List UInt8 :=
  intBytes 8 mdz.file.length ++ (toLE 8 mdz.key.toNat ++ mdz.records lib blockMemory)

theorem length_archive : (mdz.archive lib blockMemory).length = 16 + 13 * mdz.zipBlockcount := by
  have hcons : ∀ hash ∈ (mdz.hclblock blockMemory).hashlistvt, hash.Consistent :=
    registered_blocklist.consistent mdHashlist_tabled
  have hbytes : (mdz.records lib blockMemory).length = 13 * mdz.zipBlockcount := by
    rw [records, length_mdzipBlocks (by decide) hcons]
    rfl
  simp only [archive, List.length_append, length_intBytes, length_toLE, hbytes]
  omega

theorem calcFileBlocks_length : calcFileBlocks mdz.file.length blocksize = .ok mdz.zipBlockcount :=
  calcFileBlocks_natCast (by decide)

theorem calcFileBlocksRemainder_length :
    calcFileBlocksRemainder mdz.file.length blocksize = .ok mdz.zipRemainder :=
  calcFileBlocksRemainder_natCast (by decide)

variable {mdz}

theorem mdzipfileNoHeader_archive (hne : mdz.file ≠ []) :
    mdz.mdzipfileNoHeader lib blockMemory = .ok (some (mdz.archive lib blockMemory)) := by
  rw [mdzipfileNoHeader, if_neg (List.length_pos_iff.mpr hne).ne', calcFileBlocks_length, ok_bind,
    calcFileBlocksRemainder_length, ok_bind, List.append_assoc]
  rfl

/-- The reader's list under a key. -/
def keyed (memory : Registers) (blockkey : List UInt8) : MdHashContextList :=
  let hclblock := MdHashContextList.new memory blocklist
  { hclblock with hregister := hclblock.hregister.store .fast64seed blockkey }

/-- The reader accepts the archive and finds every record in it. -/
theorem mdunzipfile_archive (memory : UnzipMemory) (T : ℕ) (hne : mdz.file ≠ [])
    (hcount : mdz.zipBlockcount < 2 ^ 31) :
    ∃ job, mdunzipfile lib memory T mdz.mdzipname (mdz.archive lib blockMemory) = .ok (some job) ∧
      job.threadcount = T ∧ job.modsize = modsize ∧
      job.compareBlockHashList = compareUnder lib blocklist ∧
      job.records.length = mdz.zipBlockcount ∧
      ∀ i < mdz.zipBlockcount, ∃ record, job.records[i]? = some record ∧
        RecordOf lib blocklist (mdz.keys blockMemory) modsize blocksize (mdz.block i) record := by
  obtain ⟨hcountpos, hfile⟩ := exists_blocks hne
  obtain ⟨hrempos, hremle⟩ := mdz.zipRemainder_bounds
  have hlt := mdz.length_lt
  have hlength := mdz.length_archive lib blockMemory
  have hnames : setVectorHLstring mdHashlist (getHLvectorsStringNames blocklist) = blocklist :=
    setVectorHLstring_names mdHashlist_wellNamed registered_blocklist
  set hclblock := keyed memory.blockMemory (toLE 8 mdz.key.toNat) with hhcl
  set nf := IStream.ofBytes (mdz.records lib blockMemory) with hnf
  set modulusbytes : List UInt8 := List.replicate (calcModulusBytes modsize).toNat 0 with hbytes
  obtain ⟨job, hjob, hthreads, hm, hcompare, hjobrecords⟩ := startBlocks_eq T (modsize : ℕ)
    (initialRegisters memory.threadMemory)
    (compareUnder lib (setVectorHLstring mdHashlist (getHLvectorsStringNames blocklist)))
    (fun _ => readRecord_blocksize) ⟨0, hclblock, intBytes 4 0, modulusbytes, nf⟩
    (by omega : (mdz.zipBlockcount : ℤ) < 2 ^ 31) (by decide : (blocksize : ℤ) < 2 ^ 31)
    (by omega : (0 : ℤ) < mdz.zipRemainder) (by omega : (mdz.zipRemainder : ℤ) ≤ blocksize)
  refine ⟨job, ?_, hthreads, hm, hcompare.trans (by rw [hnames]), ?_, fun i hi => ?_⟩
  · have hsize : intOfBytes (intBytes 8 mdz.file.length) = mdz.file.length :=
      intOfBytes_intBytes_of_range (by omega) (by norm_num; omega)
    rw [mdunzipfile, if_neg (by simp [fileExtension_mdzipname]), if_neg (by omega)]
    dsimp only
    rw [archive, IStream.read_append (by simp)]
    dsimp only
    rw [IStream.read_append (by simp)]
    dsimp only
    rw [hsize, calcFileBlocks_length, ok_bind, calcFileBlocksRemainder_length, ok_bind]
    exact (congrArg (· >>= fun job => .ok (some job)) hjob).trans rfl
  · rw [hjobrecords, length_readRecords, Int.toNat_natCast]
  · have hcons : ∀ hash ∈ (mdz.hclblock blockMemory).hashlistvt, hash.Consistent :=
      registered_blocklist.consistent mdHashlist_tabled
    have hunshared : Unshared (mdz.hclblock blockMemory).hashlistvt :=
      registered_blocklist.unshared mdHashlist_tabled
    have hsame : SameContext (mdz.hclblock blockMemory) hclblock :=
      ⟨rfl, rfl, (keysAgree_initialRegisters _ _).store _ _⟩
    have hspec : SameContext (mdz.hclblock blockMemory) (mdz.hclblock blockMemory) :=
      ⟨rfl, rfl, KeysAgree.refl _⟩
    have hreader : SameReader ⟨0, hclblock, intBytes 4 0, modulusbytes, nf⟩
        ⟨hclblock, intBytes 4 0, modulusbytes, nf⟩ := ⟨rfl, rfl, rfl, rfl, rfl⟩
    obtain ⟨record, hget, hof⟩ := readRecords_mdzipBlocks
      (r := ⟨hclblock, intBytes 4 0, modulusbytes, nf⟩) (by decide : 1 ≤ modsize) hrempos hremle
      (by decide : blocksize ≤ 100) [] hcons hunshared hsame hspec (exponentReady_zero _)
      (List.length_replicate ..) (fun _ => hfile) (by rw [List.append_nil, hnf, records]) hi
    rw [contextAt_noinc] at hof
    refine ⟨record, ?_, hof⟩
    rw [hjobrecords, Int.toNat_natCast, readRecords_eq hreader]
    exact hget

end

end MdSimple

end Mdencode.Cpp
