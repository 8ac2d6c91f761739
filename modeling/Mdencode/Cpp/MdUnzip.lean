import Mdencode.Cpp.MdZip
import Mdencode.Cpp.UnzipThreads

/-! The readers of `mdUnzip.cpp`: the header that `validateMDzip` and
`mdunzipfile` have in common, the sum `validateMDzip` compares with the length
of the archive, and the records that the block loop of `mdunzipfile` works
through. -/

namespace Mdencode.Cpp

open Mdencode.Bytes

/-- Locals that are read into before anything is assigned to them. -/
inductive UnzipLocal
  | hclfilesize
  | hclblocksize
  | buf
  | buf2
  deriving DecidableEq

/-- What the memory of a reader held before. -/
structure UnzipMemory where
  locals : Memory UnzipLocal
  fileMemory : Registers
  blockMemory : Registers
  threadMemory : Registers

structure MdzipHeader where
  mdversion : List UInt8
  filesize : ℤ
  blocksize : ℤ
  modsize : ℤ
  hclfilesize : ℤ
  hclblocksize : ℤ
  blockcount : ℤ
  blockremainder : ℤ
  hclfile : MdHashContextList
  hclblock : MdHashContextList

/-- The size of a list of names, read over `hclsize`, and the list, read into a
`new char[size]` that holds `buf`. -/
def readNames (hclsize : List UInt8) (buf : ℕ → List UInt8) (nf : IStream) :
    Except Trap (ℤ × List UInt8 × IStream) :=
  let (size, nf) := nf.read hclsize
  let size := intOfBytes size
  if size < 0 then .error .badArrayLength
  else
    let (names, nf) := nf.read (buf size.toNat)
    .ok (size, names, nf)

/-- The keys, when the size in front of them is positive. -/
def readKeys (hclblock : MdHashContextList) (nf : IStream) : MdHashContextList × IStream :=
  let (hclblockkeysize, nf) := nf.read (intBytes 4 0)
  if 0 < intOfBytes hclblockkeysize then hclblock.readKeyList nf else (hclblock, nf)

def readHeader (memory : UnzipMemory) (nf : IStream) : Except Trap (MdzipHeader × IStream) := do
  let (mdversion, nf) := nf.read (toLE 8 version100)
  let (filesize, nf) := nf.read (intBytes 8 0)
  let (blocksize, nf) := nf.read (intBytes 8 0)
  let (modsize, nf) := nf.read (intBytes 4 0)
  let filesize := intOfBytes filesize
  let blocksize := intOfBytes blocksize
  let modsize := intOfBytes modsize
  let (hclfilesize, filehashnames, nf) ←
    readNames (memory.locals.fetch ⟨.hclfilesize, 4⟩) (fun n => memory.locals.fetch ⟨.buf, n⟩) nf
  let (hclblocksize, blockhashnames, nf) ←
    readNames (memory.locals.fetch ⟨.hclblocksize, 4⟩) (fun n => memory.locals.fetch ⟨.buf2, n⟩) nf
  let blockcount ← calcFileBlocks filesize blocksize
  let blockremainder ← calcFileBlocksRemainder filesize blocksize
  let hclfile := MdHashContextList.new memory.fileMemory
    (setVectorHLstring mdHashlist filehashnames)
  let hclblock := MdHashContextList.new memory.blockMemory
    (setVectorHLstring mdHashlist blockhashnames)
  let (hclfile, nf) := hclfile.readBlockHashList nf
  let (hclblock, nf) := readKeys hclblock nf
  .ok ({ mdversion, filesize, blocksize, modsize, hclfilesize, hclblocksize, blockcount,
         blockremainder, hclfile, hclblock }, nf)

theorem calcFileBlocks_of_readHeader {memory : UnzipMemory} {nf nf' : IStream}
    {header : MdzipHeader} (h : readHeader memory nf = .ok (header, nf')) :
    calcFileBlocks header.filesize header.blocksize = .ok header.blockcount ∧
      calcFileBlocksRemainder header.filesize header.blocksize = .ok header.blockremainder := by
  unfold readHeader at h
  generalize nf.read (toLE 8 version100) = version at h
  generalize version.2.read (intBytes 8 0) = filesize at h
  generalize filesize.2.read (intBytes 8 0) = blocksize at h
  generalize blocksize.2.read (intBytes 4 0) = modsize at h
  obtain ⟨⟨_, _, _⟩, -, h⟩ := exists_of_bind_eq_ok h
  obtain ⟨⟨_, _, _⟩, -, h⟩ := exists_of_bind_eq_ok h
  obtain ⟨blockcount, hcount, h⟩ := exists_of_bind_eq_ok h
  obtain ⟨blockremainder, hrem, h⟩ := exists_of_bind_eq_ok h
  obtain ⟨rfl, -⟩ := Prod.mk.inj (Except.ok.inj h)
  exact ⟨hcount, hrem⟩

/-- Returns 0 for an archive that validates and 1 for one that does not. -/
def validateMDzip (memory : UnzipMemory) (filename archive : List UInt8) : Except Trap ℕ :=
  if fileExtension filename ≠ ascii "mdz" ∧ fileExtension filename ≠ ascii "out" then .ok 1
  else if archive.length < 48 then .ok 1
  else do
    let (header, _) ← readHeader memory (IStream.ofBytes archive)
    let modsizeBytes := calcModulusBytes header.modsize
    let modexponentsize := if header.blocksize > 32 then 4 else 1
    let hashblocksize := toInt32
      (toInt32 (calcBlockSize header.hclblock.hashlistvt + modsizeBytes) + modexponentsize)
    let totalblocksize ← int64 (hashblocksize * header.blockcount)
    let totalblocksize := toInt32 totalblocksize
    let sumfilesize := 40 + header.hclfilesize + header.hclblocksize +
      calcBlockSize header.hclfile.hashlistvt + calcBlockKeySize header.hclblock.hashlistvt +
      totalblocksize
    .ok (if sumfilesize % 2 ^ 64 = archive.length then 0 else 1)

/-- What `mdunzipfile` carries from one block to the next besides the threads. -/
structure UnzipReader where
  hclblock : MdHashContextList
  modexponent : List UInt8
  modulusbytes : List UInt8
  nf : IStream

/-- Up to block size 32 only the low byte of the int is read. -/
def readExponent (blocksize : ℤ) (modexponent : List UInt8) (nf : IStream) :
    List UInt8 × IStream :=
  if blocksize > 32 then nf.read modexponent
  else
    let (low, nf) := nf.read (modexponent.take 1)
    (low ++ modexponent.drop 1, nf)

/-- One record. The bytes of the exponent are taken as they are, without a sign. -/
def readRecord (incKey : IncrementKey) (blocksize currblocksize : ℤ) (r : UnzipReader) :
    BlockRecord Registers × UnzipReader :=
  let (hclblock, nf) := r.hclblock.readBlockHashList r.nf
  let (modexponent, nf) := readExponent blocksize r.modexponent nf
  let (modulusbytes, nf) := nf.read r.modulusbytes
  let modulusIntRemainder := mpzImport modulusbytes
  let hclblock := hclblock.incrementBlockNum incKey
  ({ hregister := hclblock.hregister
     modexponent := ofLE modexponent
     modulusIntRemainder
     blocksize := currblocksize.toNat },
    { hclblock, modexponent, modulusbytes, nf })

theorem readRecord_blocksize (incKey : IncrementKey) (blocksize currblocksize : ℤ)
    (r : UnzipReader) :
    (readRecord incKey blocksize currblocksize r).1.blocksize = currblocksize.toNat := rfl

section
variable {R : Type} (read : Bool → ℤ → R → BlockRecord Registers × R)
  (blocksize blockremainder : ℤ)

/-- The records in order; the counter is of those that are left, and `read` is
told whether the record is the last. -/
def readRecords : ℕ → R → List (BlockRecord Registers)
  | 0, _ => []
  | left + 1, r =>
    let currblocksize := if left = 0 ∧ blockremainder ≠ blocksize then blockremainder else blocksize
    let (record, r) := read (left = 0) currblocksize r
    record :: readRecords left r

variable {read blocksize blockremainder}

theorem length_readRecords (left : ℕ) (r : R) :
    (readRecords read blocksize blockremainder left r).length = left := by
  induction left generalizing r with
  | zero => rfl
  | succ left ih => simp [readRecords, ih]

/-- Every record but the last is for a full block. -/
theorem blocksize_of_readRecords
    (hread : ∀ last currblocksize r, (read last currblocksize r).1.blocksize = currblocksize.toNat)
    {left : ℕ} {r : R} {i : ℕ} {record : BlockRecord Registers}
    (h : (readRecords read blocksize blockremainder left r)[i]? = some record) :
    record.blocksize =
      (if i + 1 = left ∧ blockremainder ≠ blocksize then blockremainder else blocksize).toNat := by
  induction left generalizing r i with
  | zero => simp [readRecords] at h
  | succ left ih =>
    rw [readRecords] at h
    cases i with
    | zero =>
      rw [List.getElem?_cons_zero, Option.some.injEq] at h
      rw [← h, hread]
      simp [eq_comm]
    | succ i =>
      rw [ih (by simpa using h)]
      simp

/-- The size the first block's buffer is made with. -/
def firstBlocksize (blocksize blockremainder blockcount : ℤ) : ℤ :=
  if blockcount = 1 ∧ blockremainder ≠ blocksize then blockremainder else blocksize

/-- What the block loop will work through. A size below zero fails where the
first block's buffer is made; one that is no `int` is written past that buffer. -/
def startBlocks (threadcount : ℕ) (modsize : ℤ) (registers : Registers)
    (compareBlockHashList : Registers → List UInt8 → Bool)
    (hread : ∀ last currblocksize r, (read last currblocksize r).1.blocksize = currblocksize.toNat)
    (blocksize blockremainder blockcount : ℤ) (r : R) : Except Trap (UnzipJob Registers) :=
  if 2 ^ 31 ≤ blockcount then .error .signedOverflow
  else if hpos : 0 < blockcount →
      (0 ≤ firstBlocksize blocksize blockremainder blockcount ∧
        firstBlocksize blocksize blockremainder blockcount < 2 ^ 31) ∧
      (1 < blockcount → blockremainder ≤ blocksize) then
    .ok {
      threadcount
      modsize := modsize.toNat
      blocksize := (firstBlocksize blocksize blockremainder blockcount).toNat
      registers
      compareBlockHashList
      records := readRecords read blocksize blockremainder blockcount.toNat r
      blocksize_eq := fun i record h hlt => by
        rw [blocksize_of_readRecords hread h, if_neg, firstBlocksize, if_neg]
        all_goals
          rw [length_readRecords] at hlt
          omega
      blocksize_le := fun i record h => by
        have hlt := (List.getElem?_eq_some_iff.mp h).1
        rw [length_readRecords] at hlt
        rw [blocksize_of_readRecords hread h]
        unfold firstBlocksize
        split_ifs <;> omega }
  else .error .badArrayLength

/-- It is made of what was read when the sizes make sense. -/
theorem startBlocks_eq (threadcount : ℕ) (modsize : ℤ) (registers : Registers)
    (compareBlockHashList : Registers → List UInt8 → Bool)
    (hread : ∀ last currblocksize r, (read last currblocksize r).1.blocksize = currblocksize.toNat)
    {blockcount : ℤ} (r : R) (hcount : blockcount < 2 ^ 31) (hsize : blocksize < 2 ^ 31)
    (hpos : 0 < blockremainder) (hrem : blockremainder ≤ blocksize) :
    ∃ job, startBlocks threadcount modsize registers compareBlockHashList hread blocksize
        blockremainder blockcount r = .ok job ∧
      job.threadcount = threadcount ∧ job.modsize = modsize.toNat ∧
      job.compareBlockHashList = compareBlockHashList ∧
      job.records = readRecords read blocksize blockremainder blockcount.toNat r := by
  have hfirst : 0 < blockcount →
      (0 ≤ firstBlocksize blocksize blockremainder blockcount ∧
        firstBlocksize blocksize blockremainder blockcount < 2 ^ 31) ∧
      (1 < blockcount → blockremainder ≤ blocksize) := by
    intro _
    refine ⟨?_, fun _ => hrem⟩
    unfold firstBlocksize
    split_ifs <;> omega
  rw [startBlocks, if_neg (by omega), dif_pos hfirst]
  exact ⟨_, rfl, rfl, rfl, rfl, rfl⟩

end

section
variable (lib : HashLibrary)

/-- The comparison of a scan object whose list is `hashlistvt`. -/
def compareUnder (hashlistvt : List Hashlist) (hregister : Registers) (byteblock : List UInt8) :
    Bool :=
  MdHashContextList.compareBlockHashList lib { hashlistvt, hregister, blocknumber := 0 } byteblock

def incKeyOf (mdversion : List UInt8) : IncrementKey :=
  if mdversion = toLE 8 version112 then .inc
  else if mdversion = toLE 8 version111 then .dec
  else .noinc

/-- What is done before the block loop, and all that the loop will read. -/
def mdunzipfile (memory : UnzipMemory) (threadcount : ℕ) (filename archive : List UInt8) :
    Except Trap (Option (UnzipJob Registers)) :=
  if fileExtension filename ≠ ascii "mdz" ∧ fileExtension filename ≠ ascii "out" then .ok none
  else if archive.length < 48 then .ok none
  else do
    let (header, nf) ← readHeader memory (IStream.ofBytes archive)
    let modsizeBytes := calcModulusBytes header.modsize
    if modsizeBytes < 0 then .error .badArrayLength
    else if header.modsize < 0 then .error .bigintOverflow
    else
      let job ← startBlocks threadcount header.modsize (initialRegisters memory.threadMemory)
        (compareUnder lib header.hclblock.hashlistvt)
        (fun _ => readRecord_blocksize (incKeyOf header.mdversion) header.blocksize)
        header.blocksize header.blockremainder header.blockcount
        { hclblock := header.hclblock
          modexponent := intBytes 4 0
          -- `new unsigned char[modsizeBytes]`, filled before it is used
          modulusbytes := List.replicate modsizeBytes.toNat 0
          nf }
      -- the remainder of a division by the modulus
      if job.records ≠ [] ∧ header.modsize = 0 then .error .divideByZero
      -- an exponent below zero, or one that no `int` is greater than
      else if ∃ record ∈ job.records, 2 ^ 31 - 1 ≤ record.modexponent then .error .bigintOverflow
      else .ok (some job)

/-- The records behind a header. -/
def recordsOf (header : MdzipHeader) (nf : IStream) : List (BlockRecord Registers) :=
  readRecords (fun _ => readRecord (incKeyOf header.mdversion) header.blocksize) header.blocksize
    header.blockremainder header.blockcount.toNat
    { hclblock := header.hclblock
      modexponent := intBytes 4 0
      modulusbytes := List.replicate (calcModulusBytes header.modsize).toNat 0
      nf }

/-- What the reader does once it has the header of a sound archive. -/
theorem mdunzipfile_of_readHeader (memory : UnzipMemory) (T : ℕ)
    {filename archive : List UInt8} {header : MdzipHeader} {nf : IStream}
    (hext : fileExtension filename = ascii "mdz") (hmin : 48 ≤ archive.length)
    (hread : readHeader memory (IStream.ofBytes archive) = .ok (header, nf))
    (hmod : 0 ≤ calcModulusBytes header.modsize) (hmodsize : 0 < header.modsize)
    (hcount : header.blockcount < 2 ^ 31) (hsize : header.blocksize < 2 ^ 31)
    (hpos : 0 < header.blockremainder) (hrem : header.blockremainder ≤ header.blocksize)
    (hexp : ∀ record ∈ recordsOf header nf, record.modexponent < 2 ^ 31 - 1) :
    ∃ job, mdunzipfile lib memory T filename archive = .ok (some job) ∧ job.threadcount = T ∧
      job.modsize = header.modsize.toNat ∧
      job.compareBlockHashList = compareUnder lib header.hclblock.hashlistvt ∧
      job.records = recordsOf header nf := by
  rw [mdunzipfile, if_neg (by simp [hext]), if_neg (by omega), hread, ok_bind]
  dsimp only
  obtain ⟨job, hjob, hthreads, hm, hcompare, hrecords⟩ := startBlocks_eq T header.modsize
    (initialRegisters memory.threadMemory) (compareUnder lib header.hclblock.hashlistvt)
    (fun _ => readRecord_blocksize (incKeyOf header.mdversion) header.blocksize)
    { hclblock := header.hclblock
      modexponent := intBytes 4 0
      modulusbytes := List.replicate (calcModulusBytes header.modsize).toNat 0
      nf } hcount hsize hpos hrem
  have hlarge : ¬ ∃ record ∈ job.records, 2 ^ 31 - 1 ≤ record.modexponent := by
    rintro ⟨record, hmem, hle⟩
    rw [hrecords] at hmem
    have := hexp record hmem
    omega
  rw [if_neg (by omega), if_neg (by omega), hjob, ok_bind, if_neg (fun h => hmodsize.ne' h.2),
    if_neg hlarge]
  exact ⟨job, rfl, hthreads, hm, hcompare, hrecords⟩

variable {lib}

/-- The sizes that a job can be made with. -/
structure MdzipHeader.Sized (header : MdzipHeader) : Prop where
  blockcount_lt : header.blockcount < 2 ^ 31
  first : 0 < header.blockcount →
    (0 ≤ firstBlocksize header.blocksize header.blockremainder header.blockcount ∧
      firstBlocksize header.blocksize header.blockremainder header.blockcount < 2 ^ 31) ∧
    (1 < header.blockcount → header.blockremainder ≤ header.blocksize)
  one_le_modsize : 0 < header.blockcount → 1 ≤ header.modsize

/-- What a reader that goes on to the blocks has read. -/
theorem mdunzipfile_eq_some {memory : UnzipMemory} {T : ℕ} {filename archive : List UInt8}
    {job : UnzipJob Registers} (h : mdunzipfile lib memory T filename archive = .ok (some job)) :
    ∃ header nf, readHeader memory (IStream.ofBytes archive) = .ok (header, nf) ∧
      header.Sized ∧ job.threadcount = T ∧ job.modsize = header.modsize.toNat ∧
      job.compareBlockHashList = compareUnder lib header.hclblock.hashlistvt ∧
      job.records = recordsOf header nf := by
  unfold mdunzipfile at h
  split_ifs at h with hext hmin
  · cases h
  · cases h
  · cases hread : readHeader memory (IStream.ofBytes archive) with
    | error trap =>
      rw [hread] at h
      cases h
    | ok result =>
      obtain ⟨header, nf⟩ := result
      rw [hread, ok_bind] at h
      dsimp only at h
      split_ifs at h with hbytes hmodsize
      unfold startBlocks at h
      split_ifs at h with hcount hfirst
      · cases h
      · rw [ok_bind] at h
        dsimp only at h
        split_ifs at h with hzero hlarge
        obtain rfl := Option.some.inj (Except.ok.inj h)
        refine ⟨header, nf, rfl, ⟨by omega, hfirst, fun hpos => ?_⟩, rfl, rfl, rfl, rfl⟩
        -- a modulus of zero would have been divided by
        have hne : readRecords (fun _ => readRecord (incKeyOf header.mdversion) header.blocksize)
            header.blocksize header.blockremainder header.blockcount.toNat
            { hclblock := header.hclblock
              modexponent := intBytes 4 0
              modulusbytes := List.replicate (calcModulusBytes header.modsize).toNat 0
              nf } ≠ [] := by
          rw [← List.length_pos_iff, length_readRecords]
          omega
        have : header.modsize ≠ 0 := fun heq => hzero ⟨hne, heq⟩
        omega
      · cases h

end

end Mdencode.Cpp
