import Mdencode.Cpp.MdUnzip
import Mdencode.Cpp.MdZip47

/-! The readers of `mdUnzip47.h`: the header that `validateMDzip` and
`mdunzipfile` have in common, the sum `validateMDzip` compares with the length
of the archive, and the records that the block loop of `mdunzipfile` works
through. -/

namespace Mdencode.Cpp

open Mdencode.Bytes

/-- The arrays that are read into as they were allocated. -/
inductive Unzip47Buffer
  | buf
  | buf2
  | modExpBlock
  deriving DecidableEq

/-- What the memory of a reader held before. -/
structure Unzip47Memory where
  buffers : Memory Unzip47Buffer
  fileMemory : Registers
  blockMemory : Registers
  threadMemory : Registers

namespace MdUnzip47

/-- The members that a header sets. -/
structure Header where
  mdversion : List UInt8
  blocksize : ℤ
  modsizebits : ℤ
  modsizeBytes : ℤ
  hclfilesize : ℤ
  hclblocksize : ℤ
  hclblockkeysize : ℤ
  blockcount : ℤ
  blockremainder : ℤ
  hclfile : MdHashContextList
  hclblock : MdHashContextList

/-- True for a version that is none of the three. -/
def validateVersion (mdversion : List UInt8) : Bool :=
  decide (mdversion ≠ toLE 8 version111 ∧ mdversion ≠ toLE 8 version112 ∧
    mdversion ≠ toLE 8 version101)

/-- `modsizeBytes`. -/
def setModulus (modsizebits : ℤ) : ℤ :=
  if modsizebits = 0 then 0
  else if modsizebits.tmod 8 = 0 then modsizebits.tdiv 8
  else if modsizebits < 8 then 1
  else modsizebits.tdiv 8 + 1

/-- Up to and including the size of the keys. A list of file names of size 0 is
not read, and is empty either way. -/
def readHeader (memory : Unzip47Memory) (nf : IStream) :
    Except Trap (Option (Header × IStream)) :=
  let (mdversion, nf) := nf.read (toLE 8 version101)
  let (filesize, nf) := nf.read (intBytes 8 0)
  let (blocksize, nf) := nf.read (intBytes 8 10)
  let (modsizebits, nf) := nf.read (intBytes 4 32)
  let filesize := intOfBytes filesize
  let blocksize := intOfBytes blocksize
  let modsizebits := intOfBytes modsizebits
  if validateVersion mdversion then .ok none
  else do
    let modsizeBytes := setModulus modsizebits
    let (hclfilesize, filehashnames, nf) ←
      readNames (intBytes 4 0) (fun n => memory.buffers.fetch ⟨.buf, n⟩) nf
    let (hclblocksize, blockhashnames, nf) ←
      readNames (intBytes 4 0) (fun n => memory.buffers.fetch ⟨.buf2, n⟩) nf
    let blockcount ← calcFileBlocks filesize blocksize
    let blockremainder ← calcFileBlocksRemainder filesize blocksize
    let hclfile := MdHashContextList.new memory.fileMemory
      (setVectorHLstring mdHashlistNew filehashnames)
    let hclblock := MdHashContextList.new memory.blockMemory
      (setVectorHLstring mdHashlistNew blockhashnames)
    let (hclfile, nf) := hclfile.readBlockHashList nf
    let (hclblockkeysize, nf) := nf.read (intBytes 4 0)
    let hclblockkeysize := intOfBytes hclblockkeysize
    .ok (some ({ mdversion, blocksize, modsizebits, modsizeBytes, hclfilesize, hclblocksize,
                 hclblockkeysize, blockcount, blockremainder, hclfile, hclblock }, nf))

/-- Moves the stream, which is `archive` from its start, relative to where it is. -/
def seekg (archive : List UInt8) (offset : ℤ) (nf : IStream) : IStream :=
  let position : ℤ := archive.length - nf.rest.length + offset
  if nf.good = false then nf
  else if position < 0 then { nf with good := false }
  else { nf with rest := archive.drop position.toNat }

/-- Returns 0 for an archive that validates and 1 for one that does not. -/
def validateMDzip (memory : Unzip47Memory) (filename archive : List UInt8) : Except Trap ℕ :=
  if fileExtension filename ≠ ascii "mdz" ∧ fileExtension filename ≠ ascii "out" then .ok 1
  else if archive.length < 48 then .ok 1
  else do
    match ← readHeader memory (IStream.ofBytes archive) with
    | none => .ok 1
    | some (header, nf) =>
      let hclblockkeysize :=
        if header.hclblockkeysize > 0 then (calcBlockKeySize header.hclblock.hashlistvt : ℤ)
        else header.hclblockkeysize
      let nf := seekg archive hclblockkeysize nf
      let (format, _) := nf.read [0]
      let format := ofLE format
      if format > 7 then .ok 1
      else
        let mb : MdBitstream := {}
        let mb := mb.mdInitBitstream header.blocksize header.blockcount header.blockremainder
        let mb := mb.setFormat format
        let mb ← mb.calcBitstreamSize
        let modByteBlockSize := mb.modByteBlockSize + 1
        let hashblocksize :=
          toInt32 (calcBlockSize header.hclblock.hashlistvt + header.modsizeBytes)
        let totalblocksize ← int64 (hashblocksize * header.blockcount)
        let totalblocksize := toInt32 totalblocksize
        let sumfilesize := 40 + header.hclfilesize + header.hclblocksize + modByteBlockSize +
          calcBlockSize header.hclfile.hashlistvt + hclblockkeysize + totalblocksize
        .ok (if sumfilesize % 2 ^ 64 = archive.length then 0 else 1)

/-- What `mdunzipfile` carries from one block to the next besides the threads. -/
structure Reader where
  hclblock : MdHashContextList
  bsr : BitstreamReader
  modulusbytes : List UInt8
  nf : IStream

/-- The exponent of a block. The `switch` has a case for each format from 2 to 7. -/
def readExponent (mformat modexponentbase : ℕ) (last : Bool) (bsr : BitstreamReader) :
    ℕ × BitstreamReader :=
  if last = false then
    if 2 ≤ mformat ∧ mformat ≤ 6 then
      let (modexponent, bsr) := bsr.get mformat
      (modexponent + modexponentbase, bsr)
    else if mformat = 7 then bsr.get 7
    else (0, bsr)
  else bsr.get 7

def readRecord (incKey : IncrementKey) (mformat modexponentbase : ℕ) (last : Bool)
    (currblocksize : ℤ) (r : Reader) : BlockRecord Registers × Reader :=
  let (hclblock, nf) := r.hclblock.readBlockHashList r.nf
  let (modexponent, bsr) := readExponent mformat modexponentbase last r.bsr
  let (modulusbytes, nf) := nf.read r.modulusbytes
  let modulusIntRemainder := mpzImport modulusbytes
  let hclblock := hclblock.incrementBlockNum incKey
  ({ hregister := hclblock.hregister, modexponent, modulusIntRemainder,
     blocksize := currblocksize.toNat },
    { hclblock, bsr, modulusbytes, nf })

theorem readRecord_blocksize (incKey : IncrementKey) (mformat modexponentbase : ℕ) (last : Bool)
    (currblocksize : ℤ) (r : Reader) :
    (readRecord incKey mformat modexponentbase last currblocksize r).1.blocksize =
      currblocksize.toNat := rfl

/-- The keys, when their size is positive. -/
def readKeys (header : Header) (nf : IStream) : MdHashContextList × IStream :=
  if header.hclblockkeysize > 0 then header.hclblock.readKeyList nf else (header.hclblock, nf)

/-- The format of the table of exponents, the base and what follows it there, and
the stream after the table. -/
def readTable (memory : Unzip47Memory) (header : Header) (nf : IStream) :
    Except Trap (ℕ × ℕ × BitstreamReader × IStream) := do
  let (format, nf) := nf.read [0]
  let mformat := ofLE format
  let mb : MdBitstream := {}
  let mb := mb.mdInitBitstream header.blocksize header.blockcount header.blockremainder
  let mb := mb.setFormat mformat
  let mb ← mb.calcBitstreamSize
  if mb.modByteBlockSize < 0 then .error .badArrayLength
  else
    let (modExpBlock, nf) :=
      nf.read (memory.buffers.fetch ⟨.modExpBlock, mb.modByteBlockSize.toNat⟩)
    let bsr := BitstreamReader.new modExpBlock
    let (modexponentbase, bsr) := if mformat < 7 then bsr.get 7 else (0, bsr)
    .ok (mformat, modexponentbase, bsr, nf)

variable (lib : HashLibrary)

/-- What is done before the block loop, and all that the loop will read. -/
def mdunzipfile (memory : Unzip47Memory) (threadcount : ℕ) (filename archive : List UInt8) :
    Except Trap (Option (UnzipJob Registers)) :=
  if fileExtension filename ≠ ascii "mdz" ∧ fileExtension filename ≠ ascii "out" then .ok none
  else if archive.length < 48 then .ok none
  else do
    match ← readHeader memory (IStream.ofBytes archive) with
    | none => .ok none
    | some (header, nf) =>
      let (hclblock, nf) := readKeys header nf
      let (mformat, modexponentbase, bsr, nf) ← readTable memory header nf
      if header.modsizeBytes < 0 then .error .badArrayLength
      else
        let job ← startBlocks threadcount header.modsizebits
          (initialRegisters memory.threadMemory) (compareUnder lib hclblock.hashlistvt)
          (readRecord_blocksize (incKeyOf header.mdversion) mformat modexponentbase)
          header.blocksize header.blockremainder header.blockcount
          { hclblock
            bsr
            -- `new unsigned char[modsizeBytes]`, filled before it is used
            modulusbytes := List.replicate header.modsizeBytes.toNat 0
            nf }
        .ok (some job)

end MdUnzip47

end Mdencode.Cpp
