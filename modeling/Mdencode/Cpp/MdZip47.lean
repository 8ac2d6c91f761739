import Mdencode.Cpp.Bitstream
import Mdencode.Cpp.MdZip

/-! The encoder `mdZip47::mdzipfile` of `mdzipsip47`. The exponents of the blocks
go in a table of their own, and a record is a digest and a remainder. -/

namespace Mdencode.Cpp

open Mdencode.Bytes

/-- What `mdzipfile` finds, and the memory that a pointer leads to when nothing
was assigned to it. -/
structure Zip47World extends ZipWorld where
  stray : ℕ → UInt8

/-- The `mdZip47` object. The command line leaves the block size at 10. -/
structure MdZip47 where
  filename : List UInt8
  file : List UInt8
  blocksize : ℕ
  fhlist : List ℤ
  sip48 : Bool
  hw48 : Bool
  randombh : Bool
  inc : Bool
  dec : Bool
  filename_ne : filename ≠ []
  one_le_blocksize : 1 ≤ blocksize
  blocksize_le : blocksize ≤ 10
  length_lt : file.length < 2 ^ 63

namespace MdZip47

/-- The list of block hashes and the modulus that the flags choose; `hw48` is
looked at last. The numbers are those of `SIP40`, `SIP48` and `HW48`. -/
def chooseBlocklist (sip48 hw48 : Bool) : List ℤ × ℕ :=
  let chosen := ([31], 32)
  let chosen := if sip48 then ([32], 24) else chosen
  if hw48 then ([13], 24) else chosen

variable (mdz : MdZip47)

def bhlist : List ℤ := (chooseBlocklist mdz.sip48 mdz.hw48).1

def modsizebits : ℕ := (chooseBlocklist mdz.sip48 mdz.hw48).2

/-- `modsizeBytes`, which is 4 unless set. -/
def setModulus (modsizebits : ℤ) : ℤ :=
  if modsizebits = 0 then 4
  else if modsizebits.tmod 8 = 0 then modsizebits.tdiv 8
  else if modsizebits < 8 then 1
  else modsizebits.tdiv 8 + 1

/-- `blockremainder`. -/
def setLastBlockSize (filesize blocksize : ℤ) : ℤ :=
  let lastblocksize := filesize.tmod blocksize
  if lastblocksize = 0 then blocksize else lastblocksize

theorem setLastBlockSize_natCast (filesize blocksize : ℕ) :
    setLastBlockSize filesize blocksize =
      (if filesize % blocksize = 0 then blocksize else filesize % blocksize : ℕ) := by
  have hmod : (filesize : ℤ).tmod blocksize = (filesize % blocksize : ℕ) :=
    (Int.ofNat_tmod filesize blocksize).symm
  rw [setLastBlockSize, hmod]
  split_ifs <;> first | rfl | omega

section
variable (lib : HashLibrary) (incKey : IncrementKey) (modsizebits : ℕ) (modsizeBytes : ℤ)

/-- One block: its digests and its remainder. -/
def mdzipBlock (_ : Bool) (byteblock : List UInt8) (s : MdHashContextList × List UInt8) :
    MdHashContextList × List UInt8 :=
  let (hclblock, mdzip) := s
  let hclblock := hclblock.incrementBlockNum incKey
  let hclblock := hclblock.setByteBlockHashList lib byteblock
  let byteblockInt := mpzImport byteblock
  let remainder := byteblockInt % calcModulusInt modsizebits
  (hclblock, mdzip ++ hclblock.writeBlockHashList ++
    exportRemainder modsizeBytes.toNat remainder)

end

variable (world : Zip47World)

def hclfile : MdHashContextList := fileContext mdHashlistNew world.toZipWorld mdz.fhlist mdz.file

def hclblock : MdHashContextList :=
  blockContext mdHashlistNew world.toZipWorld mdz.bhlist mdz.randombh

/-- The name of the archive. -/
def mdzipname : List UInt8 := mdz.filename ++ ascii ".mdz"

/-- What comes before the table of exponents. -/
def writeHeader (mdversion blocksize : ℕ) (hclfile hclblock : MdHashContextList) : List UInt8 :=
  toLE 8 mdversion ++ intBytes 8 mdz.file.length ++ intBytes 8 blocksize ++
    intBytes 4 mdz.modsizebits ++ writeLists mdz.randombh hclfile hclblock

/-- The archive; a file without a byte has none. -/
def mdzipfile : Except Trap (Option (List UInt8)) :=
  let filesize := mdz.file.length
  let blocksize := if filesize < mdz.blocksize then filesize else mdz.blocksize
  if filesize = 0 then .ok none
  else do
    let blockcount ← calcFileBlocks filesize blocksize
    let blockremainder := setLastBlockSize filesize blocksize
    let modsizeBytes := setModulus mdz.modsizebits
    let hclfile := mdz.hclfile world
    let (mdversion, incKey) := chooseVersion mdz.inc mdz.dec
    let hclblock := mdz.hclblock world
    let mb : MdBitstream := {}
    let mb := mb.mdInitBitstream blocksize blockcount blockremainder
    let mb := mb.calcMinMaxExponent mdz.file
    let mformat := mb.bitformat
    let mb ← (if mformat < 7 then mb.mdzipModExponentBitstream26 mdz.file
      else mb.mdzipModExponentBitstream mdz.file)
    let (_, records) := forByteblocks (mdzipBlock world.lib incKey mdz.modsizebits modsizeBytes)
      blocksize blockremainder.toNat blockcount.toNat mdz.file (hclblock, [])
    .ok (some (mdz.writeHeader mdversion blocksize hclfile hclblock ++ intBytes 1 mformat ++
      mb.writeBitstream world.stray ++ records))

end MdZip47

end Mdencode.Cpp
