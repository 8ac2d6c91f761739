import Mdencode.Cpp.MdUnzip

/-! The format without a header of `mdZipSimple.cpp` and `mdUnzipSimple.cpp`:
the file size and one key, and then records for blocks of 14 bytes. -/

namespace Mdencode.Cpp

open Mdencode.Bytes

/-- The arguments of `mdzipfileNoHeader`; the other ones are constants. -/
structure MdSimple where
  filename : List UInt8
  file : List UInt8
  key : UInt64
  filename_ne : filename ≠ []
  length_lt : file.length < 2 ^ 63

namespace MdSimple

def blocksize : ℕ := 14

def modsize : ℕ := 32

/-- `FAST64`. -/
def blocklist : List Hashlist := setVectorHL mdHashlist [6]

variable (mdz : MdSimple)

/-- The name of the archive. -/
def mdzipname : List UInt8 := mdz.filename ++ ascii ".mdsz"

/-- `hclblock` with the key set. -/
def hclblock (blockMemory : Registers) : MdHashContextList :=
  let hclblock := MdHashContextList.new blockMemory blocklist
  { hclblock with hregister := hclblock.hregister.store .fast64seed (toLE 8 mdz.key.toNat) }

/-- The archive; a file without a byte has none. -/
def mdzipfileNoHeader (lib : HashLibrary) (blockMemory : Registers) :
    Except Trap (Option (List UInt8)) :=
  let filesize := mdz.file.length
  if filesize = 0 then .ok none
  else do
    let blockcount ← calcFileBlocks filesize blocksize
    let blockremainder ← calcFileBlocksRemainder filesize blocksize
    .ok (some (intBytes 8 filesize ++ toLE 8 mdz.key.toNat ++
      mdzipBlocks lib .noinc blocksize modsize blockremainder.toNat blockcount.toNat mdz.file
        (mdz.hclblock blockMemory)))

/-- Returns 0 for an archive that validates and 1 for one that does not. -/
def validateMDzip (filename archive : List UInt8) : Except Trap ℕ :=
  if fileExtension filename ≠ ascii "mdsz" ∧ fileExtension filename ≠ ascii "out" then .ok 1
  else if archive.length < 21 then .ok 1
  else do
    let nf := IStream.ofBytes archive
    let (filesize, _) := nf.read (intBytes 8 0)
    let filesize := intOfBytes filesize
    let modsizeBytes := calcModulusBytes modsize
    let blockcount ← calcFileBlocks filesize blocksize
    let hashblocksize := toInt32 (calcBlockSize blocklist + modsizeBytes + 1)
    let totalblocksize ← int64 (hashblocksize * blockcount)
    let totalblocksize := toInt32 totalblocksize
    let sumfilesize ← int32 (16 + totalblocksize)
    .ok (if sumfilesize % 2 ^ 64 = archive.length then 0 else 1)

end MdSimple

end Mdencode.Cpp
