import Mdencode.Lib.Stream
import Mdencode.Cpp.BlockSignature
import Mdencode.Cpp.ScanCoverage

/-! The encoder `mdzipfile` of `mdZip.cpp`: the header with the two lists of
signature names, the file's digests, the keys, and a record for each block. -/

namespace Mdencode.Cpp

open Mdencode.Bytes

/-- The hash functions, the random numbers, and what the registers of the two
contexts held before. -/
structure ZipWorld where
  lib : HashLibrary
  random : Registers
  fileMemory : Registers
  blockMemory : Registers

/-- The arguments of `mdzipfile` in the ranges its command line checks. -/
structure MdzipArgs where
  filename : List UInt8
  file : List UInt8
  blocksize : ℕ
  modsize : ℕ
  fhlist : List ℤ
  bhlist : List ℤ
  randombh : Bool
  inc : Bool
  dec : Bool
  filename_ne : filename ≠ []
  one_le_blocksize : 1 ≤ blocksize
  blocksize_le : blocksize ≤ 100
  one_le_modsize : 1 ≤ modsize
  modsize_lt : modsize < 2 ^ 31
  length_lt : file.length < 2 ^ 63

/-- The doubles 1.0, 1.01, 1.11 and 1.12. -/
def version100 : ℕ := 0x3FF0000000000000

def version101 : ℕ := 0x3FF028F5C28F5C29

def version111 : ℕ := 0x3FF1C28F5C28F5C3

def version112 : ℕ := 0x3FF1EB851EB851EC

/-- `mdversion` and `incKey`; `inc` is looked at last. -/
def chooseVersion (inc dec : Bool) : ℕ × IncrementKey :=
  let chosen := (version101, .noinc)
  let chosen := if dec then (version111, .dec) else chosen
  if inc then (version112, .inc) else chosen

/-- `modulusint` after the export; each of its bytes is written. -/
def exportRemainder (modsizeBytes remainder : ℕ) : List UInt8 :=
  let (modulusint, count) := mpzExport remainder (List.replicate modsizeBytes 0)
  padBlockBytes count modsizeBytes modulusint

def exponentBytes (blocksize modexponent : ℕ) : List UInt8 :=
  if blocksize > 32 then intBytes 4 modexponent else [UInt8.ofNat modexponent]

section
variable (lib : HashLibrary) (incKey : IncrementKey) (blocksize modsize : ℕ)

/-- One block: its digests, its exponent and its remainder. -/
def mdzipBlock (hclblock : MdHashContextList) (byteblock : List UInt8) :
    MdHashContextList × List UInt8 :=
  let hclblock := hclblock.incrementBlockNum incKey
  let hclblock := hclblock.setByteBlockHashList lib byteblock
  let byteblockInt := mpzImport byteblock
  let remainder := byteblockInt % calcModulusInt modsize
  let modexponent := calcExponent byteblockInt
  (hclblock, hclblock.writeBlockHashList ++ exponentBytes blocksize modexponent ++
    exportRemainder (calcModulusBytes modsize).toNat remainder)

/-- The loop over the blocks; the first argument counts those that are left. -/
def mdzipBlocks (blockremainder : ℕ) : ℕ → List UInt8 → MdHashContextList → List UInt8
  | 0, _, _ => []
  | left + 1, nf, hclblock =>
    let currentblocksize := if left = 0 ∧ blockremainder ≠ blocksize then blockremainder
      else blocksize
    let (hclblock, record) := mdzipBlock lib incKey blocksize modsize hclblock
      (nf.take currentblocksize)
    record ++ mdzipBlocks blockremainder left (nf.drop currentblocksize) hclblock

end

section
variable (registry : List Hashlist) (world : ZipWorld)

/-- `hclfile` once the file has been hashed. -/
def fileContext (fhlist : List ℤ) (file : List UInt8) : MdHashContextList :=
  (MdHashContextList.new world.fileMemory (setVectorHL registry fhlist)).setFileHashList
    world.lib file

/-- `hclblock` before the first block. -/
def blockContext (bhlist : List ℤ) (randombh : Bool) : MdHashContextList :=
  let hclblock := MdHashContextList.new world.blockMemory (setVectorHL registry bhlist)
  if randombh then hclblock.randomizeKeyList world.random else hclblock

end

def writeNames (names : List UInt8) : List UInt8 := intBytes 4 names.length ++ names

def writeKeys (randombh : Bool) (hclblock : MdHashContextList) : List UInt8 :=
  if randombh then
    intBytes 4 (getHLvectorsStringNames hclblock.hashlistvt).length ++ hclblock.writeKeyList
  else intBytes 4 0

/-- The lists of names, the file's digests, and the keys. -/
def writeLists (randombh : Bool) (hclfile hclblock : MdHashContextList) : List UInt8 :=
  writeNames (getHLvectorsStringNames hclfile.hashlistvt) ++
    writeNames (getHLvectorsStringNames hclblock.hashlistvt) ++ hclfile.writeBlockHashList ++
    writeKeys randombh hclblock

variable (world : ZipWorld) (args : MdzipArgs)

/-- The name of the archive. -/
def MdzipArgs.mdzipname : List UInt8 := args.filename ++ ascii ".mdz"

def MdzipArgs.hclfile : MdHashContextList := fileContext mdHashlist world args.fhlist args.file

def MdzipArgs.hclblock : MdHashContextList :=
  blockContext mdHashlist world args.bhlist args.randombh

/-- What comes before the records. -/
def writeHeader (mdversion blocksize : ℕ) (hclfile hclblock : MdHashContextList) : List UInt8 :=
  toLE 8 mdversion ++ intBytes 8 args.file.length ++ intBytes 8 blocksize ++
    intBytes 4 args.modsize ++ writeLists args.randombh hclfile hclblock

/-- The archive; a file without a byte has none. -/
def mdzipfile : Except Trap (Option (List UInt8)) :=
  let filesize := args.file.length
  let blocksize := if filesize < args.blocksize then filesize else args.blocksize
  if filesize = 0 then .ok none
  else do
    let blockcount ← calcFileBlocks filesize blocksize
    let blockremainder ← calcFileBlocksRemainder filesize blocksize
    let hclfile := args.hclfile world
    let (mdversion, incKey) := chooseVersion args.inc args.dec
    let hclblock := args.hclblock world
    .ok (some (writeHeader args mdversion blocksize hclfile hclblock ++
      mdzipBlocks world.lib incKey blocksize args.modsize blockremainder.toNat blockcount.toNat
        args.file hclblock))

end Mdencode.Cpp
