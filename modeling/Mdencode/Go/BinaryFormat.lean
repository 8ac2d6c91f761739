import Mdencode.Go.MdEncodeALL

/-! The binary format object `mdFormatBinary.go` of `mdencode`, and its reader
`testBinReadMdFmt.go`, which makes the calls again. -/

namespace Mdencode.Go

open Mdencode.Bytes Mdencode.Numerals

/-- `uint64` of an `int64`. -/
def uint64 (v : ℤ) : ℕ := (v % 2 ^ 64).toNat

/-- `int64` of a `uint64`. -/
def int64 (v : ℕ) : ℤ := if v < 2 ^ 63 then v else v - 2 ^ 64

/-- The format object; `file` is what has been written. -/
structure MdFormatBinary where
  modSize : ℕ
  file : List UInt8
  deriving DecidableEq

namespace MdFormatBinary

/-- The sizes are not known yet. -/
def init : MdFormatBinary := ⟨0, []⟩

def write (md : MdFormatBinary) (bytes : List UInt8) : MdFormatBinary :=
  { md with file := md.file ++ bytes }

def encodeFileHeader (md : MdFormatBinary) (fileName filePath : List UInt8)
    (fileSize blockSize : ℤ) (filehashList blockhashList : List (List UInt8)) (modulusSize : ℤ) :
    MdFormatBinary :=
  let hashListString := joinTexts filehashList ++ 45 :: joinTexts blockhashList
  let fileAttribute := [uint64 fileSize, uint64 blockSize, uint64 modulusSize, fileName.length,
    filePath.length, hashListString.length]
  ({ md with modSize := uint64 modulusSize }).write
    (fileAttribute.flatMap (toBE 8) ++ filePath ++ fileName ++ hashListString)

/-- The error of the decoding is dropped. -/
def encodeFileHash (md : MdFormatBinary) (hashBytes : List UInt8) : MdFormatBinary :=
  md.write (hexDecode hashBytes)

/-- The record of a block. The exponent is cut to a `uint32`; a remainder that
does not fit is a panic. -/
def encodeBlock (md : MdFormatBinary) (hashList : List (List UInt8)) (modExp : ℕ)
    (mod : List UInt8) : Option MdFormatBinary :=
  (MdFormat.padBlock md.modSize (ofDecimal mod)).map fun padBlock =>
    md.write (hexDecode hashList.flatten ++ toBE 4 modExp ++ padBlock)

def encode (md : MdFormatBinary) : FormatterCall → Option MdFormatBinary
  | .encodeFileHeader fileName filePath fileSize blockSize filehashList blockhashList modulusSize =>
    some (md.encodeFileHeader fileName filePath fileSize blockSize filehashList blockhashList
      modulusSize)
  | .encodeFileHash _ hashBytes => some (md.encodeFileHash hashBytes)
  | .encodeBlock _ hashList modExp mod => md.encodeBlock hashList modExp mod
  | .encodeEndFile => some md

end MdFormatBinary

/-- What is written for the calls of a run. -/
def binaryStream (calls : List FormatterCall) : Option (List UInt8) :=
  (calls.foldlM MdFormatBinary.encode .init).map MdFormatBinary.file

/-! The reader -/

/-- The call for the block whose record starts at `start`, and the end of the
record. The digests are read one by one, as those of the file are. -/
def importBlock (bytes : List UInt8) (blocklistarr : List ℕ) (modSize blockSize start : ℕ) :
    Option (FormatterCall × ℕ) := do
  let (hashes, stop) ← decodeFileHashes bytes blocklistarr start
  let (modExp, stop) ← readUint 4 bytes stop
  let (n, stop) ← readUint (modByteSize modSize) bytes stop
  return (.encodeBlock blockSize (hashes.map hexEncode) modExp (decimal n), stop)

/-- The block loop, for the given number of blocks that are left. -/
def importBlocks (bytes : List UInt8) (blocklistarr : List ℕ)
    (modSize blockSize blocks remainder : ℕ) : ℕ → ℕ → ℕ → Option (List FormatterCall)
  | 0, _, _ => some []
  | left + 1, i, start => do
    let currentSize := if i + 1 ≠ blocks then blockSize else remainder
    let (call, stop) ← importBlock bytes blocklistarr modSize currentSize start
    let calls ← importBlocks bytes blocklistarr modSize blockSize blocks remainder left (i + 1) stop
    return call :: calls

/-- The header and the file hashes. Neither part of the hash list string holds
a dash, so its split at dashes is a list of one. -/
def importHeader (header : FileHeader) (fileHashes : List (List UInt8)) : List FormatterCall :=
  .encodeFileHeader header.filename header.filepath (int64 header.fileSize) (int64 header.blockSize)
      [header.filelist] [header.blocklist] (int64 header.modSize) ::
    List.zipWith (fun name hashBytes => .encodeFileHash name (hexEncode hashBytes))
      (header.filelist.splitOn 58) fileHashes

/-- The calls made out of the buffer, `none` when the importer panics. Without a
block hash list it exits behind the file hashes. -/
def importBytes (bytes : List UInt8) : Option (List FormatterCall) := do
  let (header, stop) ← decodeHeader bytes
  let (fileHashes, stop) ← decodeFileHashes bytes (calcHashBlockSize header.filelist) stop
  if header.blocklist = [] then return importHeader header fileHashes
  let (blocks, remainder) ← calculateFileBlocks header.fileSize header.blockSize
  let calls ← importBlocks bytes (calcHashBlockSize header.blocklist) header.modSize
    header.blockSize blocks remainder blocks 0 stop
  return importHeader header fileHashes ++ calls ++ [.encodeEndFile]

/-- The file is read at once. -/
def testBinReadMdFmt (file : List UInt8) : Option (List FormatterCall) :=
  importBytes (bufrRead file)

end Mdencode.Go
