import Mdencode.Go.FileBlocks
import Mdencode.Go.SignatureList

/-! The encoder of `mdZipFile.go` and the format object `mdFormatBinary.go` it
writes with, driven as `mdzip.go` does: the format object is made before the
encoder knows the sizes. A hex string is the bytes it stands for, and `none` is
a panic. -/

namespace Mdencode.Go

open Mdencode.Bytes

/-- The format object; `file` is what has been written. -/
structure MdFormat where
  blockSize : ℕ
  modSize : ℕ
  file : List UInt8
  deriving DecidableEq

namespace MdFormat

def init (blockSize modulusSize : ℕ) : MdFormat :=
  { blockSize, modSize := modulusSize, file := [] }

def write (md : MdFormat) (bytes : List UInt8) : MdFormat := { md with file := md.file ++ bytes }

/-- The header; of the sizes only the modulus size is kept. -/
def encodeFileHeader (md : MdFormat) (fileName filePath : List UInt8) (fileSize blockSize : ℕ)
    (filehashList blockhashList : List HashContext) (keylist : List UInt8) (modulusSize : ℕ) :
    MdFormat :=
  let hashes := hashListString filehashList blockhashList keylist
  let fileAttribute :=
    [fileSize, blockSize, modulusSize, fileName.length, filePath.length, hashes.length]
  ({ md with modSize := modulusSize }).write
    (fileAttribute.flatMap (toBE 8) ++ filePath ++ fileName ++ hashes)

def encodeFileHash (md : MdFormat) (hashBytes : List UInt8) : MdFormat := md.write hashBytes

/-- The exponent in one byte or in four. -/
def exponentBytes (blockSize modExp : ℕ) : List UInt8 :=
  if blockSize ≤ 32 then [UInt8.ofNat modExp] else toBE 4 modExp

/-- The remainder at the end of `modByteSize` bytes, if it fits. -/
def padBlock (modSize modremainder : ℕ) : Option (List UInt8) :=
  if byteLen modremainder ≤ modByteSize modSize then
    some (List.replicate (modByteSize modSize - byteLen modremainder) 0 ++ magBE modremainder)
  else none

def encodeBlock (md : MdFormat) (hashList : List (List UInt8)) (modExp modremainder : ℕ) :
    Option MdFormat :=
  (padBlock md.modSize modremainder).map fun pad =>
    md.write (hashList.flatten ++ exponentBytes md.blockSize modExp ++ pad)

end MdFormat

/-- The encoder object. `entries` records the calls of `encodeBlock`. -/
structure FileData where
  fileSize : ℕ
  blockSize : ℕ
  modSize : ℕ
  blockCount : ℕ
  blockRemainder : ℕ
  fileHashList : List HashContext
  blockHashList : List HashContext
  keylist : List UInt8
  mdfmt : MdFormat
  entries : List BlockEntry

/-- The arguments of `mdzip`, and the file. Sizes are `int64`, lengths are
`int`, and a key list is made of names, colons, digits and commas. -/
structure MdzipArgs where
  blocksize : ℕ
  modsize : ℕ
  fileHashList : List HashContext
  blockHashList : List HashContext
  keylist : List UInt8
  fileName : List UInt8
  filePath : List UInt8
  file : List UInt8
  blocksize_lt : blocksize < 2 ^ 63
  modsize_lt : modsize < 2 ^ 63
  fileName_lt : fileName.length < 2 ^ 63
  filePath_lt : filePath.length < 2 ^ 63
  file_lt : file.length < 2 ^ 63
  hashes_lt : (hashListString fileHashList blockHashList keylist).length < 2 ^ 63
  keylist_dash : 45 ∉ keylist

namespace FileData

def init : FileData where
  fileSize := 0
  blockSize := 0
  modSize := 0
  blockCount := 0
  blockRemainder := 0
  fileHashList := []
  blockHashList := []
  keylist := []
  mdfmt := MdFormat.init 0 0
  entries := []

/-- The format object is made with the sizes the encoder has now. -/
def setMdFormat (l : FileData) : FileData :=
  { l with mdfmt := MdFormat.init l.blockSize l.modSize }

def setHashLists (l : FileData) (fileHashList blockHashList : List HashContext)
    (keylist : List UInt8) : FileData :=
  { l with fileHashList, blockHashList, keylist }

/-- One `io.Copy` after the other from the same open file: the first leaves
nothing for the next. -/
def fileSignatures : List HashContext → List UInt8 → List (List UInt8)
  | [], _ => []
  | hash :: rest, file => hash.sum file :: fileSignatures rest []

def mdencodeFileHashes (l : FileData) (file : List UInt8) : FileData :=
  { l with mdfmt := (fileSignatures l.fileHashList file).foldl MdFormat.encodeFileHash l.mdfmt }

/-- The record of one block. -/
def encodeFileBlock (l : FileData) (modulusBigInt : ℕ) (filebuffer : List UInt8) :
    Option FileData :=
  let (modExp, fileBlockModulus) := calculateFileBlockModulus (ofBE filebuffer) modulusBigInt
  let hlistarray := l.blockHashList.map fun hash => hash.sum filebuffer
  (l.mdfmt.encodeBlock hlistarray modExp fileBlockModulus).map fun mdfmt =>
    { l with
      mdfmt
      entries := l.entries ++
        [⟨hlistarray.flatten, modExp, fileBlockModulus, filebuffer.length, mdfmt.file.length⟩] }

/-- The read loop of `mdencodeFileBlock`; each read but the last takes at least
one byte of the file, whose length bounds the iterations. -/
def encodeFileBlocks (modulusBigInt : ℕ) :
    ℕ → ℕ → List UInt8 → List UInt8 → FileData → Option FileData
  | 0, _, _, _, _ => none
  | fuel + 1, blocksRead, file, filebuffer, l =>
    if file = [] then some l
    else
      let filebuffer' := fileRead filebuffer file
      let filebuffer' :=
        if blocksRead = l.blockCount then filebuffer'.take l.blockRemainder else filebuffer'
      (l.encodeFileBlock modulusBigInt filebuffer').bind
        (encodeFileBlocks modulusBigInt fuel (blocksRead + 1)
          (file.drop (min filebuffer.length maxRW)) filebuffer')

/-- Without a modulus size `fileBlockModulus` is nil when the block is encoded. -/
def mdencodeFileBlock (l : FileData) (blocksize bitsize : ℕ) (file : List UInt8) :
    Option FileData :=
  if l.blockHashList = [] then some l
  else if bitsize = 0 then none
  else encodeFileBlocks (2 ^ bitsize) (file.length + 1) 1 file (List.replicate blocksize 0) l

def mdencodeFile (l : FileData) (args : MdzipArgs) : Option FileData :=
  let size := args.file.length
  let blocksize := if size < args.blocksize then size else args.blocksize
  let l := { l with
    fileSize := size
    blockSize := blocksize
    modSize := args.modsize
    mdfmt := l.mdfmt.encodeFileHeader args.fileName args.filePath size blocksize l.fileHashList
      l.blockHashList l.keylist args.modsize }
  let l := l.mdencodeFileHashes args.file
  if 0 < blocksize then
    (calculateFileBlocks size blocksize).bind fun (blocks, remainder) =>
      { l with blockCount := blocks, blockRemainder := remainder }.mdencodeFileBlock blocksize
        args.modsize args.file
  else some l

end FileData

/-- `mdzip`: the format object, the hash lists, and then the file. -/
def mdzip (args : MdzipArgs) : Option FileData :=
  (FileData.init.setMdFormat.setHashLists args.fileHashList args.blockHashList
    args.keylist).mdencodeFile args

end Mdencode.Go
