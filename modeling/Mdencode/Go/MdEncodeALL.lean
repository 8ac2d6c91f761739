import Mdencode.Lib.Numerals
import Mdencode.Go.RecordFormat
import Mdencode.Go.FileSignatures

/-! The encoder of `mdEncodeALL.go`. It takes nothing from the format object, so
a run is the sequence of calls it makes there. Texts are their bytes. -/

namespace Mdencode.Go

open Mdencode.Bytes Mdencode.Numerals

/-- The calls of the `mdformat` interface that carry data. -/
inductive FormatterCall where
  | encodeFileHeader (fileName filePath : List UInt8) (fileSize blockSize : ℤ)
      (filehashList blockhashList : List (List UInt8)) (modulusSize : ℤ)
  | encodeFileHash (hashName hashBytes : List UInt8)
  | encodeBlock (blockSize : ℕ) (hashList : List (List UInt8)) (modExp : ℕ) (mod : List UInt8)
  | encodeEndFile
  deriving DecidableEq

namespace FormatterCall

def isFileHash : FormatterCall → Bool
  | encodeFileHash .. => true
  | _ => false

def isBlock : FormatterCall → Bool
  | encodeBlock .. => true
  | _ => false

end FormatterCall

def hashNames (hashes : List HashContext) : List (List UInt8) :=
  hashes.map fun hash => ascii hash.row.hashName

/-- `strings.Join(texts, ":")`. -/
def joinTexts (texts : List (List UInt8)) : List UInt8 := [58].intercalate texts

/-- `fmt.Sprint` of a byte slice. -/
def sprintBytes (bytes : List UInt8) : List UInt8 :=
  91 :: [32].intercalate (bytes.map fun b => decimal b.toNat) ++ [93]

/-- A file of a run, under its base name. -/
structure InputFile where
  fileName : List UInt8
  filePath : List UInt8
  content : List UInt8
  fileName_ne : fileName ≠ []
  fileName_lt : fileName.length < 2 ^ 63
  filePath_lt : filePath.length < 2 ^ 63
  content_lt : content.length < 2 ^ 63

/-- The options of a run. The lists are made without repetition. -/
structure MdEncode where
  byteblock : Bool
  byteblockint : Bool
  filehashline : Bool
  blocksize : ℤ
  bitsize : ℤ
  fileHashList : List HashContext
  blockHashList : List HashContext
  blocksize_lt : blocksize < 2 ^ 63
  bitsize_lt : bitsize < 2 ^ 63
  fileHash_nodup : (fileHashList.map HashContext.row).Nodup
  blockHash_nodup : (blockHashList.map HashContext.row).Nodup
  hashes_lt : (hashListString fileHashList blockHashList []).length < 2 ^ 63

/-- The hash objects of the two lists, which a run keeps from file to file. -/
structure HashListMaps where
  hashListFile : HashObjects
  hashListBlocks : HashObjects

namespace MdEncode

def mdencodeFileHashes (l : MdEncode) (signatures : List (List UInt8)) : List FormatterCall :=
  List.zipWith (fun hash signature =>
    .encodeFileHash (ascii hash.row.hashName) (hexEncode signature)) l.fileHashList signatures

def mdencodeFileHashLine (l : MdEncode) (signatures : List (List UInt8)) : List FormatterCall :=
  [.encodeFileHash (joinTexts (hashNames l.fileHashList)) (joinTexts (signatures.map hexEncode))]

def fileHashCalls (l : MdEncode) (signatures : List (List UInt8)) : List FormatterCall :=
  if l.filehashline then l.mdencodeFileHashLine signatures else l.mdencodeFileHashes signatures

/-- Every object of the list gets the block, and is reset behind its digest. -/
def blockHashLoop : List HashContext → HashObjects → List UInt8 → List (List UInt8) × HashObjects
  | [], objects, _ => ([], objects)
  | hash :: rest, objects, filebuffer =>
    let objects := objects.write hash filebuffer
    let (sums, objects') := blockHashLoop rest (objects.reset hash) filebuffer
    (objects.sum hash :: sums, objects')

def blockCall (l : MdEncode) (bytesRead : ℕ) (filebuffer : List UInt8) (sums : List (List UInt8)) :
    FormatterCall :=
  let blockBigInt := ofBE filebuffer
  let bufstring := if l.byteblock then [sprintBytes filebuffer] else []
  let blockbytesBigInt :=
    if 0 < l.bitsize ∧ l.byteblockint then [decimal blockBigInt] else []
  let (modExp, fileblockmodulus) :=
    if 0 < l.bitsize then calculateFileBlockModulus blockBigInt (2 ^ l.bitsize.toNat) else (0, 0)
  .encodeBlock bytesRead (bufstring ++ blockbytesBigInt ++ sums.map hexEncode) modExp
    (decimal fileblockmodulus)

/-- The read loop of `mdencodeFileBlock`, with what is left of the file. The
first argument bounds the iterations. -/
def readBlocks (l : MdEncode) (blocks remainder : ℕ) :
    ℕ → ℕ → ℕ → List UInt8 → List UInt8 → HashObjects → Option (List FormatterCall × HashObjects)
  | 0, _, _, _, _, _ => none
  | fuel + 1, blocksRead, bytesRead, file, filebuffer, objects =>
    if file = [] then some ([], objects)
    else
      let filebuffer' := fileRead filebuffer file
      let filebuffer' := if blocksRead = blocks then filebuffer'.take remainder else filebuffer'
      let bytesRead := if blocksRead = blocks then remainder else bytesRead
      let (sums, objects) := blockHashLoop l.blockHashList objects filebuffer'
      (l.readBlocks blocks remainder fuel (blocksRead + 1) bytesRead
        (file.drop (min filebuffer.length maxRW)) filebuffer' objects).map fun (calls, objects) =>
          (l.blockCall bytesRead filebuffer' sums :: calls, objects)

def mdencodeFileBlock (l : MdEncode) (blocks remainder : ℕ) (file : List UInt8)
    (objects : HashObjects) : Option (List FormatterCall × HashObjects) :=
  let blocksize := l.blocksize.toNat
  if l.blockHashList = [] then some ([], objects)
  else l.readBlocks blocks remainder (file.length + 1) 1 blocksize file
    (List.replicate blocksize 0) objects

def headerCall (l : MdEncode) (file : InputFile) : FormatterCall :=
  .encodeFileHeader file.fileName file.filePath file.content.length l.blocksize
    (hashNames l.fileHashList) (hashNames l.blockHashList) l.bitsize

def mdencodeFile (l : MdEncode) (maps : HashListMaps) (file : InputFile) :
    Option (List FormatterCall × HashListMaps) :=
  let (signatures, hashListFile) :=
    hashLoop l.fileHashList maps.hashListFile (osOpen file.content)
  let calls := l.headerCall file :: l.fileHashCalls signatures
  if 0 < l.blocksize then
    (calculateFileBlocks file.content.length l.blocksize.toNat).bind fun (blocks, remainder) =>
      (l.mdencodeFileBlock blocks remainder file.content maps.hashListBlocks).map
        fun (blockCalls, hashListBlocks) =>
          (calls ++ blockCalls ++ [.encodeEndFile], ⟨hashListFile, hashListBlocks⟩)
  else some (calls ++ [.encodeEndFile], { maps with hashListFile })

/-- What is called for each file of a list, one after the other. -/
def mdencodeDirectory (l : MdEncode) :
    HashListMaps → List InputFile → Option (List (List FormatterCall))
  | _, [] => some []
  | maps, file :: files =>
    (l.mdencodeFile maps file).bind fun (calls, maps) =>
      (l.mdencodeDirectory maps files).map (calls :: ·)

/-- A run of `mdencode`, from new hash objects. -/
def mdencode (l : MdEncode) (files : List InputFile) : Option (List (List FormatterCall)) :=
  l.mdencodeDirectory ⟨.new, .new⟩ files

/-! What is called for one file -/

def blockOf (l : MdEncode) (block : List UInt8) : FormatterCall :=
  l.blockCall block.length block (l.blockHashList.map fun hash => hash.sum block)

/-- What the read loop has in its buffer, one block after the other. -/
def readParts (blocks remainder : ℕ) : ℕ → ℕ → List UInt8 → List UInt8 → List (List UInt8)
  | 0, _, _, _ => []
  | fuel + 1, blocksRead, file, filebuffer =>
    if file = [] then []
    else
      let filebuffer' := fileRead filebuffer file
      let filebuffer' := if blocksRead = blocks then filebuffer'.take remainder else filebuffer'
      filebuffer' :: readParts blocks remainder fuel (blocksRead + 1)
        (file.drop (min filebuffer.length maxRW)) filebuffer'

/-- The blocks of a file in blocks of `B` bytes, as they are read. -/
def fileBlocks (file : List UInt8) (B : ℕ) : List (List UInt8) :=
  match calculateFileBlocks file.length B with
  | some (blocks, remainder) =>
    readParts blocks remainder (file.length + 1) 1 file (List.replicate B 0)
  | none => []

def blockCalls (l : MdEncode) (file : List UInt8) : List FormatterCall :=
  if 0 < l.blocksize ∧ l.blockHashList ≠ [] then (fileBlocks file l.blocksize.toNat).map l.blockOf
  else []

/-- The calls for a file whose signatures come out as given. -/
def fileCalls (l : MdEncode) (signatures : List (List UInt8)) (file : InputFile) :
    List FormatterCall :=
  l.headerCall file :: l.fileHashCalls signatures ++ l.blockCalls file.content ++ [.encodeEndFile]

theorem reset_write_new (hash : HashContext) (bytes : List UInt8) :
    (HashObjects.new.write hash bytes).reset hash = .new := by
  rw [HashObjects.reset, HashObjects.write, Function.update_idem]
  exact Function.update_eq_self hash.row HashObjects.new

/-- Block objects are as new after every block. -/
theorem blockHashLoop_new (hashes : List HashContext) (filebuffer : List UInt8) :
    blockHashLoop hashes .new filebuffer = (hashes.map fun hash => hash.sum filebuffer, .new) := by
  induction hashes with
  | nil => rfl
  | cons hash rest ih =>
    simp only [blockHashLoop, reset_write_new, ih, List.map_cons, HashObjects.sum_write]
    rfl

section
variable {l : MdEncode} {blocks remainder fuel blocksRead : ℕ} {file filebuffer : List UInt8}

/-- The buffer is never shorter than the last block. -/
theorem length_part (hrem : remainder ≤ filebuffer.length) :
    (if blocksRead = blocks then (fileRead filebuffer file).take remainder
      else fileRead filebuffer file).length =
        if blocksRead = blocks then remainder else filebuffer.length := by
  split_ifs
  · rw [List.length_take, length_fileRead, Nat.min_eq_left hrem]
  · exact length_fileRead _ _

/-- From new hash objects every block is hashed on its own. -/
theorem readBlocks_eq (hpos : 0 < remainder) (hrem : remainder ≤ filebuffer.length)
    (hfuel : file.length < fuel) :
    l.readBlocks blocks remainder fuel blocksRead filebuffer.length file filebuffer .new =
      some ((readParts blocks remainder fuel blocksRead file filebuffer).map l.blockOf, .new) := by
  induction fuel generalizing blocksRead file filebuffer with
  | zero => omega
  | succ fuel ih =>
    rw [readBlocks, readParts]
    by_cases hfile : file = []
    · rw [if_pos hfile, if_pos hfile]
      rfl
    · have hlen := @length_part blocks remainder blocksRead file filebuffer hrem
      have hnext : remainder ≤
          (if blocksRead = blocks then (fileRead filebuffer file).take remainder
          else fileRead filebuffer file).length := by
        rw [hlen]
        split_ifs
        · exact le_rfl
        · exact hrem
      have hrest : (file.drop (min filebuffer.length maxRW)).length < fuel := by
        have hmax : 1 ≤ maxRW := le_maxRW (by norm_num)
        have hfile' := List.length_pos_iff.mpr hfile
        rw [List.length_drop]
        omega
      rw [if_neg hfile, if_neg hfile]
      dsimp only
      rw [← hlen, blockHashLoop_new]
      dsimp only
      rw [ih hnext hrest]
      rfl

end

theorem fileBlocks_nil (B : ℕ) : fileBlocks [] B = [] := by
  unfold fileBlocks
  split
  · rw [readParts, if_pos rfl]
  · rfl

section
variable (l : MdEncode) (content : List UInt8)

/-- The block records depend on the file alone. -/
theorem mdencodeFileBlock_new (hpos : 0 < l.blocksize) :
    ∃ count rem, calculateFileBlocks content.length l.blocksize.toNat = some (count, rem) ∧
      l.mdencodeFileBlock count rem content .new = some (l.blockCalls content, .new) := by
  have hB : 0 < l.blocksize.toNat := by omega
  rcases eq_or_ne content [] with rfl | hne
  · refine ⟨0, l.blocksize.toNat, ?_, ?_⟩
    · rw [calculateFileBlocks, if_neg hB.ne', List.length_nil, Nat.zero_mod, if_pos rfl,
        Nat.zero_div]
    · simp [mdencodeFileBlock, blockCalls, fileBlocks_nil, readBlocks]
  · obtain ⟨count, rem, hcount, hsplit⟩ :=
      calculateFileBlocks_splits hB (List.length_pos_iff.mpr hne)
    refine ⟨count, rem, hcount, ?_⟩
    rw [mdencodeFileBlock, blockCalls, fileBlocks, hcount]
    split_ifs with hnil hboth hboth
    · exact absurd hnil hboth.2
    · rfl
    · have hbuf : (List.replicate l.blocksize.toNat (0 : UInt8)).length = l.blocksize.toNat :=
        List.length_replicate
      have hblocks := @readBlocks_eq l count rem (content.length + 1) 1 content
        (List.replicate l.blocksize.toNat 0) hsplit.rem_pos (hsplit.rem_le.trans_eq hbuf.symm)
        (Nat.lt_succ_self _)
      rwa [hbuf] at hblocks
    · exact absurd ⟨hpos, hnil⟩ hboth

theorem mdencodeFile_eq (objects : HashObjects) (file : InputFile) :
    l.mdencodeFile ⟨objects, .new⟩ file =
      let (signatures, objects') := hashLoop l.fileHashList objects (osOpen file.content)
      some (l.fileCalls signatures file, ⟨objects', .new⟩) := by
  rw [mdencodeFile]
  dsimp only
  split_ifs with hpos
  · obtain ⟨count, rem, hcount, hblocks⟩ := l.mdencodeFileBlock_new file.content hpos
    rw [hcount, Option.bind_some, hblocks]
    rfl
  · rw [fileCalls, blockCalls, if_neg fun h => hpos h.1, List.append_nil]

end

end MdEncode

end Mdencode.Go
