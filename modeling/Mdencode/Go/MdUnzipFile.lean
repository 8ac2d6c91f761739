import Mdencode.Go.FileBlocks
import Mdencode.Go.SignatureList

/-! What `DecodeFile` reads out of the bytes of an archive, with the offset it
has reached; the scan of a block is left out. The archive is read at once, and
what that one `Read` returns is taken for all of it. An index or a slice that is
out of range is a panic, and so is a division by zero. -/

namespace Mdencode.Go

open Mdencode.Bytes

/-- `bytes[start:start+count]` and the end of it. -/
def readBytes (bytes : List UInt8) (start count : ℕ) : Option (List UInt8 × ℕ) :=
  if start + count ≤ bytes.length then some ((bytes.drop start).take count, start + count)
  else none

def readUint (width : ℕ) (bytes : List UInt8) (start : ℕ) : Option (ℕ × ℕ) :=
  (readBytes bytes start width).map fun (field, stop) => (ofBE field, stop)

structure FileHeader where
  fileSize : ℕ
  blockSize : ℕ
  modSize : ℕ
  filepath : List UInt8
  filename : List UInt8
  hashlist : List UInt8
  filelist : List UInt8
  blocklist : List UInt8
  keylist : List UInt8
  deriving DecidableEq

/-- The header, up to the split of the hash list string. -/
def decodeHeader (bytes : List UInt8) : Option (FileHeader × ℕ) := do
  let (fileSize, stop) ← readUint 8 bytes 0
  let (blockSize, stop) ← readUint 8 bytes stop
  let (modSize, stop) ← readUint 8 bytes stop
  let (fileNameLen, stop) ← readUint 8 bytes stop
  let (filePathLen, stop) ← readUint 8 bytes stop
  let (fileHashLen, stop) ← readUint 8 bytes stop
  let (filepath, stop) ← readBytes bytes stop filePathLen
  let (filename, stop) ← readBytes bytes stop fileNameLen
  let (hashlist, stop) ← readBytes bytes stop fileHashLen
  let (filelist, blocklist, keylist) ← splitHashList hashlist
  return (⟨fileSize, blockSize, modSize, filepath, filename, hashlist, filelist, blocklist,
    keylist⟩, stop)

/-- The file signatures, one for each size. -/
def decodeFileHashes (bytes : List UInt8) : List ℕ → ℕ → Option (List (List UInt8) × ℕ)
  | [], start => some ([], start)
  | size :: rest, start => do
    let (hashBytes, stop) ← readBytes bytes start size
    let (others, stop) ← decodeFileHashes bytes rest stop
    return (hashBytes :: others, stop)

def decodeBlock (bytes : List UInt8) (blockSize modSize mdblocksize currentBlocksize start : ℕ) :
    Option BlockEntry := do
  let (hashBytes, stop) ← readBytes bytes start mdblocksize
  let (modExp, stop) ← readUint (if blockSize ≤ 32 then 1 else 4) bytes stop
  let (modremainder, stop) ← readUint (modByteSize modSize) bytes stop
  return ⟨hashBytes, modExp, modremainder, currentBlocksize, stop⟩

/-- The block loop, for the given number of blocks that are left. -/
def decodeBlocks (bytes : List UInt8) (blockSize modSize mdblocksize blocks remainder : ℕ) :
    ℕ → ℕ → ℕ → Option (List BlockEntry)
  | 0, _, _ => some []
  | left + 1, blockNumber, start => do
    let currentBlocksize := if blockNumber + 1 ≠ blocks then blockSize else remainder
    let block ← decodeBlock bytes blockSize modSize mdblocksize currentBlocksize start
    let others ← decodeBlocks bytes blockSize modSize mdblocksize blocks remainder left
      (blockNumber + 1) block.offset
    return block :: others

structure DecodedFile where
  header : FileHeader
  fileHashes : List (List UInt8)
  blocks : List BlockEntry
  deriving DecidableEq

/-- The buffer is parsed. An archive without a block hash list makes `DecodeFile`
exit. -/
def decodeBytes (bytes : List UInt8) : Option DecodedFile := do
  let (header, stop) ← decodeHeader bytes
  if header.blocklist = [] then none
  let (fileHashes, stop) ← decodeFileHashes bytes (calcHashBlockSize header.filelist) stop
  let mdblocksize := (calcHashBlockSize header.blocklist).sum
  let (count, remainder) ← calculateFileBlocks header.fileSize header.blockSize
  let blocks ← decodeBlocks bytes header.blockSize header.modSize mdblocksize count remainder
    count 0 stop
  return ⟨header, fileHashes, blocks⟩

def decodeFile (file : List UInt8) : Option DecodedFile := decodeBytes (bufrRead file)

/-! What has been read, in terms of what was there -/

section
variable {bytes field : List UInt8} {start stop count : ℕ}

theorem readBytes_eq_some (h : readBytes bytes start count = some (field, stop)) :
    stop = start + count ∧ stop ≤ bytes.length ∧ field.length = count ∧
      bytes.drop start = field ++ bytes.drop stop := by
  rw [readBytes] at h
  split_ifs at h with hle
  obtain ⟨rfl, rfl⟩ := Prod.mk.inj (Option.some.inj h)
  refine ⟨rfl, hle, ?_, ?_⟩
  · rw [List.length_take, List.length_drop]
    omega
  · rw [← List.drop_drop, List.take_append_drop]

theorem readUint_eq_some {width v : ℕ} (h : readUint width bytes start = some (v, stop)) :
    stop = start + width ∧ stop ≤ bytes.length ∧ v < 256 ^ width ∧
      bytes.drop start = toBE width v ++ bytes.drop stop := by
  obtain ⟨⟨field, stop'⟩, hread, heq⟩ := Option.map_eq_some_iff.mp h
  obtain ⟨rfl, rfl⟩ := Prod.mk.inj heq
  obtain ⟨hstop, hle, rfl, hdrop⟩ := readBytes_eq_some hread
  refine ⟨hstop, hle, ofBE_lt field, ?_⟩
  rwa [toBE_ofBE]

theorem decodeFileHashes_eq_some {sizes : List ℕ} {fields : List (List UInt8)}
    (hstart : start ≤ bytes.length) (h : decodeFileHashes bytes sizes start = some (fields, stop)) :
    stop = start + sizes.sum ∧ stop ≤ bytes.length ∧ fields.map List.length = sizes ∧
      bytes.drop start = fields.flatten ++ bytes.drop stop := by
  induction sizes generalizing start fields with
  | nil =>
    obtain ⟨rfl, rfl⟩ := Prod.mk.inj (Option.some.inj h)
    exact ⟨rfl, hstart, rfl, rfl⟩
  | cons size sizes ih =>
    simp only [decodeFileHashes, Option.bind_eq_bind, Option.pure_def, Option.bind_eq_some_iff,
      Prod.exists, Option.some.injEq, Prod.mk.injEq] at h
    obtain ⟨field, next, hread, others, stop', hrest, rfl, rfl⟩ := h
    obtain ⟨rfl, hle, rfl, hdrop⟩ := readBytes_eq_some hread
    obtain ⟨hstop, hbound, hsizes, hdrop'⟩ := ih hle hrest
    rw [List.sum_cons, List.map_cons, hsizes, List.flatten_cons, List.append_assoc, ← hdrop']
    exact ⟨by omega, hbound, rfl, hdrop⟩

/-- The bytes of a header with these fields. -/
def headerFields (fileSize blockSize modSize : ℕ) (fileName filePath hashes : List UInt8) :
    List UInt8 :=
  [fileSize, blockSize, modSize, fileName.length, filePath.length, hashes.length].flatMap
      (toBE 8) ++
    filePath ++ fileName ++ hashes

/-- A header is what the bytes start with. -/
theorem decodeHeader_eq_some {header : FileHeader} (h : decodeHeader bytes = some (header, stop)) :
    stop = 48 + header.filepath.length + header.filename.length + header.hashlist.length ∧
      stop ≤ bytes.length ∧
      (∀ v ∈ [header.fileSize, header.blockSize, header.modSize, header.filename.length,
        header.filepath.length, header.hashlist.length], v < 256 ^ 8) ∧
      splitHashList header.hashlist = some (header.filelist, header.blocklist, header.keylist) ∧
      bytes = headerFields header.fileSize header.blockSize header.modSize header.filename
        header.filepath header.hashlist ++ bytes.drop stop := by
  simp only [decodeHeader, Option.bind_eq_bind, Option.pure_def, Option.bind_eq_some_iff,
    Prod.exists, Option.some.injEq, Prod.mk.injEq] at h
  obtain ⟨fileSize, _, h₁, blockSize, _, h₂, modSize, _, h₃, fileNameLen, _, h₄, filePathLen, _, h₅,
    fileHashLen, _, h₆, filepath, _, h₇, filename, _, h₈, hashlist, _, h₉, filelist, blocklist,
    keylist, hsplit, rfl, rfl⟩ := h
  obtain ⟨rfl, -, hv₁, hd₁⟩ := readUint_eq_some h₁
  obtain ⟨rfl, -, hv₂, hd₂⟩ := readUint_eq_some h₂
  obtain ⟨rfl, -, hv₃, hd₃⟩ := readUint_eq_some h₃
  obtain ⟨rfl, -, hv₄, hd₄⟩ := readUint_eq_some h₄
  obtain ⟨rfl, -, hv₅, hd₅⟩ := readUint_eq_some h₅
  obtain ⟨rfl, -, hv₆, hd₆⟩ := readUint_eq_some h₆
  obtain ⟨rfl, -, rfl, hd₇⟩ := readBytes_eq_some h₇
  obtain ⟨rfl, -, rfl, hd₈⟩ := readBytes_eq_some h₈
  obtain ⟨rfl, hle, rfl, hd₉⟩ := readBytes_eq_some h₉
  refine ⟨rfl, hle, ?_, hsplit, ?_⟩
  · simp only [List.forall_mem_cons]
    exact ⟨hv₁, hv₂, hv₃, hv₄, hv₅, hv₆, List.forall_mem_nil _⟩
  · rw [List.drop_zero] at hd₁
    conv_lhs => rw [hd₁, hd₂, hd₃, hd₄, hd₅, hd₆, hd₇, hd₈, hd₉]
    simp only [headerFields, List.flatMap_cons, List.flatMap_nil, List.append_nil,
      List.append_assoc]

end

end Mdencode.Go
