import Mdencode.Go.OrderIndependence
import Mdencode.Go.BinaryFormat

/-! What the binary format object writes for one file: the header, the digests
of the file and a record for each block. A text that is not a digest spoils the
record it stands in front of. -/

namespace Mdencode.Go

open Mdencode.Bytes Mdencode.Numerals

theorem uint64_of_nonneg {v : ℤ} (h : 0 ≤ v) (hlt : v < 2 ^ 63) : uint64 v = v.toNat := by
  rw [uint64, Int.emod_eq_of_lt h (by omega)]

theorem int64_toNat {v : ℤ} (h : 0 ≤ v) (hlt : v < 2 ^ 63) : int64 v.toNat = v := by
  rw [int64, if_pos (by omega), Int.toNat_of_nonneg h]

theorem signaturesAfter_nil (hashes : List HashContext) (content : List UInt8) :
    signaturesAfter hashes [] content = FileData.fileSignatures hashes content := by
  cases hashes with
  | nil => rfl
  | cons hash rest =>
    rw [signaturesAfter, FileData.fileSignatures, fileSignatures_nil, List.nil_append]

/-! Single calls -/

/-- The bytes a call behind the header adds. -/
def payload (modSize : ℕ) : FormatterCall → List UInt8
  | .encodeFileHash _ hashBytes => hexDecode hashBytes
  | .encodeBlock _ hashList modExp mod =>
    hexDecode hashList.flatten ++ toBE 4 modExp ++ toBE (modByteSize modSize) (ofDecimal mod)
  | _ => []

/-- Calls behind the header whose remainders fit. -/
def Writable (modSize : ℕ) : FormatterCall → Prop
  | .encodeFileHeader .. => False
  | .encodeBlock _ _ _ mod => ofDecimal mod < 2 ^ modSize
  | _ => True

namespace MdFormatBinary

variable {md : MdFormatBinary}

theorem encode_eq {call : FormatterCall} (h : Writable md.modSize call) :
    md.encode call = some (md.write (payload md.modSize call)) := by
  cases call with
  | encodeFileHeader => exact h.elim
  | encodeFileHash hashName hashBytes => rfl
  | encodeBlock blockSize hashList modExp mod =>
    rw [encode, encodeBlock, padBlock_eq h]
    rfl
  | encodeEndFile => simp only [encode, payload, write, List.append_nil]

theorem foldlM_encode_eq {calls : List FormatterCall}
    (h : ∀ call ∈ calls, Writable md.modSize call) :
    calls.foldlM encode md = some (md.write (calls.flatMap (payload md.modSize))) := by
  induction calls generalizing md with
  | nil => rw [List.flatMap_nil, write, List.append_nil]; rfl
  | cons call calls ih =>
    have hrest : calls.foldlM encode (md.write (payload md.modSize call)) = _ :=
      ih fun other hmem => h other (List.mem_cons_of_mem _ hmem)
    rw [List.foldlM_cons, encode_eq (h call List.mem_cons_self)]
    apply hrest.trans
    simp only [write, List.flatMap_cons, List.append_assoc]

end MdFormatBinary

/-! The record of a block -/

namespace MdEncode

variable (l : MdEncode) (file : InputFile) (block : List UInt8)

/-- What stands in front of the digests. -/
def blockTexts : List (List UInt8) :=
  (if l.byteblock then [sprintBytes block] else []) ++
    if 0 < l.bitsize ∧ l.byteblockint then [decimal (ofBE block)] else []

def blockExp : ℕ := if 0 < l.bitsize then logN (ofBE block) 2 else 0

def blockMod : ℕ := if 0 < l.bitsize then ofBE block % 2 ^ l.bitsize.toNat else 0

theorem blockOf_eq : l.blockOf block =
    .encodeBlock block.length (l.blockTexts block ++ (digests l.blockHashList block).map hexEncode)
      (l.blockExp block) (decimal (l.blockMod block)) := by
  unfold blockOf blockCall blockTexts blockExp blockMod
  dsimp only
  split_ifs <;> rfl

theorem blockMod_lt : l.blockMod block < 2 ^ l.bitsize.toNat := by
  unfold blockMod
  split_ifs
  · exact Nat.mod_lt _ (by positivity)
  · positivity

theorem blockTexts_eq_nil_iff : l.blockTexts block = [] ↔
    l.byteblock = false ∧ (0 < l.bitsize → l.byteblockint = false) := by
  unfold blockTexts
  cases l.byteblock <;> cases l.byteblockint <;> simp

/-- The exponent is that of the last byte of the value behind its zeros. -/
theorem blockExp_lt_iff :
    l.blockExp block < 2 ^ 32 ↔ (0 < l.bitsize → byteLen (ofBE block) ≤ 2 ^ 29) := by
  unfold blockExp byteLen
  split_ifs with hbit hzero
  · rw [hzero]
    simp [logN_two]
  · rw [logN_two]
    omega
  all_goals exact iff_of_true (by norm_num) fun h => absurd h hbit

/-- The record of a block without such texts. -/
def blockRecord : List UInt8 :=
  (digests l.blockHashList block).flatten ++ toBE 4 (l.blockExp block) ++
    toBE (modByteSize l.bitsize.toNat) (l.blockMod block)

def blockRecordSize : ℕ := mdblocksize l.blockHashList + 4 + modByteSize l.bitsize.toNat

theorem length_blockRecord : (l.blockRecord block).length = l.blockRecordSize := by
  rw [blockRecord, List.length_append, List.length_append, length_toBE, length_toBE]
  exact congrArg (· + 4 + _) (length_blockHashBytes l.blockHashList block)

theorem payload_blockOf (h : l.blockTexts block = []) :
    payload l.bitsize.toNat (l.blockOf block) = l.blockRecord block := by
  rw [blockOf_eq, h, List.nil_append, payload, ← hexEncode_flatten, hexDecode_hexEncode,
    ofDecimal_decimal, blockRecord]

theorem writable_of_mem_blockCalls {call : FormatterCall} {content : List UInt8}
    (h : call ∈ l.blockCalls content) : Writable l.bitsize.toNat call := by
  rw [blockCalls] at h
  split_ifs at h
  · obtain ⟨block, -, rfl⟩ := List.mem_map.mp h
    rw [blockOf_eq, Writable, ofDecimal_decimal]
    exact l.blockMod_lt block
  · cases h

/-! The digests of the file -/

theorem writable_of_mem_fileHashCalls {signatures : List (List UInt8)} {call : FormatterCall}
    (h : call ∈ l.fileHashCalls signatures) (modSize : ℕ) : Writable modSize call := by
  have hkind := (l.isFileHash_of_mem h).1
  cases call with
  | encodeFileHash => exact trivial
  | _ => cases hkind

theorem payload_mdencodeFileHashes {modSize : ℕ} {signatures : List (List UInt8)}
    (hlen : signatures.length = l.fileHashList.length) :
    (l.mdencodeFileHashes signatures).flatMap (payload modSize) = signatures.flatten := by
  have hpayload : (l.mdencodeFileHashes signatures).map (payload modSize) = signatures := by
    refine List.ext_getElem ?_ fun k hk hk' => ?_
    · simp [mdencodeFileHashes, hlen]
    · simp [mdencodeFileHashes, payload]
  rw [List.flatMap_def, hpayload]

/-- On a line only the first digest is written: the decoding stops at the colon. -/
theorem payload_mdencodeFileHashLine {modSize : ℕ} (signature : List UInt8)
    (rest : List (List UInt8)) :
    (l.mdencodeFileHashLine (signature :: rest)).flatMap (payload modSize) = signature := by
  have hstop : hexDecode (joinTexts ((signature :: rest).map hexEncode)) = signature := by
    rcases eq_or_ne rest [] with rfl | hne
    · rw [List.map_cons, joinTexts, List.map_nil, List.intercalate_singleton, hexDecode_hexEncode]
    · rw [List.map_cons, joinTexts, List.intercalate_cons_of_ne_nil (by simpa using hne),
        List.append_assoc, hexDecode_append, List.singleton_append, hexDecode_colon,
        List.append_nil]
  rw [mdencodeFileHashLine, List.flatMap_singleton, payload, hstop]

/-! The whole stream -/

/-- The header as the importer reads it. -/
def headerFields : FileHeader where
  fileSize := file.content.length
  blockSize := l.blocksize.toNat
  modSize := l.bitsize.toNat
  filepath := file.filePath
  filename := file.fileName
  hashlist := hashListString l.fileHashList l.blockHashList []
  filelist := joinNames l.fileHashList
  blocklist := joinNames l.blockHashList
  keylist := []

def headerBytes : List UInt8 :=
  Go.headerFields file.content.length l.blocksize.toNat l.bitsize.toNat file.fileName file.filePath
    (hashListString l.fileHashList l.blockHashList [])

variable {l}

theorem encode_headerCall (hblock : 0 ≤ l.blocksize) (hbit : 0 ≤ l.bitsize) :
    MdFormatBinary.init.encode (l.headerCall file) =
      some ⟨l.bitsize.toNat, l.headerBytes file⟩ := by
  have hhashes :
      joinTexts (hashNames l.fileHashList) ++ 45 :: joinTexts (hashNames l.blockHashList) =
      hashListString l.fileHashList l.blockHashList [] := (List.append_nil _).symm
  have hsize : uint64 file.content.length = file.content.length := by
    rw [uint64_of_nonneg (by omega) (by exact_mod_cast file.content_lt), Int.toNat_natCast]
  rw [headerCall, MdFormatBinary.encode, MdFormatBinary.encodeFileHeader]
  simp only [hhashes, hsize, uint64_of_nonneg hblock l.blocksize_lt,
    uint64_of_nonneg hbit l.bitsize_lt]
  rfl

theorem binaryStream_eq (hblock : 0 ≤ l.blocksize) (hbit : 0 ≤ l.bitsize)
    (signatures : List (List UInt8)) :
    binaryStream (l.fileCalls signatures file) =
      some (l.headerBytes file ++ ((l.fileHashCalls signatures).flatMap (payload l.bitsize.toNat) ++
        (l.blockCalls file.content).flatMap (payload l.bitsize.toNat))) := by
  have hwritable : ∀ call ∈ l.fileHashCalls signatures ++ l.blockCalls file.content ++
      [.encodeEndFile], Writable l.bitsize.toNat call := by
    intro call hmem
    rcases List.mem_append.mp hmem with hmem | hmem
    · rcases List.mem_append.mp hmem with hmem | hmem
      · exact l.writable_of_mem_fileHashCalls hmem _
      · exact l.writable_of_mem_blockCalls hmem
    · obtain rfl := List.mem_singleton.mp hmem
      exact trivial
  rw [binaryStream, fileCalls, List.cons_append, List.cons_append, List.foldlM_cons,
    encode_headerCall file hblock hbit]
  dsimp only [Option.bind_eq_bind, Option.bind_some]
  rw [MdFormatBinary.foldlM_encode_eq hwritable]
  simp [MdFormatBinary.write, payload]

end MdEncode

end Mdencode.Go
