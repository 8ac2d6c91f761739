import Mdencode.Go.BinaryStream

/-! `testBinReadMdFmt` on what the binary format object has written. The reader
takes every size from the header, so it follows the writer as long as nothing
but digests, exponents and remainders is in the stream, every read of the encoder
fills its block, and the one of the importer gets the stream. -/

namespace Mdencode.Go

open Mdencode.Bytes Mdencode.Numerals

/-! Grouping -/

namespace FormatterCall

/-- A call with its name lists joined, and the digests of a line one by one. -/
def ungroup : FormatterCall → List FormatterCall
  | encodeFileHeader fileName filePath fileSize blockSize filehashList blockhashList modulusSize =>
    [encodeFileHeader fileName filePath fileSize blockSize [joinTexts filehashList]
      [joinTexts blockhashList] modulusSize]
  | encodeFileHash hashName hashBytes =>
    if hashName = [] then []
    else List.zipWith encodeFileHash (hashName.splitOn 58) (hashBytes.splitOn 58)
  | call => [call]

/-- A call behind those that are grouped. -/
def isBody : FormatterCall → Bool
  | encodeBlock .. | encodeEndFile => true
  | _ => false

theorem filter_isBody_zipWith (names hashes : List (List UInt8)) :
    (List.zipWith encodeFileHash names hashes).filter isBody = [] := by
  rw [List.filter_eq_nil_iff]
  intro call hmem
  obtain ⟨k, hk, rfl⟩ := List.mem_iff_getElem.mp hmem
  rw [List.getElem_zipWith]
  exact Bool.false_ne_true

theorem filter_isBody_ungroup (call : FormatterCall) :
    call.ungroup.filter isBody = [call].filter isBody := by
  cases call with
  | encodeFileHash hashName hashBytes =>
    rw [ungroup]
    split_ifs
    · rfl
    · exact filter_isBody_zipWith _ _
  | _ => rfl

theorem filter_isBody_flatMap (calls : List FormatterCall) :
    (calls.flatMap ungroup).filter isBody = calls.filter isBody := by
  induction calls with
  | nil => rfl
  | cons call calls ih =>
    rw [List.flatMap_cons, List.filter_append, ih, filter_isBody_ungroup, ← List.filter_append,
      List.singleton_append]

end FormatterCall

/-! What a reader that comes to its end has seen -/

/-- A block call as the importer makes it, with `n` digests. -/
def Imported (n : ℕ) : FormatterCall → Prop
  | .encodeBlock _ hashList modExp _ => hashList.length = n ∧ modExp < 2 ^ 32
  | _ => False

section
variable {bytes : List UInt8} {sizes : List ℕ}
  {start stop modSize blockSize blocks remainder : ℕ}

theorem importBlock_eq_some {call : FormatterCall} (hstart : start ≤ bytes.length)
    (h : importBlock bytes sizes modSize blockSize start = some (call, stop)) :
    stop = start + (sizes.sum + 4 + modByteSize modSize) ∧ stop ≤ bytes.length ∧
      Imported sizes.length call ∧
      bytes.drop start = payload modSize call ++ bytes.drop stop := by
  simp only [importBlock, Option.bind_eq_bind, Option.pure_def, Option.bind_eq_some_iff,
    Prod.exists, Option.some.injEq, Prod.mk.injEq] at h
  obtain ⟨hashes, next₁, hhashes, modExp, next₂, hexp, n, next₃, hmod, rfl, rfl⟩ := h
  obtain ⟨rfl, hle, rfl, hdrop⟩ := decodeFileHashes_eq_some hstart hhashes
  obtain ⟨rfl, -, hlt, hdrop'⟩ := readUint_eq_some hexp
  obtain ⟨rfl, hbound, -, hdrop''⟩ := readUint_eq_some hmod
  refine ⟨by omega, hbound, ⟨?_, hlt⟩, ?_⟩
  · rw [List.length_map, List.length_map]
  · rw [payload, ← hexEncode_flatten, hexDecode_hexEncode, ofDecimal_decimal, List.append_assoc,
      List.append_assoc, hdrop, hdrop', hdrop'']

theorem importBlocks_eq_some {left i : ℕ} {calls : List FormatterCall}
    (hstart : start ≤ bytes.length)
    (h : importBlocks bytes sizes modSize blockSize blocks remainder left i start = some calls) :
    calls.length = left ∧ (∀ call ∈ calls, Imported sizes.length call) ∧
      start + left * (sizes.sum + 4 + modByteSize modSize) ≤ bytes.length ∧
      ∃ rest, bytes.drop start = calls.flatMap (payload modSize) ++ rest := by
  induction left generalizing i start calls with
  | zero =>
    obtain rfl := Option.some.inj h
    exact ⟨rfl, List.forall_mem_nil _, by omega, bytes.drop start, rfl⟩
  | succ left ih =>
    simp only [importBlocks, Option.bind_eq_bind, Option.pure_def, Option.bind_eq_some_iff,
      Prod.exists, Option.some.injEq] at h
    obtain ⟨call, next, hblock, others, hothers, rfl⟩ := h
    obtain ⟨rfl, hle, hcall, hdrop⟩ := importBlock_eq_some hstart hblock
    obtain ⟨hlen, hcalls, hbound, rest, hrest⟩ := ih hle hothers
    refine ⟨by rw [List.length_cons, hlen], ?_, by rw [Nat.succ_mul]; omega, rest, ?_⟩
    · exact List.forall_mem_cons.mpr ⟨hcall, hcalls⟩
    · rw [hdrop, hrest, List.flatMap_cons, List.append_assoc]

theorem filter_isBody_importHeader (header : FileHeader) (fileHashes : List (List UInt8)) :
    (importHeader header fileHashes).filter FormatterCall.isBody = [] := by
  rw [List.filter_eq_nil_iff]
  intro call hmem
  rcases List.mem_cons.mp hmem with rfl | hmem
  · exact Bool.false_ne_true
  · obtain ⟨k, hk, rfl⟩ := List.mem_iff_getElem.mp hmem
    rw [List.getElem_zipWith]
    exact Bool.false_ne_true

/-- An importer that has made the calls behind the header has read the parts one
after the other. -/
theorem importBytes_eq_some {imported : List FormatterCall} (h : importBytes bytes = some imported)
    (hend : imported.filter FormatterCall.isBody ≠ []) :
    ∃ header stop fileHashes stop' count rem calls, decodeHeader bytes = some (header, stop) ∧
      header.blocklist ≠ [] ∧
      decodeFileHashes bytes (calcHashBlockSize header.filelist) stop =
        some (fileHashes, stop') ∧
      calculateFileBlocks header.fileSize header.blockSize = some (count, rem) ∧
      importBlocks bytes (calcHashBlockSize header.blocklist) header.modSize header.blockSize
        count rem count 0 stop' = some calls ∧
      imported = importHeader header fileHashes ++ calls ++ [.encodeEndFile] := by
  simp only [importBytes, Option.bind_eq_bind, Option.pure_def, Option.bind_eq_some_iff,
    Prod.exists] at h
  obtain ⟨header, stop, hheader, fileHashes, stop', hhashes, h⟩ := h
  by_cases hnil : header.blocklist = []
  · rw [if_pos hnil] at h
    obtain rfl := Option.some.inj h
    exact absurd (filter_isBody_importHeader _ _) hend
  rw [if_neg hnil] at h
  simp only [Option.bind_eq_some_iff, Prod.exists, Option.some.injEq] at h
  obtain ⟨count, rem, hcount, calls, hcalls, rfl⟩ := h
  exact ⟨header, stop, fileHashes, stop', count, rem, calls, hheader, hnil, hhashes, hcount, hcalls,
    rfl⟩

end

/-! The blocks as they are read -/

namespace MdEncode

section
variable {blocks remainder fuel blocksRead k left : ℕ} {file filebuffer : List UInt8}

theorem readParts_eq_nil_iff (hfuel : 0 < fuel) :
    readParts blocks remainder fuel blocksRead file filebuffer = [] ↔ file = [] := by
  obtain ⟨fuel, rfl⟩ : ∃ n, fuel = n + 1 := ⟨fuel - 1, by omega⟩
  rw [readParts]
  by_cases hfile : file = []
  · rw [if_pos hfile]
    exact iff_of_true rfl hfile
  · rw [if_neg hfile]
    exact iff_of_false (List.cons_ne_nil _ _) hfile

/-- The loop makes a block more when the reads of the blocks do not get all of
the file. -/
theorem length_readParts_iff (hk : k + (left + 1) = blocks) (hfuel : file.length < fuel)
    (hbuf : 0 < filebuffer.length) (hmore : left * min filebuffer.length maxRW < file.length) :
    (readParts blocks remainder fuel (k + 1) file filebuffer).length = left + 1 ↔
      file.length ≤ (left + 1) * min filebuffer.length maxRW := by
  have hmax : 1 ≤ maxRW := le_maxRW (by norm_num)
  induction left generalizing k fuel file filebuffer with
  | zero =>
    obtain ⟨fuel, rfl⟩ : ∃ n, fuel = n + 1 := ⟨fuel - 1, by omega⟩
    have hfile : file ≠ [] := by
      rintro rfl
      simp at hmore
    rw [readParts, if_neg hfile, List.length_cons, Nat.add_right_cancel_iff,
      List.length_eq_zero_iff, readParts_eq_nil_iff (by omega), List.drop_eq_nil_iff, Nat.zero_add,
      Nat.one_mul]
  | succ left ih =>
    obtain ⟨fuel, rfl⟩ : ∃ n, fuel = n + 1 := ⟨fuel - 1, by omega⟩
    have hfile : file ≠ [] := by
      rintro rfl
      simp at hmore
    have hlen : (file.drop (min filebuffer.length maxRW)).length =
        file.length - min filebuffer.length maxRW := List.length_drop
    rw [Nat.succ_mul] at hmore
    have hnext := @ih fuel (k + 1) (file.drop (min filebuffer.length maxRW))
      (fileRead filebuffer file) (by omega) (by omega) (by rw [length_fileRead]; exact hbuf)
      (by rw [hlen, length_fileRead]; omega)
    rw [hlen, length_fileRead] at hnext
    rw [readParts, if_neg hfile, List.length_cons, Nat.add_right_cancel_iff, if_neg (by omega),
      Nat.succ_mul (left + 1)]
    exact hnext.trans (by omega)

/-- Every block but the last fills the buffer. -/
theorem length_of_readParts (hrem : remainder ≤ filebuffer.length) {i : ℕ} {part : List UInt8}
    (hget : (readParts blocks remainder fuel (k + 1) file filebuffer)[i]? = some part)
    (hi : k + i < blocks) :
    part.length = if k + i + 1 ≠ blocks then filebuffer.length else remainder := by
  induction fuel generalizing k i file filebuffer with
  | zero => cases hget
  | succ fuel ih =>
    rw [readParts] at hget
    by_cases hfile : file = []
    · rw [if_pos hfile] at hget
      cases hget
    rw [if_neg hfile] at hget
    dsimp only at hget
    have hlen := @length_part blocks remainder (k + 1) file filebuffer hrem
    cases i with
    | zero =>
      obtain rfl := Option.some.inj hget
      rw [hlen, Nat.add_zero, ite_not]
    | succ i =>
      have hne : k + 1 ≠ blocks := by omega
      rw [if_neg hne, if_neg hne] at hlen
      rw [if_neg hne, List.getElem?_cons_succ] at hget
      have hnext := ih (hrem.trans_eq hlen.symm) hget (by omega)
      rw [hnext, hlen, Nat.add_right_comm k 1 i, Nat.add_assoc k i 1]

end

section
variable {file : List UInt8} {B count rem : ℕ}
  (hcount : calculateFileBlocks file.length B = some (count, rem))
  (hsplit : Splits file.length B count rem)
include hcount hsplit

theorem length_fileBlocks_iff :
    (fileBlocks file B).length = count ↔ file.length ≤ count * maxRW := by
  obtain ⟨left, rfl⟩ : ∃ n, count = n + 1 := ⟨count - 1, by have := hsplit.count_pos; omega⟩
  have hsize := hsplit.size_eq
  have hpos := hsplit.rem_pos
  have hle := hsplit.rem_le
  rw [Nat.add_sub_cancel] at hsize
  have hbuf : (List.replicate B (0 : UInt8)).length = B := List.length_replicate
  have hmin : left * min B maxRW ≤ left * B := Nat.mul_le_mul_left _ (Nat.min_le_left _ _)
  have hparts := @length_readParts_iff (left + 1) rem (file.length + 1) 0 left file
    (List.replicate B 0) (Nat.zero_add _) (Nat.lt_succ_self _) (by omega) (by rw [hbuf]; omega)
  rw [hbuf] at hparts
  rw [fileBlocks, hcount]
  apply hparts.trans
  rcases le_total B maxRW with hB | hB
  · have hfull : (left + 1) * B ≤ (left + 1) * maxRW := Nat.mul_le_mul_left _ hB
    have hall : file.length ≤ (left + 1) * B := by
      rw [Nat.succ_mul]
      omega
    rw [Nat.min_eq_left hB]
    exact iff_of_true hall (hall.trans hfull)
  · rw [Nat.min_eq_right hB]

theorem length_of_fileBlocks {i : ℕ} {part : List UInt8}
    (hget : (fileBlocks file B)[i]? = some part) (hi : i < count) :
    part.length = if i + 1 ≠ count then B else rem := by
  have hbuf : (List.replicate B (0 : UInt8)).length = B := List.length_replicate
  rw [fileBlocks, hcount] at hget
  have hlen := @length_of_readParts count rem (file.length + 1) 0 file (List.replicate B 0)
    (hsplit.rem_le.trans_eq hbuf.symm) i part hget (by omega)
  rwa [Nat.zero_add, hbuf] at hlen

end

end MdEncode

/-! The reader behind the header -/

theorem joinNames_eq_nil_iff (hashes : List HashContext) : joinNames hashes = [] ↔ hashes = [] := by
  constructor
  · intro h
    by_contra hne
    exact joinNames_ne_nil hne h
  · rintro rfl
    rfl

theorem length_digests_map (hashes : List HashContext) (content : List UInt8) :
    (digests hashes content).map List.length = hashes.map fun hash => hash.row.blockSize := by
  rw [digests, List.map_map]
  exact List.map_congr_left fun hash _ => hash.length_sum content

namespace MdEncode

variable {l : MdEncode} {file : InputFile} {bytes rest : List UInt8}

theorem importBytes_eq (hblock : 0 ≤ l.blocksize) (hbit : 0 ≤ l.bitsize)
    (h : At bytes 0 (l.headerBytes file ++ rest)) :
    importBytes bytes =
      (decodeFileHashes bytes (l.fileHashList.map fun hash => hash.row.blockSize)
          (l.headerBytes file).length).bind fun (fileHashes, stop) =>
        if l.blockHashList = [] then some (importHeader (l.headerFields file) fileHashes)
        else (calculateFileBlocks file.content.length l.blocksize.toNat).bind
          fun (blocks, remainder) =>
            (importBlocks bytes (l.blockHashList.map fun hash => hash.row.blockSize)
                l.bitsize.toNat l.blocksize.toNat blocks remainder blocks 0 stop).map fun calls =>
              importHeader (l.headerFields file) fileHashes ++ calls ++ [.encodeEndFile] := by
  have hblocksize := l.blocksize_lt
  have hbitsize := l.bitsize_lt
  have hheader : decodeHeader bytes = some (l.headerFields file, (l.headerBytes file).length) :=
    decodeHeader_headerFields h file.content_lt (by omega) (by omega) file.fileName_lt
      file.filePath_lt l.hashes_lt
      (splitHashList_hashListString l.fileHashList l.blockHashList List.not_mem_nil)
  have hfilelist : (l.headerFields file).filelist = joinNames l.fileHashList := rfl
  have hblocklist : (l.headerFields file).blocklist = joinNames l.blockHashList := rfl
  simp only [importBytes, Option.bind_eq_bind, Option.pure_def, hheader, Option.bind_some,
    hfilelist, hblocklist, calcHashBlockSize_joinNames, joinNames_eq_nil_iff, Option.map_eq_bind]
  rfl

section
variable {m start size : ℕ} {block : List UInt8}

theorem importBlock_eq (hexp : l.blockExp block < 2 ^ 32)
    (h : At bytes start (l.blockRecord block ++ rest)) :
    importBlock bytes (l.blockHashList.map fun hash => hash.row.blockSize)
        l.bitsize.toNat size start =
      some (.encodeBlock size ((digests l.blockHashList block).map hexEncode) (l.blockExp block)
        (decimal (l.blockMod block)), start + l.blockRecordSize) := by
  rw [blockRecord, List.append_assoc, List.append_assoc] at h
  have hlen : (digests l.blockHashList block).flatten.length = mdblocksize l.blockHashList :=
    length_blockHashBytes l.blockHashList block
  have h₁ := h.drop
  rw [hlen] at h₁
  have h₂ := h₁.drop_toBE
  have hmod := (l.blockMod_lt block).trans_le (two_pow_le_modByteSize l.bitsize.toNat)
  rw [← length_digests_map l.blockHashList block]
  simp only [importBlock, Option.bind_eq_bind, Option.pure_def, decodeFileHashes_eq h,
    Option.bind_some, hlen, h₁.readUint hexp, h₂.readUint hmod]
  rw [blockRecordSize, ← Nat.add_assoc, ← Nat.add_assoc]

theorem importBlocks_eq {B count rem : ℕ} {parts : List (List UInt8)}
    (htexts : ∀ block, l.blockTexts block = [])
    (hexp : ∀ block ∈ parts, l.blockExp block < 2 ^ 32) {k : ℕ} (hk : k + parts.length = count)
    (hlen : ∀ i part, parts[i]? = some part →
      part.length = if k + i + 1 ≠ count then B else rem)
    (h : At bytes start (parts.flatMap l.blockRecord ++ rest)) :
    importBlocks bytes (l.blockHashList.map fun hash => hash.row.blockSize) l.bitsize.toNat B count
        rem parts.length k start = some (parts.map l.blockOf) := by
  induction parts generalizing k start with
  | nil => rfl
  | cons part parts ih =>
    rw [List.flatMap_cons, List.append_assoc] at h
    rw [List.length_cons] at hk
    have hnext := h.drop
    rw [length_blockRecord] at hnext
    have hcall : l.blockOf part = .encodeBlock (if k + 1 ≠ count then B else rem)
        ((digests l.blockHashList part).map hexEncode) (l.blockExp part)
        (decimal (l.blockMod part)) := by
      rw [blockOf_eq, htexts, List.nil_append, hlen 0 part rfl, Nat.add_zero]
    have hothers := ih (fun block hmem => hexp block (List.mem_cons_of_mem _ hmem))
      (k := k + 1) (by omega) (fun i other hget => by
        rw [hlen (i + 1) other hget, Nat.add_right_comm k 1 i, Nat.add_assoc k i 1]) hnext
    simp only [List.length_cons, importBlocks, Option.bind_eq_bind, Option.pure_def,
      importBlock_eq (hexp part List.mem_cons_self) h, Option.bind_some, hothers, ← hcall,
      List.map_cons]

end

/-! Grouping of the calls for a file -/

theorem hashName_ne_nil (hash : HashContext) : ascii hash.row.hashName ≠ [] := by
  intro hnil
  have hsize := (hlist_names _ hash.mem).2.2
  rw [hnil, hashBlockSize_nil] at hsize
  cases hsize

theorem flatMap_ungroup_eq_self {calls : List FormatterCall}
    (h : ∀ call ∈ calls, call.ungroup = [call]) : calls.flatMap FormatterCall.ungroup = calls := by
  calc
    calls.flatMap FormatterCall.ungroup = calls.flatMap fun call => [call] :=
      List.flatMap_congr h
    _ = calls := by rw [List.flatMap_singleton']

theorem ungroup_blockCalls (content : List UInt8) :
    (l.blockCalls content).flatMap FormatterCall.ungroup = l.blockCalls content := by
  apply flatMap_ungroup_eq_self
  intro call hmem
  have hkind := (l.isBlock_of_mem hmem).1
  cases call with
  | encodeBlock => rfl
  | _ => cases hkind

theorem ungroup_mdencodeFileHashes (signatures : List (List UInt8)) :
    (l.mdencodeFileHashes signatures).flatMap FormatterCall.ungroup =
      l.mdencodeFileHashes signatures := by
  apply flatMap_ungroup_eq_self
  intro call hmem
  obtain ⟨k, hk, rfl⟩ := List.mem_iff_getElem.mp hmem
  simp only [mdencodeFileHashes, List.getElem_zipWith]
  rw [FormatterCall.ungroup, if_neg (hashName_ne_nil _),
    List.splitOn_eq_singleton (hlist_names _ (HashContext.mem _)).2.1,
    List.splitOn_eq_singleton (colon_notMem_hexEncode _)]
  rfl

section
variable {signatures : List (List UInt8)} (hlen : signatures.length = l.fileHashList.length)
  (hline : l.filehashline = true → l.fileHashList.length ≤ 1)
include hlen hline

/-- A line of at most one digest is the call for that digest. -/
theorem fileHashCalls_cases : l.fileHashCalls signatures = l.mdencodeFileHashes signatures ∨
    signatures = [] ∧ l.fileHashCalls signatures = [.encodeFileHash [] []] := by
  rw [fileHashCalls]
  split_ifs with h
  · rcases Nat.le_one_iff_eq_zero_or_eq_one.mp (hline h) with hzero | hone
    · have hnames := List.length_eq_zero_iff.mp hzero
      obtain rfl := List.length_eq_zero_iff.mp (hlen.trans hzero)
      rw [mdencodeFileHashLine, hnames]
      exact .inr ⟨rfl, rfl⟩
    · obtain ⟨hash, hhash⟩ := List.length_eq_one_iff.mp hone
      obtain ⟨signature, rfl⟩ := List.length_eq_one_iff.mp (hlen.trans hone)
      rw [mdencodeFileHashLine, mdencodeFileHashes, hhash]
      simp [joinTexts, hashNames]
  · exact .inl rfl

theorem ungroup_fileHashCalls : (l.fileHashCalls signatures).flatMap FormatterCall.ungroup =
    l.mdencodeFileHashes signatures := by
  rcases fileHashCalls_cases hlen hline with heq | ⟨rfl, heq⟩
  · rw [heq, ungroup_mdencodeFileHashes]
  · rw [heq, mdencodeFileHashes, List.zipWith_nil_right]
    rfl

theorem payload_fileHashCalls (modSize : ℕ) :
    (l.fileHashCalls signatures).flatMap (payload modSize) = signatures.flatten := by
  rcases fileHashCalls_cases hlen hline with heq | ⟨rfl, heq⟩
  · rw [heq, l.payload_mdencodeFileHashes hlen]
  · rw [heq]
    rfl

end

theorem ungroup_importHeader (hblock : 0 ≤ l.blocksize) (hbit : 0 ≤ l.bitsize)
    {signatures : List (List UInt8)} (hlen : signatures.length = l.fileHashList.length) :
    (importHeader (l.headerFields file) signatures).flatMap FormatterCall.ungroup =
      (l.headerCall file).ungroup ++ l.mdencodeFileHashes signatures := by
  have hcalls : List.zipWith (fun name hashBytes => .encodeFileHash name (hexEncode hashBytes))
      ((joinNames l.fileHashList).splitOn 58) signatures = l.mdencodeFileHashes signatures := by
    rcases eq_or_ne l.fileHashList [] with hnil | hne
    · rw [hnil] at hlen
      obtain rfl := List.length_eq_zero_iff.mp hlen
      rw [List.zipWith_nil_right, mdencodeFileHashes, List.zipWith_nil_right]
    · rw [splitOn_joinNames hne, List.zipWith_map_left]
      rfl
  have hfile : int64 file.content.length = file.content.length := by
    rw [int64, if_pos file.content_lt]
  have hjoin (text : List UInt8) : joinTexts [text] = text := List.intercalate_singleton
  rw [importHeader, List.flatMap_cons]
  dsimp only [headerFields]
  rw [hcalls, ungroup_mdencodeFileHashes, hfile, int64_toNat hblock l.blocksize_lt,
    int64_toNat hbit l.bitsize_lt, headerCall, FormatterCall.ungroup, FormatterCall.ungroup, hjoin,
    hjoin]
  rfl

/-! The round trip -/

variable (l file) in
/-- What is written for a single file. -/
def streamBytes : List UInt8 :=
  l.headerBytes file ++
    ((l.fileHashCalls (FileData.fileSignatures l.fileHashList file.content)).flatMap
        (payload l.bitsize.toNat) ++
      (l.blockCalls file.content).flatMap (payload l.bitsize.toNat))

variable (l file) in
/-- The reader comes to its end on what was written, with the calls of the
encoder up to grouping. -/
def BinaryRoundTrip : Prop :=
  ∃ calls stream imported, l.mdencode [file] = some [calls] ∧ binaryStream calls = some stream ∧
    testBinReadMdFmt stream = some imported ∧
    imported.flatMap FormatterCall.ungroup = calls.flatMap FormatterCall.ungroup

variable (l file) in
/-- There are blocks and block hashes, the digests of the file are not on a
line of several, no text stands in front of the digests of a block, the reads
make no block too many, none has more than `2 ^ 29` bytes behind its leading
zeros, and nothing is lost of the stream when it is read at once. -/
structure BinaryReadable : Prop where
  blockHashes : l.blockHashList ≠ []
  blocksize_pos : 0 < l.blocksize
  line : l.filehashline = true → l.fileHashList.length ≤ 1
  texts : file.content ≠ [] → l.byteblock = false ∧ (0 < l.bitsize → l.byteblockint = false)
  reads : ∀ blocks remainder,
    calculateFileBlocks file.content.length l.blocksize.toNat = some (blocks, remainder) →
      file.content.length ≤ blocks * maxRW
  exponents : 0 < l.bitsize →
    ∀ block ∈ fileBlocks file.content l.blocksize.toNat, byteLen (ofBE block) ≤ 2 ^ 29
  stream : ∀ byte ∈ (l.streamBytes file).drop maxRW, byte = 0

section
variable (hblock : 0 ≤ l.blocksize) (hbit : 0 ≤ l.bitsize)

/-- What the encoder writes as the digests of a single file. -/
theorem mdencode_single (l : MdEncode) (file : InputFile) :
    l.mdencode [file] =
      some [l.fileCalls (FileData.fileSignatures l.fileHashList file.content) file] := by
  rw [mdencode_eq, directoryCalls, directoryCalls, signaturesAfter_nil]

theorem length_fileSignatures_file : (FileData.fileSignatures l.fileHashList file.content).length =
    l.fileHashList.length := by
  have hlen := congrArg List.length (length_fileSignatures l.fileHashList file.content)
  rwa [List.length_map, List.length_map] at hlen

theorem ungroup_fileCalls {signatures : List (List UInt8)}
    (hlen : signatures.length = l.fileHashList.length)
    (hline : l.filehashline = true → l.fileHashList.length ≤ 1) :
    (l.fileCalls signatures file).flatMap FormatterCall.ungroup =
      (l.headerCall file).ungroup ++ l.mdencodeFileHashes signatures ++
        l.blockCalls file.content ++ [.encodeEndFile] := by
  rw [fileCalls, List.cons_append, List.cons_append, List.flatMap_cons, List.flatMap_append,
    List.flatMap_append, ungroup_fileHashCalls hlen hline, ungroup_blockCalls]
  simp [FormatterCall.ungroup]

/-- The block loop of the reader on the records of a file. -/
theorem importBlocks_blockCalls (h : l.BinaryReadable file) {bytes : List UInt8} {start : ℕ}
    (hat : At bytes start ((l.blockCalls file.content).flatMap (payload l.bitsize.toNat))) :
    ∃ count rem, calculateFileBlocks file.content.length l.blocksize.toNat = some (count, rem) ∧
      importBlocks bytes (l.blockHashList.map fun hash => hash.row.blockSize) l.bitsize.toNat
        l.blocksize.toNat count rem count 0 start = some (l.blockCalls file.content) := by
  have hpos := h.blocksize_pos
  rcases eq_or_ne file.content [] with hnil | hne
  · refine ⟨0, l.blocksize.toNat, ?_, ?_⟩
    · rw [hnil, List.length_nil, calculateFileBlocks, if_neg (by omega), Nat.zero_mod, if_pos rfl,
        Nat.zero_div]
    · rw [blockCalls, hnil, fileBlocks_nil]
      split_ifs <;> rfl
  · obtain ⟨count, rem, hcount, hsplit⟩ :=
      calculateFileBlocks_splits (show 0 < l.blocksize.toNat by omega) (List.length_pos_iff.mpr hne)
    have htexts block : l.blockTexts block = [] := (l.blockTexts_eq_nil_iff block).mpr (h.texts hne)
    have hcalls : l.blockCalls file.content =
        (fileBlocks file.content l.blocksize.toNat).map l.blockOf :=
      if_pos ⟨hpos, h.blockHashes⟩
    have hlen := (length_fileBlocks_iff hcount hsplit).mpr (h.reads count rem hcount)
    have hexp : ∀ block ∈ fileBlocks file.content l.blocksize.toNat, l.blockExp block < 2 ^ 32 :=
      fun block hmem => (l.blockExp_lt_iff _).mpr fun hbit => h.exponents hbit block hmem
    refine ⟨count, rem, hcount, ?_⟩
    rw [hcalls, List.flatMap_map, ← List.append_nil (List.flatMap _ _)] at hat
    simp only [payload_blockOf _ _ (htexts _)] at hat
    have hsizes : ∀ i part, (fileBlocks file.content l.blocksize.toNat)[i]? = some part →
        part.length = if 0 + i + 1 ≠ count then l.blocksize.toNat else rem := by
      intro i part hget
      have hi := (List.getElem?_eq_some_iff.mp hget).1
      rw [Nat.zero_add]
      exact length_of_fileBlocks hcount hsplit hget (hlen ▸ hi)
    have hread := importBlocks_eq htexts hexp ((Nat.zero_add _).trans hlen) hsizes hat
    rwa [hlen, ← hcalls] at hread

include hblock hbit

theorem testBinReadMdFmt_stream (h : l.BinaryReadable file) :
    testBinReadMdFmt (l.streamBytes file) =
      some (importHeader (l.headerFields file)
          (FileData.fileSignatures l.fileHashList file.content) ++
        l.blockCalls file.content ++ [.encodeEndFile]) := by
  have hzero : At (l.streamBytes file) 0 (l.headerBytes file ++ _) := At.zero _
  have hat := hzero.drop
  rw [Nat.zero_add, payload_fileHashCalls length_fileSignatures_file h.line] at hat
  obtain ⟨count, rem, hcount, hblocks⟩ := importBlocks_blockCalls h hat.drop
  rw [testBinReadMdFmt, bufrRead_eq_self_iff.mpr h.stream, importBytes_eq hblock hbit hzero,
    ← length_fileSignatures l.fileHashList file.content, decodeFileHashes_eq hat, Option.bind_some]
  dsimp only
  rw [if_neg h.blockHashes, hcount, Option.bind_some, hblocks, Option.map_some]

theorem binaryRoundTrip_of_readable (h : l.BinaryReadable file) : l.BinaryRoundTrip file := by
  refine ⟨_, _, _, mdencode_single l file, binaryStream_eq file hblock hbit _,
    testBinReadMdFmt_stream hblock hbit h, ?_⟩
  rw [ungroup_fileCalls length_fileSignatures_file h.line, List.flatMap_append,
    List.flatMap_append, ungroup_importHeader hblock hbit length_fileSignatures_file,
    ungroup_blockCalls]
  rfl

omit hblock hbit in
theorem filter_isBody_fileCalls (signatures : List (List UInt8)) :
    (l.fileCalls signatures file).filter FormatterCall.isBody =
      l.blockCalls file.content ++ [.encodeEndFile] := by
  have hkeep : (l.blockCalls file.content).filter FormatterCall.isBody =
      l.blockCalls file.content := by
    refine List.filter_eq_self.mpr fun call hmem => ?_
    have hkind := (l.isBlock_of_mem hmem).1
    cases call <;> first | rfl | cases hkind
  have hdrop : (l.fileHashCalls signatures).filter FormatterCall.isBody = [] := by
    refine List.filter_eq_nil_iff.mpr fun call hmem => ?_
    have hkind := (l.isFileHash_of_mem hmem).1
    cases call <;> first | exact Bool.false_ne_true | cases hkind
  have hheader : (l.headerCall file).isBody = false := rfl
  have hend : FormatterCall.encodeEndFile.isBody = true := rfl
  simp [fileCalls, hheader, hkeep, hdrop, hend]

omit hblock hbit in
/-- The importer makes a block call for each of the encoder's, and no other. -/
theorem calls_eq_blockCalls {header : FileHeader} {signatures fileHashes : List (List UInt8)}
    {calls : List FormatterCall} {n : ℕ} (himported : ∀ call ∈ calls, Imported n call)
    (hsame : (importHeader header fileHashes ++ calls ++ [FormatterCall.encodeEndFile]).flatMap
      FormatterCall.ungroup = (l.fileCalls signatures file).flatMap FormatterCall.ungroup) :
    calls = l.blockCalls file.content := by
  have hkeep : calls.filter FormatterCall.isBody = calls := by
    refine List.filter_eq_self.mpr fun call hmem => ?_
    have hkind := himported call hmem
    cases call <;> first | rfl | exact hkind.elim
  have hend : FormatterCall.encodeEndFile.isBody = true := rfl
  have hbody := congrArg (List.filter FormatterCall.isBody) hsame
  rw [FormatterCall.filter_isBody_flatMap, FormatterCall.filter_isBody_flatMap,
    filter_isBody_fileCalls, List.filter_append, List.filter_append, filter_isBody_importHeader,
    List.nil_append, hkeep, List.filter_singleton, hend] at hbody
  exact List.append_cancel_right hbody

omit hblock hbit in
theorem int64_eq_nonneg {v : ℕ} {w : ℤ} (hv : v < 256 ^ 8) (hw : 0 ≤ w) (h : int64 v = w) :
    v = w.toNat := by
  unfold int64 at h
  split_ifs at h <;> omega

omit hblock hbit in
/-- The length of the hash list string is among the first 48 bytes. -/
theorem drop_take_headerFields {fileSize blockSize modSize : ℕ}
    {fileName filePath hashes rest : List UInt8} :
    ((Go.headerFields fileSize blockSize modSize fileName filePath hashes ++ rest).take 48).drop
        40 =
      toBE 8 hashes.length := by
  have hsplit : Go.headerFields fileSize blockSize modSize fileName filePath hashes ++ rest =
      [fileSize, blockSize, modSize, fileName.length, filePath.length].flatMap (toBE 8) ++
        (toBE 8 hashes.length ++ (filePath ++ (fileName ++ (hashes ++ rest)))) := by
    simp [Go.headerFields]
  have hlen : ([fileSize, blockSize, modSize, fileName.length, filePath.length].flatMap
      (toBE 8)).length = 40 := by
    simp
  rw [List.drop_take, hsplit, List.drop_left' hlen, List.take_left' (length_toBE 8 _)]

/-- Who makes the encoder's header call has read the encoder's header. -/
theorem header_eq {header : FileHeader} {fileHashes : List (List UInt8)} {stop : ℕ}
    {tail tail' : List FormatterCall} (hread : decodeHeader bytes = some (header, stop))
    (hstart : bytes.take 48 = (l.headerBytes file ++ rest).take 48)
    (hsame : (importHeader header fileHashes ++ tail).flatMap FormatterCall.ungroup =
      (l.headerCall file).ungroup ++ tail') : header = l.headerFields file := by
  obtain ⟨-, -, hbounds, hsplit, hbytes⟩ := decodeHeader_eq_some hread
  simp only [List.forall_mem_cons] at hbounds
  obtain ⟨hfile, hblocks, hmods, -, -, hhashes, -⟩ := hbounds
  have hcall := (List.cons.inj hsame).1
  simp only [FormatterCall.encodeFileHeader.injEq, joinTexts, List.intercalate_singleton,
    List.cons.injEq, and_true] at hcall
  obtain ⟨hname, hpath, hsize, hblocksize, hfilelist, hblocklist, hmod⟩ := hcall
  have hlen :
      header.hashlist.length = (hashListString l.fileHashList l.blockHashList []).length := by
    rw [hbytes, headerBytes] at hstart
    have hfield := congrArg (List.drop 40) hstart
    rw [drop_take_headerFields, drop_take_headerFields] at hfield
    have hvalue := congrArg ofBE hfield
    rwa [ofBE_toBE_of_lt hhashes, ofBE_toBE_of_lt (lt_pow_eight l.hashes_lt)] at hvalue
  have hstring : hashListString l.fileHashList l.blockHashList [] =
      header.filelist ++ 45 :: header.blocklist := by
    rw [hfilelist, hblocklist]
    exact List.append_nil _
  obtain ⟨hhashlist, hkeylist⟩ := eq_of_splitHashList hsplit (by rw [hlen, hstring])
  have hsize' := int64_eq_nonneg hfile (Int.natCast_nonneg _) hsize
  have hblocksize' := int64_eq_nonneg hblocks hblock hblocksize
  have hmod' := int64_eq_nonneg hmods hbit hmod
  rw [Int.toNat_natCast] at hsize'
  have heta : header = ⟨header.fileSize, header.blockSize, header.modSize, header.filepath,
    header.filename, header.hashlist, header.filelist, header.blocklist, header.keylist⟩ := rfl
  rw [heta, hsize', hblocksize', hmod', hpath, hname, hhashlist, ← hstring, hfilelist, hblocklist,
    hkeylist]
  rfl

omit hblock hbit in
variable (l file) in
/-- An importer that makes the encoder's calls has read the header and a record
for every block. -/
structure ImportsStream : Prop where
  blockHashes : l.blockHashList ≠ []
  blocksize_pos : 0 < l.blocksize
  imported : ∀ call ∈ l.blockCalls file.content, Imported l.blockHashList.length call
  count : ∀ count rem,
    calculateFileBlocks file.content.length l.blocksize.toNat = some (count, rem) →
      (l.blockCalls file.content).length = count
  bound : (l.headerBytes file).length + (l.fileHashList.map fun hash => hash.row.blockSize).sum +
    (l.blockCalls file.content).length * l.blockRecordSize ≤ (l.streamBytes file).length
  bytes : ∃ fileHashes rest, fileHashes.length = l.fileHashList.length ∧
    l.mdencodeFileHashes fileHashes =
      (l.fileHashCalls (FileData.fileSignatures l.fileHashList file.content)).flatMap
        FormatterCall.ungroup ∧
    bufrRead (l.streamBytes file) = l.headerBytes file ++ (fileHashes.flatten ++
      ((l.blockCalls file.content).flatMap (payload l.bitsize.toNat) ++ rest))

theorem importsStream_of_roundTrip (h : l.BinaryRoundTrip file) : ImportsStream l file := by
  obtain ⟨calls, stream, imported, hrun, hstream, himport, hsame⟩ := h
  obtain rfl : l.fileCalls (FileData.fileSignatures l.fileHashList file.content) file = calls := by
    simpa [mdencode_single] using hrun
  obtain rfl : l.streamBytes file = stream := by
    rw [binaryStream_eq file hblock hbit] at hstream
    exact Option.some.inj hstream
  have hend : imported.filter FormatterCall.isBody ≠ [] := by
    rw [← FormatterCall.filter_isBody_flatMap, hsame, FormatterCall.filter_isBody_flatMap,
      filter_isBody_fileCalls]
    exact List.append_ne_nil_of_right_ne_nil _ (List.cons_ne_nil _ _)
  obtain ⟨header, stop, fileHashes, stop', count, rem, calls, hheader, hnil, hhashes, hcount,
    hcalls, rfl⟩ := importBytes_eq_some himport hend
  obtain ⟨-, hstop, -, -, hbytes⟩ := decodeHeader_eq_some hheader
  obtain ⟨rfl, hstop', hsizes, hdrop⟩ := decodeFileHashes_eq_some hstop hhashes
  obtain ⟨hlen, himported, hbound, rest, hrest⟩ := importBlocks_eq_some hstop' hcalls
  obtain rfl := calls_eq_blockCalls himported hsame
  -- the header is the first of the parts that the two sides share
  have hsplit : (l.fileCalls (FileData.fileSignatures l.fileHashList file.content) file).flatMap
      FormatterCall.ungroup = (l.headerCall file).ungroup ++
        ((l.fileHashCalls (FileData.fileSignatures l.fileHashList file.content)).flatMap
          FormatterCall.ungroup ++ (l.blockCalls file.content ++
            [FormatterCall.encodeEndFile]).flatMap FormatterCall.ungroup) := by
    simp only [fileCalls, List.cons_append, List.flatMap_cons, List.flatMap_append,
      List.append_assoc]
  rw [hsplit] at hsame
  have htake : (bufrRead (l.streamBytes file)).take 48 = (l.streamBytes file).take 48 :=
    take_bufrRead (le_maxRW (by norm_num)) _
  obtain rfl := header_eq hblock hbit hheader htake (by rw [← hsame, List.append_assoc])
  have hnames : (l.headerFields file).filelist = joinNames l.fileHashList := rfl
  have hnames' : (l.headerFields file).blocklist = joinNames l.blockHashList := rfl
  have hhead : Go.headerFields (l.headerFields file).fileSize (l.headerFields file).blockSize
    (l.headerFields file).modSize (l.headerFields file).filename (l.headerFields file).filepath
    (l.headerFields file).hashlist = l.headerBytes file := rfl
  have hhashlen : fileHashes.length = l.fileHashList.length := by
    have hlength := congrArg List.length hsizes
    rwa [hnames, calcHashBlockSize_joinNames, List.length_map, List.length_map] at hlength
  rw [hhead] at hbytes
  have hstart : stop = (l.headerBytes file).length := by
    have hlength := congrArg List.length hbytes
    rw [List.length_append, List.length_drop] at hlength
    omega
  rw [hnames, calcHashBlockSize_joinNames] at hbound
  rw [hnames', calcHashBlockSize_joinNames] at hbound himported
  rw [length_bufrRead, hstart] at hbound
  refine ⟨fun hnil' => hnil ?_, ?_, ?_, ?_, ?_, fileHashes, rest, hhashlen, ?_, ?_⟩
  · rw [hnames', joinNames_eq_nil_iff]
    exact hnil'
  · by_contra hzero
    have hblocksize : (l.headerFields file).blockSize = 0 := by
      change l.blocksize.toNat = 0
      omega
    rw [hblocksize, calculateFileBlocks, if_pos rfl] at hcount
    cases hcount
  · rwa [List.length_map] at himported
  · intro count' rem' hcount'
    rw [hlen]
    exact (Prod.mk.inj (Option.some.inj (hcount.symm.trans hcount'))).1
  · rwa [hlen]
  · rw [List.append_assoc, List.flatMap_append, ungroup_importHeader hblock hbit hhashlen,
      List.append_assoc] at hsame
    exact List.append_cancel_right (List.append_cancel_left hsame)
  · rw [hbytes, hdrop, hrest]
    rfl

omit hblock hbit in
theorem length_payload_blockCalls (hne : l.blockHashList ≠ []) (hpos : 0 < l.blocksize)
    (htexts : ∀ block ∈ fileBlocks file.content l.blocksize.toNat, l.blockTexts block = []) :
    ((l.blockCalls file.content).flatMap (payload l.bitsize.toNat)).length =
      (fileBlocks file.content l.blocksize.toNat).length * l.blockRecordSize := by
  have hsizes : (fileBlocks file.content l.blocksize.toNat).map
      (fun block => (payload l.bitsize.toNat (l.blockOf block)).length) =
        (fileBlocks file.content l.blocksize.toNat).map fun _ => l.blockRecordSize :=
    List.map_congr_left fun block hmem => by
      rw [l.payload_blockOf block (htexts block hmem), length_blockRecord]
  rw [blockCalls, if_pos ⟨hpos, hne⟩, List.flatMap_map, List.length_flatMap, hsizes,
    List.map_const', List.sum_replicate, smul_eq_mul]

omit hblock hbit in
theorem blockSize_pos : ∀ row ∈ hlist, 0 < row.blockSize := by decide +kernel

theorem readable_of_binaryRoundTrip (h : l.BinaryRoundTrip file) : l.BinaryReadable file := by
  have hread := importsStream_of_roundTrip hblock hbit h
  have hne := hread.blockHashes
  have hpos := hread.blocksize_pos
  have hbound := hread.bound
  obtain ⟨fileHashes, rest, hlen, hsame, hbytes⟩ := hread.bytes
  have hcalls : l.blockCalls file.content =
      (fileBlocks file.content l.blocksize.toNat).map l.blockOf := if_pos ⟨hpos, hne⟩
  have hcount : (l.blockCalls file.content).length =
      (fileBlocks file.content l.blocksize.toNat).length := by rw [hcalls, List.length_map]
  have hplain : ∀ block ∈ fileBlocks file.content l.blocksize.toNat,
      l.blockTexts block = [] ∧ l.blockExp block < 2 ^ 32 := by
    intro block hmem
    have hcall := hread.imported (l.blockOf block) (hcalls ▸ List.mem_map_of_mem hmem)
    rw [blockOf_eq, Imported, List.length_append, List.length_map, length_digests] at hcall
    exact ⟨List.length_eq_zero_iff.mp (by omega), hcall.2⟩
  have hline : l.filehashline = true → l.fileHashList.length ≤ 1 := by
    -- the digests behind the first one are missing from the stream
    intro hline
    by_contra hlen
    obtain ⟨first, second, rest, hlist⟩ : ∃ first second rest,
        l.fileHashList = first :: second :: rest := by
      match hlist : l.fileHashList with
      | [] | [_] => simp [hlist] at hlen
      | first :: second :: rest => exact ⟨first, second, rest, rfl⟩
    have hsecond := blockSize_pos _ second.mem
    rw [streamBytes, List.length_append, List.length_append, fileHashCalls, if_pos hline, hlist,
      FileData.fileSignatures, payload_mdencodeFileHashLine, first.length_sum,
      length_payload_blockCalls hne hpos fun block hmem => (hplain block hmem).1, hcount] at hbound
    simp only [List.map_cons, List.sum_cons] at hbound
    omega
  refine ⟨hne, hpos, hline, fun hcontent => ?_, fun count rem hblocks => ?_,
    fun hbit block hmem => ?_, ?_⟩
  · obtain ⟨count, rem, hblocks, hsplit⟩ := calculateFileBlocks_splits
      (show 0 < l.blocksize.toNat by omega) (List.length_pos_iff.mpr hcontent)
    have hfirst : fileBlocks file.content l.blocksize.toNat ≠ [] := by
      intro hnil
      have hcount' := hread.count count rem hblocks
      rw [hcount, hnil] at hcount'
      exact hsplit.count_pos.ne hcount'
    obtain ⟨block, hmem⟩ := List.exists_mem_of_ne_nil _ hfirst
    exact (l.blockTexts_eq_nil_iff block).mp (hplain block hmem).1
  · rcases eq_or_ne file.content [] with hnil | hcontent
    · rw [hnil]
      exact Nat.zero_le _
    · obtain ⟨count', rem', hblocks', hsplit⟩ := calculateFileBlocks_splits
        (show 0 < l.blocksize.toNat by omega) (List.length_pos_iff.mpr hcontent)
      obtain ⟨rfl, rfl⟩ := Prod.mk.inj (Option.some.inj (hblocks.symm.trans hblocks'))
      exact (length_fileBlocks_iff hblocks hsplit).mp (hcount ▸ hread.count count rem hblocks)
  · exact (l.blockExp_lt_iff block).mp (hplain block hmem).2 hbit
  · -- as many bytes were read as were written, and they say the same
    rw [ungroup_fileHashCalls length_fileSignatures_file hline] at hsame
    have hflat := congrArg (List.flatMap (payload 0)) hsame
    rw [l.payload_mdencodeFileHashes hlen,
      l.payload_mdencodeFileHashes length_fileSignatures_file] at hflat
    have hstream : l.streamBytes file = l.headerBytes file ++ (fileHashes.flatten ++
        (l.blockCalls file.content).flatMap (payload l.bitsize.toNat)) := by
      rw [streamBytes, payload_fileHashCalls length_fileSignatures_file hline, hflat]
    have hrest : bufrRead (l.streamBytes file) = l.streamBytes file ++ rest := by
      rw [hbytes, hstream]
      simp only [List.append_assoc]
    have hlength := congrArg List.length hrest
    rw [length_bufrRead, List.length_append] at hlength
    rw [← bufrRead_eq_self_iff, hrest, List.length_eq_zero_iff.mp (show rest.length = 0 by omega),
      List.append_nil]

theorem binaryRoundTrip_iff : l.BinaryRoundTrip file ↔ l.BinaryReadable file :=
  ⟨readable_of_binaryRoundTrip hblock hbit, binaryRoundTrip_of_readable hblock hbit⟩

end

theorem binaryRoundTrip_iff_plain : (byteBlocks false).BinaryRoundTrip fileA := by
  have hreads : ∀ blocks remainder, calculateFileBlocks fileA.content.length
      (byteBlocks false).blocksize.toNat = some (blocks, remainder) →
        fileA.content.length ≤ blocks * maxRW := by
    intro blocks remainder hcount
    obtain ⟨rfl, -⟩ := Prod.mk.inj (Option.some.inj hcount)
    have hlen : fileA.content.length ≤ maxRW := le_maxRW (by decide)
    exact hlen.trans_eq (Nat.one_mul maxRW).symm
  have hstream : ∀ byte ∈ ((byteBlocks false).streamBytes fileA).drop maxRW, byte = 0 := by
    rw [maxRW]
    decide +kernel
  exact (binaryRoundTrip_iff (by decide) (by decide)).mpr
    ⟨by decide, by decide, by decide, by decide, hreads, by decide +kernel, hstream⟩

/-- The text of `-byte` is no hexadecimal, so the digest behind it is lost and
the importer runs out of bytes. -/
theorem byte_text_not_imported : ¬ ∀ (l : MdEncode) (file : InputFile), 0 ≤ l.blocksize →
    0 ≤ l.bitsize → l.BinaryRoundTrip file := by
  intro h
  obtain ⟨calls, stream, imported, hrun, hstream, himport, -⟩ :=
    h (byteBlocks true) fileA (by decide) (by decide)
  have hfail : ((byteBlocks true).mdencode [fileA]).bind (fun run =>
      run.head?.bind fun calls => (binaryStream calls).bind testBinReadMdFmt) = none := by
    decide +kernel
  rw [hrun, Option.bind_some, List.head?_cons, Option.bind_some, hstream, Option.bind_some,
    himport] at hfail
  cases hfail

end MdEncode

end Mdencode.Go
