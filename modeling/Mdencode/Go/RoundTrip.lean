import Mdencode.Go.RecordFormat

/-! The round trip of an archive of `mdzip` through `DecodeFile`: header, file
signatures and records, and where it goes wrong. What is read back says all
about the bytes that were parsed, so that nothing of them may have been missing. -/

namespace Mdencode.Go

open Mdencode.Bytes

/-! The header and the file signatures -/

section
variable (args : MdzipArgs)

/-- The block size in the header: no more than the file has. -/
def headerBlockSize : ℕ :=
  if args.file.length < args.blocksize then args.file.length else args.blocksize

def headerHashes : List UInt8 :=
  hashListString args.fileHashList args.blockHashList args.keylist

def headerBytes : List UInt8 :=
  [args.file.length, headerBlockSize args, args.modsize, args.fileName.length,
    args.filePath.length, (headerHashes args).length].flatMap (toBE 8) ++ args.filePath ++
    args.fileName ++ headerHashes args

def signatures : List (List UInt8) := FileData.fileSignatures args.fileHashList args.file

/-- Where the records start. -/
def recordStart : ℕ := (headerBytes args).length + (signatures args).flatten.length

/-- What the header is read back as. -/
def headerOf : FileHeader where
  fileSize := args.file.length
  blockSize := headerBlockSize args
  modSize := args.modsize
  filepath := args.filePath
  filename := args.fileName
  hashlist := headerHashes args
  filelist := joinNames args.fileHashList
  blocklist := joinNames args.blockHashList
  keylist := args.keylist

variable {args} {bytes rest : List UInt8} {start : ℕ}

theorem headerBlockSize_lt : headerBlockSize args < 2 ^ 63 := by
  have hfile := args.file_lt
  have hblock := args.blocksize_lt
  unfold headerBlockSize
  split_ifs <;> omega

theorem decodeHeader_eq (h : At bytes 0 (headerBytes args ++ rest)) :
    decodeHeader bytes = some (headerOf args, (headerBytes args).length) :=
  decodeHeader_headerFields h args.file_lt headerBlockSize_lt args.modsize_lt args.fileName_lt
    args.filePath_lt args.hashes_lt
    (splitHashList_hashListString args.fileHashList args.blockHashList args.keylist_dash)

/-- Up to the block loop the reader is where the writer was. -/
theorem decodeBytes_eq (hne : args.blockHashList ≠ [])
    (h : At bytes 0 (headerBytes args ++ ((signatures args).flatten ++ rest))) :
    decodeBytes bytes =
      (calculateFileBlocks args.file.length (headerBlockSize args)).bind fun (count, rem) =>
        (decodeBlocks bytes (headerBlockSize args) args.modsize (mdblocksize args.blockHashList)
          count rem count 0 (recordStart args)).map fun blocks =>
            ⟨headerOf args, signatures args, blocks⟩ := by
  have hsizes : calcHashBlockSize (joinNames args.fileHashList) =
      (signatures args).map List.length := by
    rw [calcHashBlockSize_joinNames, signatures, length_fileSignatures]
  have hafter := h.drop
  rw [Nat.zero_add] at hafter
  have hfilelist : (headerOf args).filelist = joinNames args.fileHashList := rfl
  have hblocklist : (headerOf args).blocklist = joinNames args.blockHashList := rfl
  simp only [decodeBytes, Option.bind_eq_bind, Option.pure_def, decodeHeader_eq h, Option.bind_some,
    hfilelist, hblocklist, hsizes, decodeFileHashes_eq hafter,
    if_neg (joinNames_ne_nil hne), calcHashBlockSize_joinNames, Option.map_eq_bind]
  rfl

/-! The whole archive -/

variable (args) in
/-- The entries of all blocks. -/
def blockEntries (count : ℕ) : List BlockEntry :=
  entriesFrom args.blockHashList args.modsize args.file (headerBlockSize args) (recordStart args) 0
    count

variable (args) in
def archiveBytes (count : ℕ) : List UInt8 :=
  headerBytes args ++ ((signatures args).flatten ++
    (blockEntries args count).flatMap (recordBytes args.modsize))

theorem foldl_encodeFileHash (md : MdFormat) (sigs : List (List UInt8)) :
    sigs.foldl MdFormat.encodeFileHash md = md.write sigs.flatten := by
  induction sigs generalizing md with
  | nil => simp [MdFormat.write]
  | cons sig sigs ih => simp [ih, MdFormat.encodeFileHash, MdFormat.write]

variable (args) in
/-- The encoder when it enters the block loop. -/
def loopStart (count rem : ℕ) : FileData where
  fileSize := args.file.length
  blockSize := headerBlockSize args
  modSize := args.modsize
  blockCount := count
  blockRemainder := rem
  fileHashList := args.fileHashList
  blockHashList := args.blockHashList
  keylist := args.keylist
  mdfmt := ⟨0, args.modsize, headerBytes args ++ (signatures args).flatten⟩
  entries := []

theorem mdzip_eq_ite : mdzip args =
    if 0 < headerBlockSize args then
      (calculateFileBlocks args.file.length (headerBlockSize args)).bind fun (count, rem) =>
        (loopStart args count rem).mdencodeFileBlock (headerBlockSize args) args.modsize args.file
    else some (loopStart args 0 0) := by
  simp only [mdzip, FileData.mdencodeFile, FileData.mdencodeFileHashes, foldl_encodeFileHash]
  rfl

theorem length_loopStart (count rem : ℕ) :
    (loopStart args count rem).mdfmt.file.length = recordStart args := List.length_append

/-- What `mdzip` leaves behind for a file that is not empty, in blocks that one
read can fill. -/
theorem mdzip_eq {count rem : ℕ} (hm : 1 ≤ args.modsize) (hne : args.blockHashList ≠ [])
    (hpos : 0 < headerBlockSize args) (hmax : headerBlockSize args ≤ maxRW)
    (hcount : calculateFileBlocks args.file.length (headerBlockSize args) = some (count, rem))
    (hsplit : Splits args.file.length (headerBlockSize args) count rem) :
    mdzip args = some { loopStart args count rem with
      mdfmt := ⟨0, args.modsize, archiveBytes args count⟩
      entries := blockEntries args count } := by
  have hfuel : count < args.file.length + 1 := by
    have hsize := hsplit.size_eq
    have hrem := hsplit.rem_pos
    have hle : count - 1 ≤ (count - 1) * headerBlockSize args := Nat.le_mul_of_pos_right _ hpos
    omega
  have hstart : (loopStart args count rem).mdfmt.file.length =
      recordStart args + 0 * recordSize args.blockHashList args.modsize := by
    rw [Nat.zero_mul, Nat.add_zero, length_loopStart]
  have hloop := encodeFileBlocks_eq (l := loopStart args count rem) hsplit hmax (Nat.zero_add count)
    hfuel
    (fun _ => List.length_replicate (a := (0 : UInt8))) rfl rfl rfl rfl rfl hstart
  have hhash : (loopStart args count rem).blockHashList = args.blockHashList := rfl
  rw [Nat.zero_mul, List.drop_zero] at hloop
  rw [mdzip_eq_ite, if_pos hpos, hcount, Option.bind_some]
  dsimp only
  rw [FileData.mdencodeFileBlock, hhash, if_neg hne, if_neg (by omega)]
  apply hloop.trans
  simp only [MdFormat.write, archiveBytes, loopStart, List.append_assoc, List.nil_append]
  rfl

theorem mdzip_empty (hzero : headerBlockSize args = 0) :
    mdzip args = some (loopStart args 0 0) := by
  rw [mdzip_eq_ite, if_neg (by omega)]

/-! The block loop of the reader -/

/-- For blocks of at most 32 bytes the reader follows the writer. -/
theorem decodeBlocks_eq {B count rem k left : ℕ} (hsplit : Splits args.file.length B count rem)
    (hB : B ≤ 32) (hk : k + left = count)
    (h : At bytes (start + k * recordSize args.blockHashList args.modsize)
      ((entriesFrom args.blockHashList args.modsize args.file B start k left).flatMap
        (recordBytes args.modsize))) :
    decodeBlocks bytes B args.modsize (mdblocksize args.blockHashList) count rem left k
        (start + k * recordSize args.blockHashList args.modsize) =
      some (entriesFrom args.blockHashList args.modsize args.file B start k left) := by
  induction left generalizing k with
  | zero => rfl
  | succ left ih =>
    set e := entryAt args.blockHashList args.modsize args.file B start k with he
    have hcons : entriesFrom args.blockHashList args.modsize args.file B start k (left + 1) =
        e :: entriesFrom args.blockHashList args.modsize args.file B start (k + 1) left := by
      simp [entriesFrom, List.range'_succ, he]
    have hlen := hsplit.length_fileBlock (show k < count by omega)
    have hle := hsplit.fileBlock_le (show k < count by omega)
    have hexp : e.modExp < 256 ^ 1 := logN_ofBE_lt (hle.trans hB)
    have hrem : e.modremainder < 256 ^ modByteSize args.modsize :=
      (Nat.mod_lt _ (by positivity)).trans_le (two_pow_le_modByteSize _)
    have hhash : mdblocksize args.blockHashList = e.hashBytes.length :=
      (length_blockHashBytes _ _).symm
    rw [hcons, List.flatMap_cons] at h
    have hnext := h.drop
    rw [he, entryAt, length_recordBytes, Nat.add_assoc, ← Nat.succ_mul] at hnext
    rw [recordBytes, exponentBytes_zero, List.append_assoc, List.append_assoc] at h
    have h₁ := h.drop
    rw [← hhash] at h₁
    have h₂ := h₁.drop_toBE
    have hsize : e.blocksize = if k + 1 ≠ count then B else rem := hlen
    have hoffset : e.offset = start + (k + 1) * recordSize args.blockHashList args.modsize := rfl
    have hstop : start + k * recordSize args.blockHashList args.modsize +
        mdblocksize args.blockHashList + 1 + modByteSize args.modsize = e.offset := by
      rw [hoffset, recordSize]
      ring
    have hblock : decodeBlock bytes B args.modsize (mdblocksize args.blockHashList)
        (if k + 1 ≠ count then B else rem)
        (start + k * recordSize args.blockHashList args.modsize) = some e := by
      simp only [decodeBlock, Option.bind_eq_bind, Option.pure_def, h.readBytes hhash, if_pos hB,
        Option.bind_some, h₁.readUint hexp, h₂.readUint hrem, hstop, ← hsize]
    simp only [decodeBlocks, Option.bind_eq_bind, Option.pure_def, hblock, Option.bind_some,
      hoffset, ih (by omega) hnext, hcons]

/-- How long the reader takes a record to be does not depend on its bytes. -/
theorem decodeBlock_offset {B m md current : ℕ} (hB : 32 < B) {e : BlockEntry}
    (h : decodeBlock bytes B m md current start = some e) :
    e.offset = start + md + 4 + modByteSize m := by
  simp only [decodeBlock, Option.bind_eq_bind, Option.bind_eq_some_iff, Option.pure_def,
    Prod.exists, Option.some.injEq, if_neg (Nat.not_le.mpr hB)] at h
  obtain ⟨hashBytes, stop, hhash, modExp, stop', hexp, modremainder, stop'', hrem, rfl⟩ := h
  obtain ⟨rfl, -⟩ := readBytes_eq_some hhash
  obtain ⟨rfl, -⟩ := readUint_eq_some hexp
  exact (readUint_eq_some hrem).1

/-! What has been read back -/

/-- A reader that comes to its end has read the parts one after the other. -/
theorem decodeBytes_eq_some {d : DecodedFile} (h : decodeBytes bytes = some d) :
    ∃ stop stop' count rem, decodeHeader bytes = some (d.header, stop) ∧
      decodeFileHashes bytes (calcHashBlockSize d.header.filelist) stop =
        some (d.fileHashes, stop') ∧
      calculateFileBlocks d.header.fileSize d.header.blockSize = some (count, rem) ∧
      decodeBlocks bytes d.header.blockSize d.header.modSize
        (calcHashBlockSize d.header.blocklist).sum count rem count 0 stop' = some d.blocks := by
  simp only [decodeBytes, Option.bind_eq_bind, Option.pure_def, Option.bind_eq_some_iff,
    Prod.exists] at h
  obtain ⟨header, stop, hheader, h⟩ := h
  by_cases hnil : header.blocklist = []
  · rw [if_pos hnil] at h
    cases h
  rw [if_neg hnil] at h
  simp only [Option.bind_eq_some_iff, Prod.exists, Option.some.injEq] at h
  obtain ⟨fileHashes, stop', hhashes, count, rem, hcount, blocks, hblocks, rfl⟩ := h
  exact ⟨stop, stop', count, rem, hheader, hhashes, hcount, hblocks⟩

/-- Up to 32 bytes a record that is read is one that is written. -/
theorem decodeBlock_eq_some {B m md current : ℕ} (hB : B ≤ 32) {e : BlockEntry}
    (h : decodeBlock bytes B m md current start = some e) :
    bytes.drop start = recordBytes m e ++ bytes.drop e.offset := by
  simp only [decodeBlock, Option.bind_eq_bind, Option.bind_eq_some_iff, Option.pure_def,
    Prod.exists, Option.some.injEq, if_pos hB] at h
  obtain ⟨hashBytes, stop, hhash, modExp, stop', hexp, modremainder, stop'', hrem, rfl⟩ := h
  obtain ⟨-, -, -, hdrop⟩ := readBytes_eq_some hhash
  obtain ⟨-, -, -, hdrop'⟩ := readUint_eq_some hexp
  obtain ⟨-, -, -, hdrop''⟩ := readUint_eq_some hrem
  rw [hdrop, hdrop', hdrop'', recordBytes, exponentBytes_zero]
  simp only [List.append_assoc]

theorem decodeBlocks_eq_some {B m md count rem left k : ℕ} (hB : B ≤ 32)
    {entries : List BlockEntry}
    (h : decodeBlocks bytes B m md count rem left k start = some entries) :
    ∃ rest, bytes.drop start = entries.flatMap (recordBytes m) ++ rest := by
  induction left generalizing k start entries with
  | zero =>
    obtain rfl := Option.some.inj h
    exact ⟨bytes.drop start, rfl⟩
  | succ left ih =>
    simp only [decodeBlocks, Option.bind_eq_bind, Option.bind_eq_some_iff, Option.pure_def,
      Option.some.injEq] at h
    obtain ⟨e, he, others, hothers, rfl⟩ := h
    obtain ⟨rest, hrest⟩ := ih hothers
    refine ⟨rest, ?_⟩
    rw [decodeBlock_eq_some hB he, hrest, List.flatMap_cons, List.append_assoc]

/-- What is read back in blocks of at most 32 bytes says what the bytes are. -/
theorem decodeBytes_bytes {d : DecodedFile} (h : decodeBytes bytes = some d)
    (hB : d.header.blockSize ≤ 32) :
    ∃ rest, bytes = headerFields d.header.fileSize d.header.blockSize d.header.modSize
      d.header.filename d.header.filepath d.header.hashlist ++ (d.fileHashes.flatten ++
        (d.blocks.flatMap (recordBytes d.header.modSize) ++ rest)) := by
  obtain ⟨stop, stop', count, rem, hheader, hhashes, -, hblocks⟩ := decodeBytes_eq_some h
  obtain ⟨-, hle, -, -, hbytes⟩ := decodeHeader_eq_some hheader
  obtain ⟨-, -, -, hdrop⟩ := decodeFileHashes_eq_some hle hhashes
  obtain ⟨rest, hrest⟩ := decodeBlocks_eq_some hB hblocks
  exact ⟨rest, by rw [← hrest, ← hdrop]; exact hbytes⟩

/-! The round trip -/

/-- What the header should say after the encoder has run. -/
def FileData.header (l : FileData) (args : MdzipArgs) : FileHeader where
  fileSize := l.fileSize
  blockSize := l.blockSize
  modSize := l.modSize
  filepath := args.filePath
  filename := args.fileName
  hashlist := hashListString l.fileHashList l.blockHashList l.keylist
  filelist := joinNames l.fileHashList
  blocklist := joinNames l.blockHashList
  keylist := l.keylist

variable (args) in
/-- The archive is read back as what was encoded, record ends included. -/
def RoundTrips : Prop :=
  ∃ l, mdzip args = some l ∧ decodeFile l.mdfmt.file =
    some ⟨l.header args, FileData.fileSignatures l.fileHashList args.file, l.entries⟩

theorem headerBlockSize_eq : headerBlockSize args = min args.blocksize args.file.length := by
  unfold headerBlockSize
  split_ifs <;> omega

/-- The first records behind the header and the signatures, whatever follows. -/
theorem decodeBytes_archiveBytes {count rem : ℕ} (hne : args.blockHashList ≠ [])
    (hcount : calculateFileBlocks args.file.length (headerBlockSize args) = some (count, rem)) :
    decodeBytes (archiveBytes args count) =
      (decodeBlocks (archiveBytes args count) (headerBlockSize args) args.modsize
        (mdblocksize args.blockHashList) count rem count 0 (recordStart args)).map fun blocks =>
          ⟨headerOf args, signatures args, blocks⟩ := by
  have hat : At (archiveBytes args count) 0 (headerBytes args ++ ((signatures args).flatten ++
      (blockEntries args count).flatMap (recordBytes args.modsize))) := At.zero _
  rw [decodeBytes_eq hne hat, hcount, Option.bind_some]

variable (args) in
/-- The archive, with a record for each block of the file. -/
def archive : List UInt8 :=
  archiveBytes args ((calculateFileBlocks args.file.length (headerBlockSize args)).elim 0 Prod.fst)

variable (args) in
/-- The archive is zero behind what one `Read` returns of it. -/
def ReadAtOnce : Prop := ∀ byte ∈ (archive args).drop maxRW, byte = 0

/-- An archive of at most a gibibyte is read at once. -/
theorem readAtOnce_of_le (h : (archive args).length ≤ maxRW) : ReadAtOnce args := by
  intro byte hmem
  rw [List.drop_eq_nil_of_le h] at hmem
  cases hmem

section
variable (hb : 1 ≤ args.blocksize) (hm : 1 ≤ args.modsize) (hne : args.blockHashList ≠ [])
include hb hm hne

theorem roundTrips_iff_of_le (hfile : args.file ≠ []) (hle : headerBlockSize args ≤ 32) :
    RoundTrips args ↔ ReadAtOnce args := by
  have hlen := List.length_pos_iff.mpr hfile
  have hpos : 0 < headerBlockSize args := by rw [headerBlockSize_eq]; omega
  obtain ⟨count, rem, hcount, hsplit⟩ := calculateFileBlocks_splits hpos hlen
  have hzip := mdzip_eq hm hne hpos (hle.trans (le_maxRW (by norm_num))) hcount hsplit
  have harchive : archive args = archiveBytes args count := by rw [archive, hcount]; rfl
  have hat : At (archiveBytes args count)
      (recordStart args + 0 * recordSize args.blockHashList args.modsize)
      ((blockEntries args count).flatMap (recordBytes args.modsize)) := by
    rw [Nat.zero_mul, Nat.add_zero]
    have hdrop := (At.zero (archiveBytes args count)).drop.drop
    rwa [Nat.zero_add] at hdrop
  have hblocks := decodeBlocks_eq hsplit hle (Nat.zero_add count) hat
  rw [Nat.zero_mul, Nat.add_zero] at hblocks
  rw [ReadAtOnce, harchive, ← bufrRead_eq_self_iff]
  constructor
  · rintro ⟨l, hl, hdecode⟩
    obtain rfl := Option.some.inj (hzip.symm.trans hl)
    obtain ⟨rest, hrest⟩ := decodeBytes_bytes hdecode hle
    -- as many bytes were parsed as were written, and they are the same
    have hbytes : bufrRead (archiveBytes args count) = archiveBytes args count ++ rest := by
      rw [archiveBytes, List.append_assoc, List.append_assoc]
      exact hrest
    have hlength := congrArg List.length hbytes
    rw [length_bufrRead, List.length_append] at hlength
    rw [hbytes, List.length_eq_zero_iff.mp (show rest.length = 0 by omega), List.append_nil]
  · intro hread
    refine ⟨_, hzip, ?_⟩
    dsimp only
    rw [decodeFile, hread, decodeBytes_archiveBytes hne hcount, hblocks]
    rfl

end

/-- The loop of the encoder only adds records. -/
theorem encodeFileBlocks_keeps {modulusBigInt fuel blocksRead : ℕ} {file filebuffer : List UInt8}
    {l l' : FileData}
    (h : FileData.encodeFileBlocks modulusBigInt fuel blocksRead file filebuffer l = some l') :
    ∃ mdfmt entries, l' = { l with mdfmt, entries := l.entries ++ entries } := by
  induction fuel generalizing blocksRead file filebuffer l with
  | zero => cases h
  | succ fuel ih =>
    rw [FileData.encodeFileBlocks] at h
    by_cases hnil : file = []
    · rw [if_pos hnil] at h
      obtain rfl := Option.some.inj h
      exact ⟨l.mdfmt, [], by rw [List.append_nil]⟩
    · rw [if_neg hnil] at h
      obtain ⟨next, hnext, hrest⟩ := Option.bind_eq_some_iff.mp h
      obtain ⟨mdfmt, -, rfl⟩ := Option.map_eq_some_iff.mp hnext
      obtain ⟨mdfmt', entries, rfl⟩ := ih hrest
      dsimp only
      exact ⟨mdfmt', _ :: entries, by rw [List.append_assoc, List.singleton_append]⟩

/-- Where the first record ends. -/
theorem exists_first_entry {count rem : ℕ} (hm : 1 ≤ args.modsize) (hne : args.blockHashList ≠ [])
    (hfile : args.file ≠ []) {l : FileData}
    (h : (loopStart args count rem).mdencodeFileBlock (headerBlockSize args) args.modsize
      args.file = some l) :
    ∃ mdfmt e entries, l = { loopStart args count rem with mdfmt, entries := e :: entries } ∧
      e.offset = recordStart args + recordSize args.blockHashList args.modsize := by
  have hhash : (loopStart args count rem).blockHashList = args.blockHashList := rfl
  have hbs : (loopStart args count rem).mdfmt.blockSize = 0 := rfl
  have hms : (loopStart args count rem).mdfmt.modSize = args.modsize := rfl
  rw [FileData.mdencodeFileBlock, hhash, if_neg hne, if_neg (by omega),
    FileData.encodeFileBlocks, if_neg hfile] at h
  dsimp only at h
  rw [encodeFileBlock_eq hbs hms _ rfl, Option.bind_some] at h
  obtain ⟨mdfmt, entries, rfl⟩ := encodeFileBlocks_keeps h
  refine ⟨mdfmt, _, entries, rfl, ?_⟩
  rw [← length_loopStart count rem]
  rfl

/-- Above 32 bytes the reader takes the first record to be three bytes longer
than it is. -/
theorem not_roundTrips_of_lt (hm : 1 ≤ args.modsize) (hne : args.blockHashList ≠ [])
    (hlt : 32 < headerBlockSize args) : ¬ RoundTrips args := by
  have hpos : 0 < headerBlockSize args := by omega
  have hlen : 0 < args.file.length := by
    rw [headerBlockSize_eq] at hpos
    omega
  obtain ⟨count, rem, hcount, hsplit⟩ := calculateFileBlocks_splits hpos hlen
  rintro ⟨l, hl, hdecode⟩
  rw [mdzip_eq_ite, if_pos hpos, hcount, Option.bind_some] at hl
  obtain ⟨mdfmt, first, entries, rfl, hoffset⟩ :=
    exists_first_entry hm hne (List.length_pos_iff.mp hlen) hl
  obtain ⟨stop, stop', count', rem', hheader, hhashes, hcount', hblocks⟩ :=
    decodeBytes_eq_some hdecode
  obtain ⟨rfl, hle, -⟩ := decodeHeader_eq_some hheader
  obtain ⟨rfl, -⟩ := decodeFileHashes_eq_some hle hhashes
  obtain rfl : count = count' := by
    have hpair := hcount.symm.trans hcount'
    exact (Prod.mk.inj (Option.some.inj hpair)).1
  obtain ⟨n, rfl⟩ : ∃ n, count = n + 1 := ⟨count - 1, by have := hsplit.count_pos; omega⟩
  simp only [decodeBlocks, Option.bind_eq_bind, Option.bind_eq_some_iff, Option.pure_def,
    Option.some.injEq, List.cons.injEq] at hblocks
  obtain ⟨e, he, others, -, rfl, -⟩ := hblocks
  have hread := decodeBlock_offset (show 32 < headerBlockSize args from hlt) he
  have hfilelist : calcHashBlockSize (joinNames args.fileHashList) =
      (signatures args).map List.length := by
    rw [calcHashBlockSize_joinNames, signatures, length_fileSignatures]
  have hsum : ((signatures args).map List.length).sum = (signatures args).flatten.length :=
    List.length_flatten.symm
  have hheaderlen : (headerBytes args).length = 48 + args.filePath.length + args.fileName.length +
      (headerHashes args).length := by
    rw [show headerBytes args = headerFields args.file.length (headerBlockSize args) args.modsize
      args.fileName args.filePath (headerHashes args) from rfl, length_headerFields]
  rw [hoffset, recordStart, recordSize, hheaderlen, ← hsum, ← hfilelist, mdblocksize,
    ← calcHashBlockSize_joinNames] at hread
  dsimp only [FileData.header, loopStart] at hread
  rw [headerHashes] at hread
  omega

/-- An empty file makes the reader divide by zero. -/
theorem not_roundTrips_empty (hfile : args.file = []) : ¬ RoundTrips args := by
  have hzero : headerBlockSize args = 0 := by rw [headerBlockSize_eq, hfile]; simp
  rintro ⟨l, hl, hdecode⟩
  rw [mdzip_empty hzero, Option.some.injEq] at hl
  subst hl
  obtain ⟨-, -, count, rem, -, -, hcount, -⟩ := decodeBytes_eq_some hdecode
  have hsize : ((loopStart args 0 0).header args).blockSize = 0 := hzero
  rw [hsize, calculateFileBlocks, if_pos rfl] at hcount
  cases hcount

/-- The archive is read back exactly when the file is not empty, its blocks are
at most 32 bytes long and one `Read` gets all of the archive. -/
theorem decodeFile_mdzip_iff (args : MdzipArgs) (hb : 1 ≤ args.blocksize) (hm : 1 ≤ args.modsize)
    (hne : args.blockHashList ≠ []) :
    RoundTrips args ↔ args.file ≠ [] ∧ min args.blocksize args.file.length ≤ 32 ∧
      ReadAtOnce args := by
  rw [← headerBlockSize_eq]
  constructor
  · intro h
    have hfile : args.file ≠ [] := fun hfile => not_roundTrips_empty hfile h
    have hle : headerBlockSize args ≤ 32 := by
      by_contra hlt
      exact not_roundTrips_of_lt hm hne (by omega) h
    exact ⟨hfile, hle, (roundTrips_iff_of_le hb hm hne hfile hle).mp h⟩
  · rintro ⟨hfile, hle, hread⟩
    exact (roundTrips_iff_of_le hb hm hne hfile hle).mpr hread

/-- A file of zeros in blocks of the given size, with the default modulus size. -/
def zeroArgs (blocksize size : ℕ) (hblock : blocksize < 2 ^ 63) (hsize : size < 2 ^ 63) :
    MdzipArgs where
  blocksize
  modsize := 32
  fileHashList := []
  blockHashList := [crc32]
  keylist := []
  fileName := [97]
  filePath := [47]
  file := List.replicate size 0
  blocksize_lt := hblock
  modsize_lt := by norm_num
  fileName_lt := by norm_num
  filePath_lt := by norm_num
  file_lt := by rw [List.length_replicate]; exact hsize
  hashes_lt := by
    have hlen : (hashListString [] [crc32] []).length = 6 := by decide
    rw [hlen]
    norm_num
  keylist_dash := by simp

theorem thirtyTwo_lt : 32 < 2 ^ 63 := by norm_num

theorem forty_lt : 40 < 2 ^ 63 := by norm_num

theorem decodeFile_mdzip_zero : RoundTrips (zeroArgs 32 40 thirtyTwo_lt forty_lt) := by
  have hlength : (archive (zeroArgs 32 40 thirtyTwo_lt forty_lt)).length = 74 := by
    decide +kernel
  exact (decodeFile_mdzip_iff _ (by decide) (by decide) (by decide)).mpr
    ⟨by decide, by decide, readAtOnce_of_le (hlength.trans_le (le_maxRW (by norm_num)))⟩

/-- The default block size is too wide for any file of more than 32 bytes. -/
theorem default_blocks_desynchronise :
    ¬ RoundTrips (zeroArgs 40 40 forty_lt forty_lt) :=
  not_roundTrips_of_lt (by decide) (by decide) (by decide)

end

end Mdencode.Go
