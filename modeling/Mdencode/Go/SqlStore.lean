import Mdencode.Go.OrderIndependence
import Mdencode.Go.MdFormatSQL
import Mdencode.Go.RunTexts

/-! What a run of `mdencode` leaves in the database. The end of the first file
closes the connection, so nothing of a second file gets in. -/

namespace Mdencode.Go

open Mdencode.Bytes Mdencode.Numerals

/-! The rows of the calls for a file -/

def headerRow (id : ℕ) : FormatterCall → Option FileRow
  | .encodeFileHeader fileName filePath fileSize blockSize filehashList blockhashList modulusSize =>
    some ⟨id, fileName, filePath, fileSize, blockSize, modulusSize, joinTexts filehashList,
      joinTexts blockhashList⟩
  | _ => none

def hashRow (id : ℕ) : FormatterCall → Option FileHashRow
  | .encodeFileHash hashName hashBytes => some ⟨id, hashName, hashBytes⟩
  | _ => none

/-- The blocks among the calls, numbered one after the other. -/
def blockRows (id : ℕ) (hashname : List UInt8) : ℕ → List FormatterCall → List FileBlockRow
  | _, [] => []
  | number, .encodeBlock blockSize hashList modExp mod :: calls =>
    ⟨id, blockSize, number, hashname, joinTexts hashList, modExp, mod⟩ ::
      blockRows id hashname (number + 1) calls
  | number, _ :: calls => blockRows id hashname number calls

theorem mem_filterMap_hashRow {id : ℕ} {calls : List FormatterCall} {row : FileHashRow}
    (h : row ∈ calls.filterMap (hashRow id)) : row.fileid = id := by
  obtain ⟨call, -, hrow⟩ := List.mem_filterMap.mp h
  cases call <;> cases hrow
  rfl

theorem mem_blockRows {id number : ℕ} {hashname : List UInt8} {calls : List FormatterCall}
    {row : FileBlockRow} (h : row ∈ blockRows id hashname number calls) : row.fileid = id := by
  induction calls generalizing number with
  | nil => cases h
  | cons call calls ih =>
    cases call with
    | encodeBlock =>
      rcases List.mem_cons.mp h with rfl | h
      · rfl
      · exact ih h
    | _ => exact ih h

/-- The new rows are all that is selected. -/
theorem filter_fresh {α : Type} (fileid : α → ℕ) {old new : List α} {id : ℕ}
    (hold : ∀ row ∈ old, fileid row ≠ id) (hnew : ∀ row ∈ new, fileid row = id) :
    (old ++ new).filter (fun row => fileid row = id) = new := by
  have hnone : old.filter (fun row => fileid row = id) = [] :=
    List.filter_eq_nil_iff.mpr fun row hmem => by simpa using hold row hmem
  have hall : new.filter (fun row => fileid row = id) = new :=
    List.filter_eq_self.mpr fun row hmem => by simpa using hnew row hmem
  rw [List.filter_append, hnone, hall, List.nil_append]

/-! The calls for one file, from the point of view of the format object -/

namespace MdFormatSQL

variable {md : MdFormatSQL} {calls : List FormatterCall}

theorem foldlM_cons (hopen : md.isOpen = true) (call : FormatterCall) :
    (call :: calls).foldlM encode md = calls.foldlM encode (md.next call) := by
  rw [List.foldlM_cons, encode_of_open hopen]
  rfl

theorem foldlM_append {md' : MdFormatSQL} (h : calls.foldlM encode md = .ok md')
    (others : List FormatterCall) :
    (calls ++ others).foldlM encode md = others.foldlM encode md' := by
  rw [List.foldlM_append, h]
  rfl

theorem foldlM_fileHashes (hopen : md.isOpen = true) (h : ∀ call ∈ calls, call.isFileHash = true) :
    calls.foldlM encode md = .ok { md with db := { md.db with
      mdfilehash := md.db.mdfilehash ++ calls.filterMap (hashRow md.fileID) } } := by
  induction calls generalizing md with
  | nil => simp only [List.filterMap_nil, List.append_nil]; rfl
  | cons call calls ih =>
    have hcall := h call List.mem_cons_self
    cases call with
    | encodeFileHash hashName hashBytes =>
      have hnext : (md.next (.encodeFileHash hashName hashBytes)).isOpen = true := hopen
      rw [foldlM_cons hopen, ih hnext fun other hmem => h other (List.mem_cons_of_mem _ hmem)]
      simp only [next, hashRow, List.filterMap_cons, List.append_assoc, List.singleton_append]
    | _ => cases hcall

theorem foldlM_blocks (hopen : md.isOpen = true) (h : ∀ call ∈ calls, call.isBlock = true) :
    calls.foldlM encode md = .ok { md with
      blockNumber := md.blockNumber + calls.length
      db := { md.db with mdfileblocks :=
        md.db.mdfileblocks ++ blockRows md.fileID md.mdHashlist md.blockNumber calls } } := by
  induction calls generalizing md with
  | nil => simp only [blockRows, List.append_nil]; rfl
  | cons call calls ih =>
    have hcall := h call List.mem_cons_self
    cases call with
    | encodeBlock blockSize hashList modExp mod =>
      have hnext : (md.next (.encodeBlock blockSize hashList modExp mod)).isOpen = true := hopen
      rw [foldlM_cons hopen, ih hnext fun other hmem => h other (List.mem_cons_of_mem _ hmem)]
      simp only [next, blockRows, List.append_assoc, List.singleton_append, List.length_cons,
        Nat.add_assoc, Nat.add_comm 1]
    | _ => cases hcall

end MdFormatSQL

namespace MdEncode

variable (l : MdEncode) (signatures : List (List UInt8)) (file : InputFile) (db : Database)

/-- The row of the header call. -/
def fileRow (id : ℕ) : FileRow :=
  ⟨id, file.fileName, file.filePath, file.content.length, l.blocksize, l.bitsize,
    joinNames l.fileHashList, joinNames l.blockHashList⟩

/-- The database behind one file. -/
def storedFile : Database :=
  let id := db.maxFileid + 1
  { mdfilelist := db.mdfilelist ++ [id]
    mdfile := db.mdfile ++ [l.fileRow file id]
    mdfilehash := db.mdfilehash ++ (l.fileHashCalls signatures).filterMap (hashRow id)
    mdfileblocks := db.mdfileblocks ++
      blockRows id (joinNames l.blockHashList) 0 (l.blockCalls file.content) }

theorem foldlM_fileCalls :
    (l.fileCalls signatures file).foldlM MdFormatSQL.encode (.initFile db) = .ok
      { fileID := db.maxFileid + 1
        blockNumber := (l.blockCalls file.content).length
        mdHashlist := joinNames l.blockHashList
        db := l.storedFile signatures file db
        committed := l.storedFile signatures file db
        isOpen := false } := by
  have hhashes := MdFormatSQL.foldlM_fileHashes
    (show ((MdFormatSQL.initFile db).next (l.headerCall file)).isOpen = true from rfl)
    fun call (hmem : call ∈ l.fileHashCalls signatures) => (l.isFileHash_of_mem hmem).1
  rw [fileCalls, List.cons_append, List.cons_append, List.append_assoc,
    MdFormatSQL.foldlM_cons (by rfl), MdFormatSQL.foldlM_append hhashes,
    MdFormatSQL.foldlM_append (MdFormatSQL.foldlM_blocks (by rfl)
      fun call hmem => (l.isBlock_of_mem hmem).1), MdFormatSQL.foldlM_cons (by rfl)]
  simp only [headerCall, MdFormatSQL.next, MdFormatSQL.initFile, db.maxFileid_insertFile,
    storedFile, fileRow, Nat.zero_add]
  rfl

/-- Whatever else is called meets a closed connection. -/
theorem sqlStore_append (others : List FormatterCall) :
    sqlStore db (l.fileCalls signatures file ++ others) = l.storedFile signatures file db := by
  rw [sqlStore, MdFormatSQL.foldlM_append (l.foldlM_fileCalls signatures file db)]
  cases others with
  | nil => rfl
  | cons call others => rw [List.foldlM_cons, MdFormatSQL.encode_of_closed rfl]; rfl

theorem sqlStore_run {files : List InputFile} {runs : List (List FormatterCall)}
    (h : l.mdencode (file :: files) = some runs) :
    sqlStore db runs.flatten =
      l.storedFile (signaturesAfter l.fileHashList [] file.content) file db := by
  rw [mdencode_eq, directoryCalls] at h
  rw [← Option.some.inj h, List.flatten_cons, sqlStore_append]

end MdEncode

/-! What a report says about the calls -/

theorem filterMap_hashRow_filter (id : ℕ) (calls : List FormatterCall) :
    (calls.filter FormatterCall.isFileHash).filterMap (hashRow id) =
      calls.filterMap (hashRow id) := by
  induction calls with
  | nil => rfl
  | cons call calls ih =>
    cases call <;>
      simp [List.filter_cons, List.filterMap_cons, FormatterCall.isFileHash, hashRow, ih]

theorem blockRows_filter (id : ℕ) (hashname : List UInt8) (number : ℕ)
    (calls : List FormatterCall) :
    blockRows id hashname number (calls.filter FormatterCall.isBlock) =
      blockRows id hashname number calls := by
  induction calls generalizing number with
  | nil => rfl
  | cons call calls ih =>
    cases call <;> simp [List.filter_cons, FormatterCall.isBlock, blockRows, ih]

theorem map_call_hashRow {id : ℕ} {calls : List FormatterCall}
    (h : ∀ call ∈ calls, call.isFileHash = true) :
    (calls.filterMap (hashRow id)).map FileHashRow.call = calls := by
  induction calls with
  | nil => rfl
  | cons call calls ih =>
    have hcall := h call List.mem_cons_self
    cases call with
    | encodeFileHash =>
      simp [hashRow, FileHashRow.call, ih fun other hmem => h other (List.mem_cons_of_mem _ hmem)]
    | _ => cases hcall

/-- Block calls whose texts can be told apart at the colons come back. -/
theorem map_call_blockRows {id number : ℕ} {hashname : List UInt8} {calls : List FormatterCall}
    (h : ∀ call ∈ calls, ∃ blockSize hashList modExp mod,
      call = .encodeBlock blockSize hashList modExp mod ∧
        (joinTexts hashList).splitOn 58 = hashList) :
    (blockRows id hashname number calls).map FileBlockRow.call = calls := by
  induction calls generalizing number with
  | nil => rfl
  | cons call calls ih =>
    obtain ⟨blockSize, hashList, modExp, mod, rfl, hsplit⟩ := h call List.mem_cons_self
    rw [blockRows, List.map_cons, ih fun other hmem => h other (List.mem_cons_of_mem _ hmem),
      FileBlockRow.call, hsplit]

namespace MdEncode

variable (l : MdEncode)

theorem splitOn_blockOf (hne : l.blockHashList ≠ []) (block : List UInt8) :
    ∃ blockSize hashList modExp mod, l.blockOf block = .encodeBlock blockSize hashList modExp mod ∧
      (joinTexts hashList).splitOn 58 = hashList := by
  obtain ⟨hashList, modExp, mod, hblock, hitems, hlist⟩ := l.block_items block
  exact ⟨_, hashList, modExp, _, hblock,
    List.splitOn_intercalate 58 (fun text hmem => (hitems text hmem).2.1) (hlist hne)⟩

/-! Completeness of the store -/

/-- Under its id are the rows of the calls, the blocks numbered from zero, and
the report makes the calls. -/
structure StoredAs (db : Database) (id : ℕ) (calls : List FormatterCall) : Prop where
  header : db.mdfile.filter (fun row => row.fileid = id) = calls.filterMap (headerRow id)
  hashes : db.mdfilehash.filter (fun row => row.fileid = id) = calls.filterMap (hashRow id)
  blocks : db.mdfileblocks.filter (fun row => row.fileid = id) =
    blockRows id (joinNames l.blockHashList) 0 calls
  report : printReport db id = calls

/-- A run stores every file under an id of its own, which no earlier run has. -/
def SqlComplete (db : Database) (files : List InputFile) : Prop :=
  ∃ runs, l.mdencode files = some runs ∧ ∃ ids : List ℕ, ids.length = files.length ∧ ids.Nodup ∧
    (∀ id ∈ ids, id ∉ db.mdfilelist) ∧ ∀ (k : ℕ) (id : ℕ) (calls : List FormatterCall),
      ids[k]? = some id → runs[k]? = some calls →
        l.StoredAs (sqlStore db runs.flatten) id calls

section
variable {l} {db : Database} (signatures : List (List UInt8)) (file : InputFile)

theorem filterMap_headerRow (id : ℕ) :
    (l.fileCalls signatures file).filterMap (headerRow id) = [l.fileRow file id] := by
  have hrest : (l.fileHashCalls signatures ++ l.blockCalls file.content ++
      [FormatterCall.encodeEndFile]).filterMap (headerRow id) = [] := by
    apply List.filterMap_eq_nil_iff.mpr
    intro call hmem
    have hkind : call.isFileHash ∨ call.isBlock ∨ call = .encodeEndFile := by
      rcases List.mem_append.mp hmem with hmem | hmem
      · rcases List.mem_append.mp hmem with hmem | hmem
        · exact .inl (l.isFileHash_of_mem hmem).1
        · exact .inr (.inl (l.isBlock_of_mem hmem).1)
      · exact .inr (.inr (List.mem_singleton.mp hmem))
    rcases hkind with hkind | hkind | rfl
    · cases call <;> cases hkind
      rfl
    · cases call <;> cases hkind
      rfl
    · rfl
  rw [fileCalls, List.cons_append, List.cons_append, List.filterMap_cons, hrest]
  rfl

variable (hdb : db.Listed)
include hdb

theorem filter_mdfile : (l.storedFile signatures file db).mdfile.filter
    (fun row => row.fileid = db.maxFileid + 1) = [l.fileRow file (db.maxFileid + 1)] := by
  refine filter_fresh FileRow.fileid (fun row hmem heq => ?_) fun row hmem => ?_
  · exact db.next_notMem (heq ▸ hdb.mdfile row hmem)
  · rw [List.mem_singleton.mp hmem]
    rfl

theorem filter_mdfilehash : (l.storedFile signatures file db).mdfilehash.filter
    (fun row => row.fileid = db.maxFileid + 1) =
      (l.fileHashCalls signatures).filterMap (hashRow (db.maxFileid + 1)) :=
  filter_fresh FileHashRow.fileid
    (fun row hmem heq => db.next_notMem (heq ▸ hdb.mdfilehash row hmem))
    fun _ hmem => mem_filterMap_hashRow hmem

theorem filter_mdfileblocks : (l.storedFile signatures file db).mdfileblocks.filter
    (fun row => row.fileid = db.maxFileid + 1) =
      blockRows (db.maxFileid + 1) (joinNames l.blockHashList) 0 (l.blockCalls file.content) :=
  filter_fresh FileBlockRow.fileid
    (fun row hmem heq => db.next_notMem (heq ▸ hdb.mdfileblocks row hmem))
    fun _ hmem => mem_blockRows hmem

/-- The report replays the calls, except for name lists that are split. -/
theorem printReport_storedFile : printReport (l.storedFile signatures file db) (db.maxFileid + 1) =
    (l.fileRow file (db.maxFileid + 1)).call :: l.fileHashCalls signatures ++
      (blockRows (db.maxFileid + 1) (joinNames l.blockHashList) 0 (l.blockCalls file.content)).map
        FileBlockRow.call ++ [.encodeEndFile] := by
  have hname : ((([l.fileRow file (db.maxFileid + 1)].getLast?).map FileRow.filename).getD []) =
      file.fileName := rfl
  rw [printReport, filter_mdfile _ _ hdb, filter_mdfilehash _ _ hdb, filter_mdfileblocks _ _ hdb,
    map_call_hashRow fun call hmem => (l.isFileHash_of_mem hmem).1]
  rw [hname, if_neg file.fileName_ne]
  rfl

/-- Nothing but the first file of a run gets a new id. -/
theorem id_eq_of_storedAs {other : InputFile} {others : List (List UInt8)} {id : ℕ}
    (hid : id ∉ db.mdfilelist)
    (h : l.StoredAs (l.storedFile signatures file db) id (l.fileCalls others other)) :
    id = db.maxFileid + 1 := by
  have hrows := h.header
  rw [filterMap_headerRow] at hrows
  have hmem : l.fileRow other id ∈ (l.storedFile signatures file db).mdfile :=
    List.mem_of_mem_filter (hrows ▸ List.mem_singleton_self _)
  rcases List.mem_append.mp hmem with hmem | hmem
  · exact absurd (hdb.mdfile _ hmem) hid
  · exact congrArg FileRow.fileid (List.mem_singleton.mp hmem)

theorem storedAs_storedFile (hfile : l.fileHashList ≠ []) (hblock : l.blockHashList ≠ []) :
    l.StoredAs (l.storedFile signatures file db) (db.maxFileid + 1)
      (l.fileCalls signatures file) where
  header := by rw [filter_mdfile _ _ hdb, filterMap_headerRow]
  hashes := by
    rw [filter_mdfilehash _ _ hdb, ← filterMap_hashRow_filter _ (l.fileCalls signatures file),
      filter_isFileHash]
  blocks := by
    rw [filter_mdfileblocks _ _ hdb, ← blockRows_filter _ _ _ (l.fileCalls signatures file),
      filter_isBlock]
  report := by
    have hblocks : ∀ call ∈ l.blockCalls file.content, ∃ blockSize hashList modExp mod,
        call = .encodeBlock blockSize hashList modExp mod ∧
          (joinTexts hashList).splitOn 58 = hashList := by
      intro call hmem
      rw [blockCalls] at hmem
      split_ifs at hmem
      · obtain ⟨block, -, rfl⟩ := List.mem_map.mp hmem
        exact l.splitOn_blockOf hblock block
      · cases hmem
    have hheader : (l.fileRow file (db.maxFileid + 1)).call = l.headerCall file := by
      rw [FileRow.call, fileRow]
      dsimp only
      rw [splitOn_joinNames hfile, splitOn_joinNames hblock]
      rfl
    rw [printReport_storedFile _ _ hdb, map_call_blockRows hblocks, hheader]
    rfl

end

section
variable {l} {db : Database} {files : List InputFile}

/-- What is known of a run that stores every file. -/
theorem singleton_of_sqlComplete (hdb : db.Listed) (hne : files ≠ []) (h : l.SqlComplete db files) :
    ∃ file, files = [file] ∧ printReport
      (l.storedFile (signaturesAfter l.fileHashList [] file.content) file db) (db.maxFileid + 1) =
        l.fileCalls (signaturesAfter l.fileHashList [] file.content) file := by
  obtain ⟨runs, hruns, ids, hlen, hnodup, hnew, hstored⟩ := h
  obtain ⟨file, rest, rfl⟩ := List.exists_cons_of_ne_nil hne
  rw [l.sqlStore_run file db hruns] at hstored
  rw [mdencode_eq] at hruns
  obtain rfl := Option.some.inj hruns
  have hids : ∀ k id, ids[k]? = some id → ∃ other, (file :: rest)[k]? = some other ∧
      l.StoredAs (l.storedFile (signaturesAfter l.fileHashList [] file.content) file db) id
        (l.fileCalls (signaturesAfter l.fileHashList (contents ((file :: rest).take k))
          other.content) other) ∧ id = db.maxFileid + 1 := by
    intro k id hk
    obtain ⟨hk', -⟩ := List.getElem?_eq_some_iff.mp hk
    obtain ⟨other, hother⟩ : ∃ other, (file :: rest)[k]? = some other :=
      ⟨_, List.getElem?_eq_getElem (hlen ▸ hk')⟩
    have hcalls := l.getElem?_directoryCalls [] (file :: rest) k
    rw [hother, Option.map_some] at hcalls
    have hat := hstored k id _ hk hcalls
    exact ⟨other, hother, hat,
      id_eq_of_storedAs _ file hdb (hnew id (List.mem_of_getElem? hk)) hat⟩
  obtain ⟨id, others, rfl⟩ := List.exists_cons_of_length_eq_add_one hlen
  have hrest : rest = [] := by
    refine List.length_eq_zero_iff.mp (Nat.eq_zero_of_not_pos fun hpos => ?_)
    obtain ⟨second, others, rfl⟩ := List.exists_cons_of_length_pos
      (show 0 < others.length by simp only [List.length_cons] at hlen; omega)
    obtain ⟨-, -, -, hfirst⟩ := hids 0 id rfl
    obtain ⟨-, -, -, hsecond⟩ := hids 1 second rfl
    rw [hfirst, hsecond, List.nodup_cons] at hnodup
    exact hnodup.1 List.mem_cons_self
  subst hrest
  obtain ⟨other, hother, hat, rfl⟩ := hids 0 id rfl
  obtain rfl := Option.some.inj hother
  exact ⟨file, rfl, hat.report⟩

/-- One file, and both lists with a name in them: an empty list is replayed as
a list of an empty name. -/
theorem sqlComplete_iff (hdb : Stored db) (hne : files ≠ []) :
    l.SqlComplete db files ↔
      files.length = 1 ∧ l.fileHashList ≠ [] ∧ l.blockHashList ≠ [] := by
  constructor
  · intro h
    obtain ⟨file, rfl, hreport⟩ := singleton_of_sqlComplete hdb.listed hne h
    rw [printReport_storedFile _ _ hdb.listed, fileCalls, headerCall, FileRow.call,
      fileRow] at hreport
    simp only [List.cons_append, List.cons.injEq, FormatterCall.encodeFileHeader.injEq] at hreport
    have hnames : ∀ hashes : List HashContext,
        (joinNames hashes).splitOn 58 = hashNames hashes → hashes ≠ [] := by
      rintro hashes hsplit rfl
      exact absurd hsplit (by decide)
    exact ⟨rfl, hnames _ hreport.1.2.2.2.2.1, hnames _ hreport.1.2.2.2.2.2.1⟩
  · rintro ⟨hlen, hfile, hblock⟩
    obtain ⟨file, rfl⟩ := List.length_eq_one_iff.mp hlen
    refine ⟨_, l.mdencode_eq [file], [db.maxFileid + 1], rfl, List.nodup_singleton _, ?_, ?_⟩
    · intro id hmem
      rw [List.mem_singleton.mp hmem]
      exact db.next_notMem
    · intro k id calls hid hcalls
      rw [l.sqlStore_run file db (l.mdencode_eq [file])]
      cases k with
      | zero =>
        obtain rfl := Option.some.inj hid
        obtain rfl := Option.some.inj hcalls
        exact storedAs_storedFile _ file hdb.listed hfile hblock
      | succ k => cases hid

end

theorem sqlComplete_iff_one : (byteBlocks false).SqlComplete .empty [fileA] :=
  (sqlComplete_iff .empty (List.cons_ne_nil _ _)).mpr ⟨rfl, by decide, by decide⟩

/-- The second file of a directory is not stored. -/
theorem second_file_not_stored : ¬ ∀ (l : MdEncode) (db : Database) (files : List InputFile),
    Stored db → files ≠ [] → l.SqlComplete db files := by
  intro h
  obtain ⟨file, hone, -⟩ := singleton_of_sqlComplete Stored.empty.listed (List.cons_ne_nil _ _)
    (h (byteBlocks false) .empty [fileA, fileB] .empty (List.cons_ne_nil _ _))
  cases hone

end MdEncode

end Mdencode.Go
