import Mdencode.Go.MdEncodeALL

/-! The database of `mdFormatSQL.go`, written by the format object of `mdencode`
and replayed by `PrintReport` of `mdReportBIN.go`. A table is the list of its
rows in the order of insertion, with the columns the report makes calls of. -/

namespace Mdencode.Go

open Mdencode.Bytes Mdencode.Numerals

structure FileRow where
  fileid : ℕ
  filename : List UInt8
  filepath : List UInt8
  filesize : ℤ
  blocksize : ℤ
  modulusbitsize : ℤ
  filehashlist : List UInt8
  blockhashlist : List UInt8
  deriving DecidableEq

structure FileHashRow where
  fileid : ℕ
  hashname : List UInt8
  hashhex : List UInt8
  deriving DecidableEq

structure FileBlockRow where
  fileid : ℕ
  blocksize : ℕ
  blocknumber : ℕ
  hashname : List UInt8
  hashhex : List UInt8
  modexp : ℕ
  modremainder : List UInt8
  deriving DecidableEq

/-- `mdfilelist` holds the ids only. -/
structure Database where
  mdfilelist : List ℕ
  mdfile : List FileRow
  mdfilehash : List FileHashRow
  mdfileblocks : List FileBlockRow
  deriving DecidableEq

namespace Database

/-- The tables as they are created. -/
def empty : Database := ⟨[], [], [], []⟩

/-- `select max(fileid) from mdfilelist`. -/
def maxFileid (db : Database) : ℕ := db.mdfilelist.foldr max 0

/-- A row of `mdfilelist` under the next id. -/
def insertFile (db : Database) : Database :=
  { db with mdfilelist := db.mdfilelist ++ [db.maxFileid + 1] }

end Database

/-- The format object. `db` is what its transaction sees, and `committed` what
the file holds; `isOpen` is the connection. -/
structure MdFormatSQL where
  fileID : ℕ
  blockNumber : ℕ
  mdHashlist : List UInt8
  db : Database
  committed : Database
  isOpen : Bool

namespace MdFormatSQL

/-- `InitFile`: the tables are there, a transaction is begun, and the id of the
run is taken. -/
def initFile (db : Database) : MdFormatSQL where
  fileID := db.insertFile.maxFileid
  blockNumber := 0
  mdHashlist := []
  db := db.insertFile
  committed := db
  isOpen := true

/-- A statement, and `checkError`: on a closed connection the process exits and
leaves what was committed. -/
def exec (md : MdFormatSQL) (statement : Database → Database) : Except Database MdFormatSQL :=
  if md.isOpen then .ok { md with db := statement md.db } else .error md.committed

def encodeFileHeader (md : MdFormatSQL) (fileName filePath : List UInt8) (fileSize blockSize : ℤ)
    (filehashList blockhashList : List (List UInt8)) (modulusSize : ℤ) :
    Except Database MdFormatSQL :=
  let fileListString := joinTexts filehashList
  let hashListString := joinTexts blockhashList
  let row : FileRow := ⟨md.fileID, fileName, filePath, fileSize, blockSize, modulusSize,
    fileListString, hashListString⟩
  { md with mdHashlist := hashListString }.exec fun db => { db with mdfile := db.mdfile ++ [row] }

def encodeFileHash (md : MdFormatSQL) (hashName hashBytes : List UInt8) :
    Except Database MdFormatSQL :=
  let row : FileHashRow := ⟨md.fileID, hashName, hashBytes⟩
  md.exec fun db => { db with mdfilehash := db.mdfilehash ++ [row] }

def encodeBlock (md : MdFormatSQL) (blockSize : ℕ) (hashList : List (List UInt8)) (modExp : ℕ)
    (mod : List UInt8) : Except Database MdFormatSQL :=
  let row : FileBlockRow := ⟨md.fileID, blockSize, md.blockNumber, md.mdHashlist,
    joinTexts hashList, modExp, mod⟩
  (md.exec fun db => { db with mdfileblocks := db.mdfileblocks ++ [row] }).map fun md =>
    { md with blockNumber := md.blockNumber + 1 }

/-- The transaction is ended, and the connection closed. -/
def encodeEndFile (md : MdFormatSQL) : Except Database MdFormatSQL :=
  (md.exec id).map fun md => { md with committed := md.db, isOpen := false }

def encode (md : MdFormatSQL) : FormatterCall → Except Database MdFormatSQL
  | .encodeFileHeader fileName filePath fileSize blockSize filehashList blockhashList modulusSize =>
    md.encodeFileHeader fileName filePath fileSize blockSize filehashList blockhashList modulusSize
  | .encodeFileHash hashName hashBytes => md.encodeFileHash hashName hashBytes
  | .encodeBlock blockSize hashList modExp mod => md.encodeBlock blockSize hashList modExp mod
  | .encodeEndFile => md.encodeEndFile

end MdFormatSQL

/-- What the file holds when the process is over. -/
def committedBy : Except Database MdFormatSQL → Database
  | .ok md => md.committed
  | .error committed => committed

def sqlStore (db : Database) (calls : List FormatterCall) : Database :=
  committedBy (calls.foldlM MdFormatSQL.encode (MdFormatSQL.initFile db))

/-! The report makes a call of every row; numbers come back as they were. -/

def FileRow.call (row : FileRow) : FormatterCall :=
  .encodeFileHeader row.filename row.filepath row.filesize row.blocksize
    (row.filehashlist.splitOn 58) (row.blockhashlist.splitOn 58) row.modulusbitsize

def FileHashRow.call (row : FileHashRow) : FormatterCall :=
  .encodeFileHash row.hashname row.hashhex

def FileBlockRow.call (row : FileBlockRow) : FormatterCall :=
  .encodeBlock row.blocksize (row.hashhex.splitOn 58) row.modexp row.modremainder

/-- The calls of `PrintReport` for an id. `filename` is that of the last header. -/
def printReport (db : Database) (fileid : ℕ) : List FormatterCall :=
  let headers := db.mdfile.filter fun row => row.fileid = fileid
  let hashes := db.mdfilehash.filter fun row => row.fileid = fileid
  let blocks := db.mdfileblocks.filter fun row => row.fileid = fileid
  let filename := (headers.getLast?.map FileRow.filename).getD []
  headers.map FileRow.call ++ hashes.map FileHashRow.call ++ blocks.map FileBlockRow.call ++
    if filename = [] then [] else [.encodeEndFile]

/-- The databases that runs leave behind. -/
inductive Stored : Database → Prop
  | empty : Stored .empty
  | run {db : Database} (h : Stored db) (calls : List FormatterCall) : Stored (sqlStore db calls)

/-! Every row has an id that is on the list -/

namespace Database

structure Listed (db : Database) : Prop where
  mdfile : ∀ row ∈ db.mdfile, row.fileid ∈ db.mdfilelist
  mdfilehash : ∀ row ∈ db.mdfilehash, row.fileid ∈ db.mdfilelist
  mdfileblocks : ∀ row ∈ db.mdfileblocks, row.fileid ∈ db.mdfilelist

variable {db : Database}

theorem le_maxFileid {id : ℕ} (h : id ∈ db.mdfilelist) : id ≤ db.maxFileid :=
  List.le_max_of_le h le_rfl

theorem maxFileid_insertFile (db : Database) : db.insertFile.maxFileid = db.maxFileid + 1 := by
  have hmax : ∀ ids : List ℕ, ∀ top, ids.foldr max 0 < top → ids.foldr max top = top := by
    intro ids top
    induction ids with
    | nil => intro _; rfl
    | cons first rest ih =>
      intro h
      rw [List.foldr_cons] at h ⊢
      rw [ih ((le_max_right _ _).trans_lt h), max_eq_right ((le_max_left _ _).trans h.le)]
  rw [maxFileid, insertFile, List.foldr_append]
  exact (congrArg (List.foldr max · db.mdfilelist) (Nat.max_zero _)).trans
    (hmax db.mdfilelist _ (Nat.lt_succ_self _))

/-- The id of a run is new. -/
theorem next_notMem (db : Database) : db.maxFileid + 1 ∉ db.mdfilelist :=
  fun h => absurd (le_maxFileid h) (by omega)

theorem Listed.insertFile (h : db.Listed) : db.insertFile.Listed where
  mdfile row hmem := List.mem_append_left _ (h.mdfile row hmem)
  mdfilehash row hmem := List.mem_append_left _ (h.mdfilehash row hmem)
  mdfileblocks row hmem := List.mem_append_left _ (h.mdfileblocks row hmem)

end Database

/-! One statement -/

namespace MdFormatSQL

/-- The object behind a call on an open connection. -/
def next (md : MdFormatSQL) : FormatterCall → MdFormatSQL
  | .encodeFileHeader fileName filePath fileSize blockSize filehashList blockhashList modulusSize =>
    { md with
      mdHashlist := joinTexts blockhashList
      db := { md.db with mdfile := md.db.mdfile ++ [⟨md.fileID, fileName, filePath, fileSize,
        blockSize, modulusSize, joinTexts filehashList, joinTexts blockhashList⟩] } }
  | .encodeFileHash hashName hashBytes =>
    { md with db := { md.db with
      mdfilehash := md.db.mdfilehash ++ [⟨md.fileID, hashName, hashBytes⟩] } }
  | .encodeBlock blockSize hashList modExp mod =>
    { md with
      blockNumber := md.blockNumber + 1
      db := { md.db with mdfileblocks := md.db.mdfileblocks ++ [⟨md.fileID, blockSize,
        md.blockNumber, md.mdHashlist, joinTexts hashList, modExp, mod⟩] } }
  | .encodeEndFile => { md with committed := md.db, isOpen := false }

variable {md : MdFormatSQL}

theorem exec_of_open (h : md.isOpen = true) (statement : Database → Database) :
    md.exec statement = .ok { md with db := statement md.db } := if_pos h

theorem exec_of_closed (h : md.isOpen = false) (statement : Database → Database) :
    md.exec statement = .error md.committed := if_neg (by simp [h])

theorem encode_of_open (h : md.isOpen = true) (call : FormatterCall) :
    md.encode call = .ok (md.next call) := by
  cases call with
  | encodeFileHeader => rw [encode, encodeFileHeader]; refine exec_of_open ?_ _; exact h
  | encodeFileHash => rw [encode, encodeFileHash, exec_of_open h]; rfl
  | encodeBlock => rw [encode, encodeBlock, exec_of_open h]; rfl
  | encodeEndFile => rw [encode, encodeEndFile, exec_of_open h]; rfl

/-- A closed connection rejects every call. -/
theorem encode_of_closed (h : md.isOpen = false) (call : FormatterCall) :
    md.encode call = .error md.committed := by
  cases call with
  | encodeFileHeader => rw [encode, encodeFileHeader]; refine exec_of_closed ?_ _; exact h
  | encodeFileHash => rw [encode, encodeFileHash, exec_of_closed h]
  | encodeBlock => rw [encode, encodeBlock, exec_of_closed h]; rfl
  | encodeEndFile => rw [encode, encodeEndFile, exec_of_closed h]; rfl

/-- All rows are listed, and the id of the run is. -/
structure Sound (md : MdFormatSQL) : Prop where
  db : md.db.Listed
  committed : md.committed.Listed
  fileID : md.fileID ∈ md.db.mdfilelist

theorem Sound.initFile {db : Database} (h : db.Listed) : (initFile db).Sound where
  db := h.insertFile
  committed := h
  fileID := by
    rw [MdFormatSQL.initFile, db.maxFileid_insertFile]
    exact List.mem_append_right _ (List.mem_singleton_self _)

theorem Sound.next (h : md.Sound) (call : FormatterCall) : (md.next call).Sound := by
  have happend {α : Type} {id : α → ℕ} {rows : List α} {row : α}
      (hrows : ∀ row ∈ rows, id row ∈ md.db.mdfilelist) (hrow : id row = md.fileID) :
      ∀ other ∈ rows ++ [row], id other ∈ md.db.mdfilelist := by
    intro other hmem
    rcases List.mem_append.mp hmem with hmem | hmem
    · exact hrows other hmem
    · rw [List.mem_singleton.mp hmem, hrow]
      exact h.fileID
  cases call with
  | encodeFileHeader =>
    exact ⟨⟨happend h.db.mdfile rfl, h.db.mdfilehash, h.db.mdfileblocks⟩, h.committed, h.fileID⟩
  | encodeFileHash =>
    exact ⟨⟨h.db.mdfile, happend h.db.mdfilehash rfl, h.db.mdfileblocks⟩, h.committed, h.fileID⟩
  | encodeBlock =>
    exact ⟨⟨h.db.mdfile, h.db.mdfilehash, happend h.db.mdfileblocks rfl⟩, h.committed, h.fileID⟩
  | encodeEndFile => exact ⟨h.db, h.db, h.fileID⟩

theorem Sound.foldlM (h : md.Sound) (calls : List FormatterCall) :
    (committedBy (calls.foldlM encode md)).Listed := by
  induction calls generalizing md with
  | nil => exact h.committed
  | cons call calls ih =>
    rw [List.foldlM_cons]
    cases hopen : md.isOpen with
    | true =>
      rw [encode_of_open hopen]
      exact ih (h.next call)
    | false =>
      rw [encode_of_closed hopen]
      exact h.committed

end MdFormatSQL

/-- No run leaves a row behind whose id is not listed. -/
theorem Stored.listed {db : Database} (h : Stored db) : db.Listed := by
  induction h with
  | empty => exact ⟨fun _ h => (List.not_mem_nil h).elim, fun _ h => (List.not_mem_nil h).elim,
      fun _ h => (List.not_mem_nil h).elim⟩
  | run _ calls ih => exact (MdFormatSQL.Sound.initFile ih).foldlM calls

end Mdencode.Go
