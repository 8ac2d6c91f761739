import Mdencode.Lib.Json
import Mdencode.Go.OrderIndependence
import Mdencode.Go.RunTexts

/-! The JSON of `mdFormatJson.go`. What `json.Marshal` and the clock give are
parameters; everything between the records is printed piece by piece. -/

namespace Mdencode.Go

open Mdencode.Bytes Mdencode.Numerals Mdencode.Unicode Mdencode.Json

/-! The records -/

structure JsonHeader where
  fileName : List UInt8
  filePath : List UInt8
  filesize : ℤ
  blocksize : ℤ
  modsize : ℤ
  format : ℤ
  fileHashlist : List UInt8
  blockHashlist : List UInt8
  version : List UInt8
  time : List UInt8
  deriving DecidableEq, Inhabited

structure JsonFile where
  hashname : List UInt8
  filehashlist : List UInt8
  deriving DecidableEq

structure JsonBlock where
  blocksize : List UInt8
  hashlist : List UInt8
  modexp : List UInt8
  mod : List UInt8
  deriving DecidableEq

/-- The three records; which one it is stands in the field `Mdtype`. -/
inductive JsonRecord
  | header (mdj : JsonHeader)
  | file (mdj : JsonFile)
  | block (mdj : JsonBlock)
  deriving DecidableEq, Inhabited

/-! The objects of the records, under the names of the Go fields -/

def JsonHeader.members (mdj : JsonHeader) : List (List UInt8 × Value) :=
  [(ascii "Mdtype", .string (ascii "MDheader")),
    (ascii "FileName", .string mdj.fileName),
    (ascii "FilePath", .string mdj.filePath),
    (ascii "Filesize", .number (intText mdj.filesize)),
    (ascii "Blocksize", .number (intText mdj.blocksize)),
    (ascii "Modsize", .number (intText mdj.modsize)),
    (ascii "Format", .number (intText mdj.format)),
    (ascii "FileHashlist", .string mdj.fileHashlist),
    (ascii "BlockHashlist", .string mdj.blockHashlist),
    (ascii "Version", .string mdj.version),
    (ascii "Time", .string mdj.time)]

def JsonFile.members (mdj : JsonFile) : List (List UInt8 × Value) :=
  [(ascii "Mdtype", .string (ascii "File")),
    (ascii "Hashname", .string mdj.hashname),
    (ascii "Filehashlist", .string mdj.filehashlist)]

def JsonBlock.members (mdj : JsonBlock) : List (List UInt8 × Value) :=
  [(ascii "Mdtype", .string (ascii "Block")),
    (ascii "Blocksize", .string mdj.blocksize),
    (ascii "Hashlist", .string mdj.hashlist),
    (ascii "Modexp", .string mdj.modexp),
    (ascii "Mod", .string mdj.mod)]

namespace JsonRecord

def members : JsonRecord → List (List UInt8 × Value)
  | header mdj => mdj.members
  | file mdj => mdj.members
  | block mdj => mdj.members

def toValue (r : JsonRecord) : Value := .object r.members

def texts : JsonRecord → List (List UInt8)
  | header mdj => [mdj.fileName, mdj.filePath, mdj.fileHashlist, mdj.blockHashlist, mdj.version,
    mdj.time]
  | file mdj => [mdj.hashname, mdj.filehashlist]
  | block mdj => [mdj.blocksize, mdj.hashlist, mdj.modexp, mdj.mod]

/-- A record that JSON can hold as it is. -/
def IsUtf8 (r : JsonRecord) : Prop := ∀ text ∈ r.texts, Utf8 text

end JsonRecord

/-! Reading a record back, by the names of its fields -/

def readText (members : List (List UInt8 × Value)) (name : String) : Option (List UInt8) :=
  match members.lookup (ascii name) with
  | some (.string text) => some text
  | _ => none

def readInt (members : List (List UInt8 × Value)) (name : String) : Option ℤ :=
  match members.lookup (ascii name) with
  | some (.number text) => some (ofIntText text)
  | _ => none

def readHeader (members : List (List UInt8 × Value)) : Option JsonHeader := do
  let fileName ← readText members "FileName"
  let filePath ← readText members "FilePath"
  let filesize ← readInt members "Filesize"
  let blocksize ← readInt members "Blocksize"
  let modsize ← readInt members "Modsize"
  let format ← readInt members "Format"
  let fileHashlist ← readText members "FileHashlist"
  let blockHashlist ← readText members "BlockHashlist"
  let version ← readText members "Version"
  let time ← readText members "Time"
  return ⟨fileName, filePath, filesize, blocksize, modsize, format, fileHashlist, blockHashlist,
    version, time⟩

def readFile (members : List (List UInt8 × Value)) : Option JsonFile := do
  let hashname ← readText members "Hashname"
  let filehashlist ← readText members "Filehashlist"
  return ⟨hashname, filehashlist⟩

def readBlock (members : List (List UInt8 × Value)) : Option JsonBlock := do
  let blocksize ← readText members "Blocksize"
  let hashlist ← readText members "Hashlist"
  let modexp ← readText members "Modexp"
  let mod ← readText members "Mod"
  return ⟨blocksize, hashlist, modexp, mod⟩

def readRecord : Value → Option JsonRecord
  | .object members =>
    match readText members "Mdtype" with
    | some mdtype =>
      if mdtype = ascii "MDheader" then (readHeader members).map .header
      else if mdtype = ascii "File" then (readFile members).map .file
      else if mdtype = ascii "Block" then (readBlock members).map .block
      else none
    | none => none
  | _ => none

/-- The records of one file. -/
def readRecords : Value → Option (List JsonRecord)
  | .array items => items.mapM readRecord
  | _ => none

/-- The records of every file. -/
def readFiles : Value → Option (List (List JsonRecord))
  | .object members => members.mapM fun member => readRecords member.2
  | _ => none

theorem readHeader_members (mdj : JsonHeader) : readHeader mdj.members = some mdj := by
  have hread : readHeader mdj.members = some { mdj with
      filesize := ofIntText (intText mdj.filesize)
      blocksize := ofIntText (intText mdj.blocksize)
      modsize := ofIntText (intText mdj.modsize)
      format := ofIntText (intText mdj.format) } := rfl
  simpa [ofIntText_intText] using hread

theorem readRecord_toValue (r : JsonRecord) : readRecord r.toValue = some r := by
  cases r with
  | header mdj =>
    have hread : readRecord (JsonRecord.header mdj).toValue =
        (readHeader mdj.members).map .header := rfl
    rw [hread, readHeader_members, Option.map_some]
  | file mdj => rfl
  | block mdj => rfl

/-- The value of the records of one file. -/
def recordsValue (records : List JsonRecord) : Value := .array (records.map JsonRecord.toValue)

theorem readRecords_recordsValue (records : List JsonRecord) :
    readRecords (recordsValue records) = some records := by
  rw [recordsValue, readRecords]
  induction records with
  | nil => rfl
  | cons r records ih => simp [readRecord_toValue, ih]

/-! The format object -/

/-- The counters of the format object, and the text it has printed. -/
structure MdFormatJson where
  blockCount : ℕ
  fileCount : ℕ
  text : List UInt8

namespace MdFormatJson

def init : MdFormatJson := ⟨0, 0, []⟩

def print (md : MdFormatJson) (line : List UInt8) : MdFormatJson :=
  { md with text := md.text ++ line }

def println (md : MdFormatJson) (line : List UInt8) : MdFormatJson :=
  (md.print line).print [10]

def mdVersion : List UInt8 := ascii "1.0"

/-- The number of the format. -/
def encodingFormat : ℤ := 4000

/-- What the record of a header holds, at the time of the call. -/
def headerRecord (time fileName filePath : List UInt8) (fileSize blockSize : ℤ)
    (filehashList blockhashList : List (List UInt8)) (modulusSize : ℤ) : JsonHeader where
  fileName
  filePath
  filesize := fileSize
  blocksize := blockSize
  modsize := modulusSize
  format := encodingFormat
  fileHashlist := joinTexts filehashList
  blockHashlist := joinTexts blockhashList
  version := mdVersion
  time

def fileRecord (hashName hashBytes : List UInt8) : JsonFile := ⟨hashName, hashBytes⟩

def blockRecord (blockSize : ℕ) (hashList : List (List UInt8)) (modExp : ℕ) (mod : List UInt8) :
    JsonBlock where
  blocksize := decimal blockSize
  hashlist := joinTexts hashList
  modexp := decimal modExp
  mod

section
variable (marshal : JsonRecord → List UInt8)

def encodeFileHeader (md : MdFormatJson) (time fileName filePath : List UInt8)
    (fileSize blockSize : ℤ) (filehashList blockhashList : List (List UInt8)) (modulusSize : ℤ) :
    MdFormatJson :=
  let md := { md with blockCount := 0 }
  let mdj := headerRecord time fileName filePath fileSize blockSize filehashList blockhashList
    modulusSize
  -- the bracket before the first file is commented out
  let md := if 0 < md.fileCount then md.print (ascii ",\n") else md
  let md := md.print (ascii "\x7b\"mdfile")
  let md := md.print (decimal md.fileCount)
  let md := md.print (ascii "\": [")
  let md := md.print (marshal (.header mdj))
  { md with fileCount := md.fileCount + 1 }

def encodeFileHash (md : MdFormatJson) (hashName hashBytes : List UInt8) : MdFormatJson :=
  let md := md.println (ascii ",")
  md.print (marshal (.file (fileRecord hashName hashBytes)))

def encodeBlock (md : MdFormatJson) (blockSize : ℕ) (hashList : List (List UInt8)) (modExp : ℕ)
    (mod : List UInt8) : MdFormatJson :=
  let md := md.println (ascii ",")
  let md := md.print (marshal (.block (blockRecord blockSize hashList modExp mod)))
  { md with blockCount := md.blockCount + 1 }

def encodeEndFile (md : MdFormatJson) : MdFormatJson := md.print (ascii "]\x7d")

/-- One call; `now` tells the time for the header of each file. -/
def encode (now : ℕ → List UInt8) (md : MdFormatJson) : FormatterCall → MdFormatJson
  | .encodeFileHeader fileName filePath fileSize blockSize filehashList blockhashList modulusSize =>
    md.encodeFileHeader marshal (now md.fileCount) fileName filePath fileSize blockSize filehashList
      blockhashList modulusSize
  | .encodeFileHash hashName hashBytes => md.encodeFileHash marshal hashName hashBytes
  | .encodeBlock blockSize hashList modExp mod =>
    md.encodeBlock marshal blockSize hashList modExp mod
  | .encodeEndFile => md.encodeEndFile

end

/-- The record of a call. -/
def record (time : List UInt8) : FormatterCall → Option JsonRecord
  | .encodeFileHeader fileName filePath fileSize blockSize filehashList blockhashList modulusSize =>
    some (.header (headerRecord time fileName filePath fileSize blockSize filehashList blockhashList
      modulusSize))
  | .encodeFileHash hashName hashBytes => some (.file (fileRecord hashName hashBytes))
  | .encodeBlock blockSize hashList modExp mod =>
    some (.block (blockRecord blockSize hashList modExp mod))
  | .encodeEndFile => none

/-- The records of the files of a run, counted from `k`. -/
def recordsFrom (now : ℕ → List UInt8) : ℕ → List (List FormatterCall) → List (List JsonRecord)
  | _, [] => []
  | k, calls :: runs => calls.filterMap (record (now k)) :: recordsFrom now (k + 1) runs

theorem utf8_of_isWord {text : List UInt8} (h : IsWord text) : Utf8 text := by
  refine utf8_of_isAscii (List.all_eq_true.mpr fun b hmem => ?_)
  have hword := h b hmem
  simp only [isWordByte, Bool.and_eq_true, decide_eq_true_eq] at hword ⊢
  omega

/-! What the calls print -/

section
variable (marshal : JsonRecord → List UInt8) (now : ℕ → List UInt8)

def fileText (k : ℕ) (records : List JsonRecord) : List UInt8 :=
  ascii "\x7b\"mdfile" ++ decimal k ++ ascii "\": [" ++
    (ascii ",\n").intercalate (records.map marshal) ++ ascii "]\x7d"

def fileTexts : ℕ → List (List JsonRecord) → List (List UInt8)
  | _, [] => []
  | k, records :: files => fileText marshal k records :: fileTexts (k + 1) files

/-- Every record behind the header stands behind a comma. -/
theorem foldl_more {calls : List FormatterCall}
    (h : ∀ call ∈ calls, call.isFileHash = true ∨ call.isBlock = true) (time : List UInt8)
    (md : MdFormatJson) :
    (calls.foldl (encode marshal now) md).text = md.text ++
        (calls.filterMap (record time)).flatMap (fun r => ascii ",\n" ++ marshal r) ∧
      (calls.foldl (encode marshal now) md).fileCount = md.fileCount := by
  induction calls generalizing md with
  | nil => simp
  | cons call calls ih =>
    have hcall := h call List.mem_cons_self
    obtain ⟨htext, hcount⟩ := ih (fun other hmem => h other (List.mem_cons_of_mem _ hmem))
      (encode marshal now md call)
    have hsep : ascii "," ++ [10] = ascii ",\n" := by rfl
    cases call with
    | encodeFileHash hashName hashBytes =>
      rw [List.foldl_cons, htext, hcount]
      simp [encode, encodeFileHash, println, print, record, ← hsep]
    | encodeBlock blockSize hashList modExp mod =>
      rw [List.foldl_cons, htext, hcount]
      simp [encode, encodeBlock, println, print, record, ← hsep]
    | _ => simp [FormatterCall.isFileHash, FormatterCall.isBlock] at hcall

theorem foldl_fileCalls (l : MdEncode) (signatures : List (List UInt8)) (file : InputFile)
    (md : MdFormatJson) :
    let md' := (l.fileCalls signatures file).foldl (encode marshal now) md
    md'.text = md.text ++ (if 0 < md.fileCount then ascii ",\n" else []) ++
        fileText marshal md.fileCount
          ((l.fileCalls signatures file).filterMap (record (now md.fileCount))) ∧
      md'.fileCount = md.fileCount + 1 := by
  dsimp only
  have hkinds : ∀ call ∈ l.fileHashCalls signatures ++ l.blockCalls file.content,
      call.isFileHash = true ∨ call.isBlock = true := by
    intro call hmem
    rcases List.mem_append.mp hmem with hmem | hmem
    · exact .inl (l.isFileHash_of_mem hmem).1
    · exact .inr (l.isBlock_of_mem hmem).1
  obtain ⟨htext, hcount⟩ := foldl_more marshal now hkinds (now md.fileCount)
    (encode marshal now md (l.headerCall file))
  rw [MdEncode.fileCalls, List.cons_append, List.cons_append, List.foldl_cons, List.foldl_append,
    List.foldl_cons, List.foldl_nil, encode, encodeEndFile, print, htext, hcount]
  refine ⟨?_, ?_⟩
  · simp only [fileText, List.filterMap_cons, List.filterMap_append, List.filterMap_nil, record,
      MdEncode.headerCall, List.map_cons, Separated.intercalate_cons, List.flatMap_map]
    simp only [encode, encodeFileHeader, print]
    split_ifs <;> simp
  · simp only [MdEncode.headerCall, encode, encodeFileHeader, print]
    split_ifs <;> rfl

theorem foldl_directoryCalls (l : MdEncode) (written : List UInt8) (files : List InputFile)
    {md : MdFormatJson} (hpos : 0 < md.fileCount) :
    ((l.directoryCalls written files).flatten.foldl (encode marshal now) md).text = md.text ++
      (fileTexts marshal md.fileCount (recordsFrom now md.fileCount
        (l.directoryCalls written files))).flatMap (ascii ",\n" ++ ·) := by
  induction files generalizing written md with
  | nil => simp [MdEncode.directoryCalls, recordsFrom, fileTexts]
  | cons file files ih =>
    obtain ⟨htext, hcount⟩ := foldl_fileCalls marshal now l
      (signaturesAfter l.fileHashList written file.content) file md
    rw [MdEncode.directoryCalls, List.flatten_cons, List.foldl_append, ih _ (by omega), htext,
      hcount, if_pos hpos, recordsFrom, fileTexts, List.flatMap_cons]
    simp

/-- The texts of the files, with a comma between two of them and nothing around. -/
theorem text_run (l : MdEncode) (written : List UInt8) (files : List InputFile) :
    ((l.directoryCalls written files).flatten.foldl (encode marshal now) init).text =
      (ascii ",\n").intercalate
        (fileTexts marshal 0 (recordsFrom now 0 (l.directoryCalls written files))) := by
  cases files with
  | nil => rfl
  | cons file files =>
    obtain ⟨htext, hcount⟩ := foldl_fileCalls marshal now l
      (signaturesAfter l.fileHashList written file.content) file init
    rw [MdEncode.directoryCalls, List.flatten_cons, List.foldl_append,
      foldl_directoryCalls marshal now l _ files (by omega), htext, hcount, recordsFrom, fileTexts,
      Separated.intercalate_cons]
    rfl

/-- The text of one file is JSON, as soon as those of its records are. -/
theorem isJson_fileText {marshal : JsonRecord → List UInt8} {records : List JsonRecord}
    {value : JsonRecord → JsonRecord}
    (h : ∀ r ∈ records, IsJson (marshal r) (value r).toValue) (k : ℕ) :
    IsJson (fileText marshal k records)
      (.object [(ascii "mdfile" ++ decimal k, recordsValue (records.map value))]) := by
  have hopen : run .idle (ascii "\x7b\"mdfile") =
      some ([.lbrace], .string ((ascii "mdfile").map .byte)) := by decide
  have hdigits : ∀ c ∈ decimal k, c ≠ 34 ∧ c ≠ 92 ∧ 32 ≤ c.toNat := by
    intro c hmem
    have hbounds := decimal_bounds hmem
    refine ⟨?_, ?_, by omega⟩ <;> rintro rfl <;> revert hbounds <;> decide
  have hname (parts : List StringPart) : run (.string parts) (ascii "\": [") =
      some ([.string (decodeParts parts), .colon, .lbracket], .idle) := by
    rfl
  have hitems : run .idle ((ascii ",\n").intercalate (records.map marshal) ++ [93]) =
      some (itemTokens (records.map fun r => (value r).toValue), .idle) :=
    run_items (by rfl) fun r hmem => (h r hmem).run_object
  have hclose : run .idle [125] = some ([.rbrace], .idle) := by decide
  have hsplit : fileText marshal k records = ascii "\x7b\"mdfile" ++ (decimal k ++
      (ascii "\": [" ++ (((ascii ",\n").intercalate (records.map marshal) ++ [93]) ++ [125]))) := by
    simp [fileText]
    rfl
  constructor
  · have htexts : Utf8 ((ascii ",\n").intercalate (records.map marshal)) := by
      apply (utf8_of_isAscii (by decide)).intercalate
      intro text hmem
      obtain ⟨r, hr, rfl⟩ := List.mem_map.mp hmem
      exact (h r hr).1
    rw [fileText]
    exact ((((utf8_of_isAscii (by decide)).append (utf8_of_isWord (isWord_decimal k))).append
      (utf8_of_isAscii (by decide))).append htexts).append (utf8_of_isAscii (by decide))
  · have hrun : run .idle (fileText marshal k records) = some ((Value.object
        [(ascii "mdfile" ++ decimal k, recordsValue (records.map value))]).tokens, .idle) := by
      rw [hsplit, run_append, hopen]
      dsimp only [Option.bind_some]
      rw [run_append, run_string hdigits]
      dsimp only [Option.bind_some]
      rw [run_append, hname]
      dsimp only [Option.bind_some]
      rw [run_append, hitems]
      dsimp only [Option.bind_some]
      rw [hclose, ← List.map_append, decodeParts_map_byte]
      simp [Value.tokens, memberTokens, moreMemberTokens, recordsValue, Function.comp_def]
    rw [lex, hrun]
    simp [finish]

end

/-! Reading the text -/

/-- What a run prints. -/
def runText (marshal : JsonRecord → List UInt8) (now : ℕ → List UInt8)
    (runs : List (List FormatterCall)) : List UInt8 :=
  (runs.flatten.foldl (encode marshal now) init).text

/-- The text is JSON from which the records of every file are read back. -/
def ReadsBack (text : List UInt8) (files : List (List JsonRecord)) : Prop :=
  ∃ v, IsJson text v ∧ readFiles v = some files

/-- JSON text for a record. Texts that are not in UTF-8 are coerced to it. -/
def Marshals (text : List UInt8) (r : JsonRecord) : Prop :=
  ∃ r' : JsonRecord, r'.IsUtf8 ∧ IsJson text r'.toValue ∧ (r.IsUtf8 → r' = r)

theorem readsBack_fileText_iff {marshal : JsonRecord → List UInt8} {records : List JsonRecord}
    (h : ∀ r ∈ records, Marshals (marshal r) r) (k : ℕ) :
    ReadsBack (fileText marshal k records) [records] ↔ ∀ r ∈ records, r.IsUtf8 := by
  choose! value hutf8 hjson hsame using h
  have hfile := isJson_fileText hjson k
  have hread :
      readFiles (.object [(ascii "mdfile" ++ decimal k, recordsValue (records.map value))]) =
      some [records.map value] := by
    simp [readFiles, readRecords_recordsValue]
  have hfixed : records.map value = records ↔ ∀ r ∈ records, value r = r := by
    have hinj : records.map value = records.map id ↔ ∀ r ∈ records, value r = id r :=
      List.map_inj_left
    rwa [List.map_id] at hinj
  constructor
  · rintro ⟨v, hv, hfiles⟩ r hmem
    obtain rfl := hv.unique hfile
    have hvalue :=
      hfixed.mp (Option.some.inj (List.singleton_inj.mp (by simpa [hread] using hfiles)))
    exact hvalue r hmem ▸ hutf8 r hmem
  · intro hall
    refine ⟨_, hfile, ?_⟩
    rw [hread, hfixed.mpr fun r hmem => hsame r hmem (hall r hmem)]

/-- A comma behind the first file is one too many. -/
theorem not_readsBack_append {marshal : JsonRecord → List UInt8} {records : List JsonRecord}
    (h : ∀ r ∈ records, Marshals (marshal r) r) (k : ℕ) (more : List UInt8)
    (files : List (List JsonRecord)) :
    ¬ ReadsBack (fileText marshal k records ++ ascii ",\n" ++ more) files := by
  choose! value hutf8 hjson hsame using h
  rintro ⟨v, hv, -⟩
  have hfile := (isJson_fileText hjson k).run_object
  have hcomma : run .idle (fileText marshal k records ++ ascii ",\n") =
      some ((Value.object
        [(ascii "mdfile" ++ decimal k, recordsValue (records.map value))]).tokens ++
        [.comma], .idle) := by
    rw [run_append, hfile]
    rfl
  exact not_isJson_of_more hcomma more v hv

/-! The records of a run -/

section
variable {l : MdEncode} {time : List UInt8}

theorem isUtf8_fileHash {signatures : List (List UInt8)} {call : FormatterCall}
    (h : call ∈ l.fileHashCalls signatures) {r : JsonRecord} (hr : record time call = some r) :
    r.IsUtf8 := by
  obtain ⟨hashName, hashBytes, rfl, hname, hbytes⟩ := MdEncode.fileHash_words h
  obtain rfl := Option.some.inj hr
  simp [JsonRecord.IsUtf8, JsonRecord.texts, fileRecord, utf8_of_isWord hname,
    utf8_of_isWord hbytes]

theorem isUtf8_block {content : List UInt8} {call : FormatterCall} (h : call ∈ l.blockCalls content)
    {r : JsonRecord} (hr : record time call = some r) : r.IsUtf8 := by
  rw [MdEncode.blockCalls] at h
  split_ifs at h
  · obtain ⟨block, -, rfl⟩ := List.mem_map.mp h
    obtain ⟨hashList, modExp, mod, hblock, hitems, -⟩ := l.block_items block
    have hlist := utf8_of_isWord (isWord_joinTexts fun text hmem => (hitems text hmem).1)
    have hdecimal (n : ℕ) := utf8_of_isWord (isWord_decimal n)
    rw [hblock] at hr
    obtain rfl := Option.some.inj hr
    simp [JsonRecord.IsUtf8, JsonRecord.texts, blockRecord, hdecimal, hlist]
  · cases h

/-- Names of files are the only texts of a run that need not be in UTF-8. -/
theorem isUtf8_records_iff (htime : Utf8 time) (signatures : List (List UInt8)) (file : InputFile) :
    (∀ r ∈ (l.fileCalls signatures file).filterMap (record time), r.IsUtf8) ↔
      Utf8 file.fileName ∧ Utf8 file.filePath := by
  have hheader : record time (l.headerCall file) = some (.header (headerRecord time file.fileName
      file.filePath file.content.length l.blocksize (hashNames l.fileHashList)
      (hashNames l.blockHashList) l.bitsize)) := rfl
  constructor
  · intro h
    have hrecord := h _ (List.mem_filterMap.mpr ⟨l.headerCall file, by simp [MdEncode.fileCalls],
      hheader⟩)
    exact ⟨hrecord file.fileName (by simp [JsonRecord.texts, headerRecord]),
      hrecord file.filePath (by simp [JsonRecord.texts, headerRecord])⟩
  · rintro ⟨hname, hpath⟩ r hmem
    obtain ⟨call, hcall, hr⟩ := List.mem_filterMap.mp hmem
    rw [MdEncode.fileCalls, List.cons_append, List.cons_append, List.mem_cons, List.mem_append,
      List.mem_append, List.mem_singleton] at hcall
    rcases hcall with rfl | (hcall | hcall) | rfl
    · obtain rfl := Option.some.inj (hheader.symm.trans hr)
      have hversion : Utf8 mdVersion := utf8_of_isAscii (by decide)
      have hnames (hashes : List HashContext) : Utf8 (joinTexts (hashNames hashes)) :=
        utf8_of_isWord (isWord_joinTexts fun name hmem => (isItem_hashNames hmem).1)
      simp [JsonRecord.IsUtf8, JsonRecord.texts, headerRecord, hname, hpath, htime, hversion,
        hnames]
    · exact isUtf8_fileHash hcall hr
    · exact isUtf8_block hcall hr
    · cases hr

end

section
variable {l : MdEncode} {runs : List (List FormatterCall)} {marshal : JsonRecord → List UInt8}
  {now : ℕ → List UInt8}

theorem not_readsBack_two {file next : InputFile} {files : List InputFile}
    (hrun : l.mdencode (file :: next :: files) = some runs)
    (hmarshal : ∀ records ∈ recordsFrom now 0 runs, ∀ r ∈ records, Marshals (marshal r) r)
    (records : List (List JsonRecord)) : ¬ ReadsBack (runText marshal now runs) records := by
  rw [MdEncode.mdencode_eq] at hrun
  obtain rfl := Option.some.inj hrun
  rw [runText, text_run, MdEncode.directoryCalls, MdEncode.directoryCalls, recordsFrom, recordsFrom,
    fileTexts, fileTexts, List.intercalate_cons_cons]
  exact not_readsBack_append (hmarshal _ List.mem_cons_self) 0 _ records

/-- A run prints JSON that can be read back exactly when it is over one file,
and the name and path of the file are in UTF-8. -/
theorem readsBack_iff {files : List InputFile} (hrun : l.mdencode files = some runs)
    (hnow : ∀ k, Utf8 (now k))
    (hmarshal : ∀ records ∈ recordsFrom now 0 runs, ∀ r ∈ records, Marshals (marshal r) r) :
    ReadsBack (runText marshal now runs) (recordsFrom now 0 runs) ↔
      ∃ file, files = [file] ∧ Utf8 file.fileName ∧ Utf8 file.filePath := by
  cases files with
  | nil =>
    obtain rfl : [] = runs := Option.some.inj hrun
    refine iff_of_false ?_ (by simp)
    rintro ⟨v, hv, -⟩
    exact not_isJson_nil v hv
  | cons file files =>
    cases files with
    | nil =>
      rw [MdEncode.mdencode_eq] at hrun
      obtain rfl := Option.some.inj hrun
      have hiff := readsBack_fileText_iff (hmarshal _ List.mem_cons_self) 0
      rw [isUtf8_records_iff (hnow 0)] at hiff
      rw [runText, text_run]
      simpa [MdEncode.directoryCalls, recordsFrom, fileTexts] using hiff
    | cons next files => exact iff_of_false (not_readsBack_two hrun hmarshal _) (by simp)

end

/-- The text of a record without characters to escape. -/
def marshalPlain (r : JsonRecord) : List UInt8 :=
  let quoted text := 34 :: text ++ [34]
  let member name v := quoted name ++ 58 :: match v with
    | Value.string text => quoted text
    | Value.number text => text
    | _ => ascii "null"
  123 :: [44].intercalate (r.members.map fun (name, v) => member name v) ++ [125]

def noon (_ : ℕ) : List UInt8 := ascii "2017-01-01 12:00:00 +0000 UTC"

theorem utf8_noon (k : ℕ) : Utf8 (noon k) := by
  have hascii : isAscii (ascii "2017-01-01 12:00:00 +0000 UTC") = true := by decide
  exact utf8_of_isAscii hascii

theorem marshals_of_isAscii {text : List UInt8} {r : JsonRecord}
    (h : isAscii text = true ∧ r.texts.all isAscii = true ∧ lex text = some r.toValue.tokens) :
    Marshals text r :=
  ⟨r, fun t hmem => utf8_of_isAscii (List.all_eq_true.mp h.2.1 t hmem),
    ⟨utf8_of_isAscii h.1, h.2.2⟩, fun _ => rfl⟩

theorem readsBack_iff_one :
    ReadsBack (runText marshalPlain noon (MdEncode.oneHash.directoryCalls [] [MdEncode.fileA]))
      (recordsFrom noon 0 (MdEncode.oneHash.directoryCalls [] [MdEncode.fileA])) := by
  have hplain : ∀ records ∈
      recordsFrom noon 0 (MdEncode.oneHash.directoryCalls [] [MdEncode.fileA]), ∀ r ∈ records,
      isAscii (marshalPlain r) = true ∧ r.texts.all isAscii = true ∧
        lex (marshalPlain r) = some r.toValue.tokens := by
    decide +kernel
  exact (readsBack_iff (MdEncode.oneHash.mdencode_eq [MdEncode.fileA]) utf8_noon
    fun records hrecords r hr => marshals_of_isAscii (hplain records hrecords r hr)).mpr
    ⟨MdEncode.fileA, rfl, utf8_of_isAscii (by decide), utf8_of_isAscii (by decide)⟩

/-- Two files do not make one value. -/
theorem two_files_not_readsBack :
    ¬ ∀ (l : MdEncode) (files : List InputFile) (runs : List (List FormatterCall))
      (marshal : JsonRecord → List UInt8) (now : ℕ → List UInt8), l.mdencode files = some runs →
      (∀ k, Utf8 (now k)) →
      (∀ records ∈ recordsFrom now 0 runs, ∀ r ∈ records, Marshals (marshal r) r) →
      ReadsBack (runText marshal now runs) (recordsFrom now 0 runs) := by
  intro h
  have hrun := MdEncode.oneHash.mdencode_eq [MdEncode.fileA, MdEncode.fileB]
  have hplain : ∀ records ∈ recordsFrom noon 0
      (MdEncode.oneHash.directoryCalls [] [MdEncode.fileA, MdEncode.fileB]), ∀ r ∈ records,
      isAscii (marshalPlain r) = true ∧ r.texts.all isAscii = true ∧
        lex (marshalPlain r) = some r.toValue.tokens := by
    decide +kernel
  have hmarshal : ∀ records ∈ recordsFrom noon 0
      (MdEncode.oneHash.directoryCalls [] [MdEncode.fileA, MdEncode.fileB]), ∀ r ∈ records,
      Marshals (marshalPlain r) r :=
    fun records hrecords r hr => marshals_of_isAscii (hplain records hrecords r hr)
  exact not_readsBack_two hrun hmarshal _ (h _ _ _ _ _ hrun utf8_noon hmarshal)

end MdFormatJson

end Mdencode.Go
