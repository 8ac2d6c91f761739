import Mdencode.Lib.XmlDocument
import Mdencode.Go.MdEncodeALL

/-! The XML of `mdFormatXML.go`, written by hand and without escapes. -/

namespace Mdencode.Go

open Mdencode.Bytes Mdencode.Numerals

/-! What is passed for one file -/

structure EncodedHeader where
  fileName : List UInt8
  filePath : List UInt8
  fileSize : ℤ
  blockSize : ℤ
  filehashList : List (List UInt8)
  blockhashList : List (List UInt8)
  modulusSize : ℤ
  /-- What the clock says when the header is made. -/
  time : List UInt8
  deriving DecidableEq

structure EncodedHash where
  hashName : List UInt8
  hashBytes : List UInt8
  deriving DecidableEq

structure EncodedBlock where
  blockSize : ℕ
  hashList : List (List UInt8)
  modExp : ℕ
  mod : List UInt8
  deriving DecidableEq

structure EncodedFile where
  header : EncodedHeader
  hashes : List EncodedHash
  blocks : List EncodedBlock
  deriving DecidableEq

namespace EncodedFile

variable (f : EncodedFile)

def headerCall : FormatterCall :=
  .encodeFileHeader f.header.fileName f.header.filePath f.header.fileSize f.header.blockSize
    f.header.filehashList f.header.blockhashList f.header.modulusSize

def hashCalls : List FormatterCall :=
  f.hashes.map fun hash => .encodeFileHash hash.hashName hash.hashBytes

def blockCalls : List FormatterCall :=
  f.blocks.map fun block =>
    .encodeBlock block.blockSize block.hashList block.modExp block.mod

/-- The calls for the file. -/
def calls : List FormatterCall :=
  f.headerCall :: f.hashCalls ++ f.blockCalls ++ [.encodeEndFile]

end EncodedFile

/-- The counter of the format object, and the text it has printed. -/
structure MdFormatXML where
  blockCount : ℕ
  text : List UInt8

namespace MdFormatXML

def init : MdFormatXML := ⟨0, []⟩

def print (md : MdFormatXML) (line : List UInt8) : MdFormatXML :=
  { md with text := md.text ++ line }

def println (md : MdFormatXML) (line : List UInt8) : MdFormatXML :=
  (md.print line).print [10]

section
variable (encodingFormat : ℤ) (md : MdFormatXML)

def encodeFileHeader (time fileName filePath : List UInt8) (fileSize blockSize : ℤ)
    (filehashList blockhashList : List (List UInt8)) (modulusSize : ℤ) : MdFormatXML :=
  let filehashListString := joinTexts filehashList
  let blockhashListString := joinTexts blockhashList
  let buffer :=
    if encodingFormat = 5001 then
      ascii "<md><hd><filename>" ++ fileName ++ ascii "</filename>" ++
      ascii "<filepath>" ++ filePath ++ ascii "</filepath>" ++
      ascii "<filesize>" ++ intText fileSize ++ ascii "</filesize>" ++
      ascii "<format>" ++ intText encodingFormat ++ ascii "</format>" ++
      ascii "<blocksize>" ++ intText blockSize ++ ascii "</blocksize>" ++
      ascii "<modulussize>" ++ intText modulusSize ++ ascii "</modulussize>" ++
      ascii "<filehashlist>" ++ filehashListString ++ ascii "</filehashlist>" ++
      ascii "<blockhashlist>" ++ blockhashListString ++ ascii "</blockhashlist>" ++
      ascii "<time>" ++ time ++ ascii "</time></hd>"
    else []
  md.println buffer

/-- Every format prints the same hashes. -/
def encodeFileHash (hashName hashBytes : List UInt8) : MdFormatXML :=
  md.println (ascii "<filehash><hashname>" ++ hashName ++ ascii "</hashname><hash>" ++ hashBytes ++
    ascii "</hash></filehash>")

/-- Every format prints the same blocks. -/
def encodeBlock (blockSize : ℕ) (hashList : List (List UInt8)) (modExp : ℕ) (mod : List UInt8) :
    MdFormatXML :=
  let hashListString := joinTexts hashList
  let md := md.print (ascii "<b><size>" ++ decimal blockSize ++ ascii "</size>")
  let md := md.print (ascii "<hashlist>" ++ hashListString ++ ascii "</hashlist>")
  let md := md.print (ascii "<modexp>" ++ decimal modExp ++ ascii "</modexp>")
  let md := md.print (ascii "<mod>" ++ mod ++ ascii "</mod></b>")
  let md := md.print [10]
  { md with blockCount := md.blockCount + 1 }

def encodeEndFile : MdFormatXML :=
  if encodingFormat = 5001 then md.println (ascii "</md>") else md

/-- One call, at the time given. -/
def encode (time : List UInt8) : FormatterCall → MdFormatXML
  | .encodeFileHeader fileName filePath fileSize blockSize filehashList blockhashList modulusSize =>
    md.encodeFileHeader encodingFormat time fileName filePath fileSize blockSize filehashList
      blockhashList modulusSize
  | .encodeFileHash hashName hashBytes => md.encodeFileHash hashName hashBytes
  | .encodeBlock blockSize hashList modExp mod => md.encodeBlock blockSize hashList modExp mod
  | .encodeEndFile => md.encodeEndFile encodingFormat

def encodeFile (f : EncodedFile) : MdFormatXML :=
  f.calls.foldl (fun md call => md.encode encodingFormat f.header.time call) md

end

/-- What a run prints in format 5001. -/
def runText (files : List EncodedFile) : List UInt8 :=
  (files.foldl (encodeFile 5001) init).text

end MdFormatXML

/-! The document of a file -/

namespace EncodedFile

def hdRecord (header : EncodedHeader) : Xml.Record (List UInt8) where
  name := "hd"
  fields :=
    [("filename", header.fileName), ("filepath", header.filePath),
      ("filesize", intText header.fileSize), ("format", intText 5001),
      ("blocksize", intText header.blockSize), ("modulussize", intText header.modulusSize),
      ("filehashlist", joinTexts header.filehashList),
      ("blockhashlist", joinTexts header.blockhashList), ("time", header.time)]

def filehashRecord (hash : EncodedHash) : Xml.Record (List UInt8) where
  name := "filehash"
  fields := [("hashname", hash.hashName), ("hash", hash.hashBytes)]

def bRecord (block : EncodedBlock) : Xml.Record (List UInt8) where
  name := "b"
  fields :=
    [("size", decimal block.blockSize), ("hashlist", joinTexts block.hashList),
      ("modexp", decimal block.modExp), ("mod", block.mod)]

/-- The element that stands for the file. -/
def document (f : EncodedFile) : Xml.Document (List UInt8) where
  name := "md"
  records := hdRecord f.header :: f.hashes.map filehashRecord ++ f.blocks.map bRecord

end EncodedFile

namespace MdFormatXML

open EncodedFile

/-- A record on a line of its own. -/
def recordLine (r : Xml.Record (List UInt8)) : List UInt8 := r.print ascii ++ ascii "\n"

theorem text_encodeFileHeader (md : MdFormatXML) (f : EncodedFile) :
    (md.encode 5001 f.header.time f.headerCall).text =
      md.text ++ ascii "<md>" ++ recordLine (hdRecord f.header) := by
  simp only [encode, headerCall, encodeFileHeader, println, print, recordLine, hdRecord,
    Xml.Record.print, Xml.tag, List.flatMap_cons, List.flatMap_nil, List.append_assoc, if_true]
  simp [ascii]

theorem text_encodeFileHash (md : MdFormatXML) (time : List UInt8) (hash : EncodedHash) :
    (md.encode 5001 time (.encodeFileHash hash.hashName hash.hashBytes)).text =
      md.text ++ recordLine (filehashRecord hash) := by
  simp only [encode, encodeFileHash, println, print, recordLine, filehashRecord,
    Xml.Record.print, Xml.tag, List.flatMap_cons, List.flatMap_nil, List.append_assoc]
  rfl

theorem text_encodeBlock (md : MdFormatXML) (time : List UInt8) (block : EncodedBlock) :
    (md.encode 5001 time
      (.encodeBlock block.blockSize block.hashList block.modExp block.mod)).text =
      md.text ++ recordLine (bRecord block) := by
  simp only [encode, encodeBlock, print, recordLine, bRecord,
    Xml.Record.print, Xml.tag, List.flatMap_cons, List.flatMap_nil, List.append_assoc]
  rfl

/-- Calls that each print a record. -/
theorem text_foldl {α : Type} {call : α → FormatterCall} {record : α → Xml.Record (List UInt8)}
    {time : List UInt8}
    (h : ∀ (md : MdFormatXML) (a : α),
      (md.encode 5001 time (call a)).text = md.text ++ recordLine (record a))
    (items : List α) (md : MdFormatXML) :
    ((items.map call).foldl (fun md call => md.encode 5001 time call) md).text =
      md.text ++ (items.map record).flatMap recordLine := by
  induction items generalizing md with
  | nil => simp
  | cons a items ih =>
    rw [List.map_cons, List.foldl_cons, ih, h]
    simp

theorem text_encodeFile (md : MdFormatXML) (f : EncodedFile) :
    (md.encodeFile 5001 f).text = md.text ++ (f.document.print ascii ++ ascii "\n") := by
  have hend (md : MdFormatXML) : (md.encode 5001 f.header.time .encodeEndFile).text =
      md.text ++ (ascii "</md>" ++ ascii "\n") := by
    simp only [encode, encodeEndFile, println, print, if_true, List.append_assoc]
    rfl
  have hopen : ascii "<md>" = ascii "<" ++ ascii "md" ++ ascii ">" := by decide
  have hclose : ascii "</md>" = ascii "</" ++ ascii "md" ++ ascii ">" := by decide
  rw [encodeFile, calls, List.cons_append, List.cons_append, List.foldl_cons, List.foldl_append,
    List.foldl_append, List.foldl_cons, List.foldl_nil, hend, blockCalls,
    text_foldl fun md block => text_encodeBlock md _ block, hashCalls,
    text_foldl fun md hash => text_encodeFileHash md _ hash, text_encodeFileHeader, hopen, hclose]
  simp only [Xml.Document.print, document, Xml.tag, recordLine, List.flatMap_append,
    List.flatMap_cons, List.append_assoc, List.cons_append]
  rfl

theorem runText_eq (files : List EncodedFile) :
    runText files = files.flatMap fun f => f.document.print ascii ++ ascii "\n" := by
  have hfold (md : MdFormatXML) : (files.foldl (encodeFile 5001) md).text =
      md.text ++ files.flatMap fun f => f.document.print ascii ++ ascii "\n" := by
    induction files generalizing md with
    | nil => simp
    | cons f files ih =>
      rw [List.foldl_cons, ih, text_encodeFile, List.flatMap_cons, List.append_assoc]
  exact hfold init

end MdFormatXML

end Mdencode.Go
