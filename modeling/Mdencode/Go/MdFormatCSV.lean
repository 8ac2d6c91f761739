import Mdencode.Lib.Csv
import Mdencode.Go.MdFormatXML

/-! The CSV of `mdFormatCSV.go`, written without quotes. -/

namespace Mdencode.Go

open Mdencode.Bytes Mdencode.Numerals

/-- The text the format object has printed. -/
structure MdFormatCSV where
  text : List UInt8

namespace MdFormatCSV

def init : MdFormatCSV := ⟨[]⟩

def print (md : MdFormatCSV) (line : List UInt8) : MdFormatCSV := ⟨md.text ++ line⟩

def println (md : MdFormatCSV) (line : List UInt8) : MdFormatCSV := (md.print line).print [10]

section
variable (encodingFormat : ℤ) (md : MdFormatCSV)

/-- The two formats print the same header. -/
def encodeFileHeader (time fileName filePath : List UInt8) (fileSize blockSize : ℤ)
    (filehashList blockhashList : List (List UInt8)) (modulusSize : ℤ) : MdFormatCSV :=
  let filehashListString := joinTexts filehashList
  let blockhashListString := joinTexts blockhashList
  let buffer :=
    if encodingFormat = 101 ∨ encodingFormat = 102 then
      fileName ++ ascii "," ++ filePath ++ ascii "," ++ intText fileSize ++ ascii "," ++
      intText encodingFormat ++ ascii "," ++ intText blockSize ++ ascii "," ++
      intText modulusSize ++ ascii "," ++ filehashListString ++ ascii "," ++
      blockhashListString ++ ascii "," ++ time
    else []
  md.println buffer

def encodeFileHash (hashName hashBytes : List UInt8) : MdFormatCSV :=
  md.println (ascii "filehash," ++ hashName ++ ascii "," ++ hashBytes ++ ascii ",,")

def encodeBlock (blockSize : ℕ) (hashList : List (List UInt8)) (modExp : ℕ) (mod : List UInt8) :
    MdFormatCSV :=
  let hashListString :=
    if encodingFormat = 102 then [44].intercalate hashList else joinTexts hashList
  let sep := if encodingFormat = 101 ∨ encodingFormat = 102 then ascii "," else ascii ", "
  let md := md.print (decimal blockSize ++ sep)
  let md := md.print (hashListString ++ ascii ",")
  let md := md.print (decimal modExp ++ ascii ",")
  let md := md.print mod
  md.print [10]

/-- One call, at the time given. -/
def encode (time : List UInt8) : FormatterCall → MdFormatCSV
  | .encodeFileHeader fileName filePath fileSize blockSize filehashList blockhashList modulusSize =>
    md.encodeFileHeader encodingFormat time fileName filePath fileSize blockSize filehashList
      blockhashList modulusSize
  | .encodeFileHash hashName hashBytes => md.encodeFileHash hashName hashBytes
  | .encodeBlock blockSize hashList modExp mod =>
    md.encodeBlock encodingFormat blockSize hashList modExp mod
  | .encodeEndFile => md

def encodeFile (f : EncodedFile) : MdFormatCSV :=
  f.calls.foldl (fun md call => md.encode encodingFormat f.header.time call) md

end

/-- What a run prints. -/
def runText (encodingFormat : ℤ) (files : List EncodedFile) : List UInt8 :=
  (files.foldl (encodeFile encodingFormat) init).text

/-- The fields of a header line. -/
def headerFields (encodingFormat : ℤ) (header : EncodedHeader) : List (List UInt8) :=
  [header.fileName, header.filePath, intText header.fileSize, intText encodingFormat,
    intText header.blockSize, intText header.modulusSize, joinTexts header.filehashList,
    joinTexts header.blockhashList, header.time]

/-- What the header call of a file prints. -/
def headerLine (encodingFormat : ℤ) (f : EncodedFile) : List UInt8 :=
  (init.encode encodingFormat f.header.time f.headerCall).text

/-! The lines of a run -/

def hashFields (hash : EncodedHash) : List (List UInt8) :=
  [ascii "filehash", hash.hashName, hash.hashBytes, [], []]

/-- Format 102 has a field for every hash, and an empty one for none. -/
def blockFields (encodingFormat : ℤ) (block : EncodedBlock) : List (List UInt8) :=
  decimal block.blockSize ::
    (if encodingFormat = 102 then if block.hashList = [] then [[]] else block.hashList
      else [joinTexts block.hashList]) ++ [decimal block.modExp, block.mod]

inductive Line where
  | header (header : EncodedHeader)
  | hash (hash : EncodedHash)
  | block (block : EncodedBlock)

def Line.fields (encodingFormat : ℤ) : Line → List (List UInt8)
  | .header h => headerFields encodingFormat h
  | .hash h => hashFields h
  | .block b => blockFields encodingFormat b

def lines (f : EncodedFile) : List Line :=
  .header f.header :: f.hashes.map .hash ++ f.blocks.map .block

/-- The text of a line behind what has been printed. -/
def printLine (encodingFormat : ℤ) (md : MdFormatCSV) (line : Line) : List UInt8 :=
  md.text ++ (Csv.joinFields (line.fields encodingFormat) ++ [10])

section
variable {encodingFormat : ℤ} (md : MdFormatCSV)

theorem text_encodeFileHash (time : List UInt8) (hash : EncodedHash) :
    (md.encode encodingFormat time (.encodeFileHash hash.hashName hash.hashBytes)).text =
      printLine encodingFormat md (.hash hash) := by
  simp only [encode, encodeFileHash, println, print, printLine, Line.fields, hashFields]
  simp [Csv.joinFields, ascii]

theorem joinFields_hashList (hashList : List (List UInt8)) :
    Csv.joinFields (if encodingFormat = 102 then if hashList = [] then [[]] else hashList
      else [joinTexts hashList]) =
        if encodingFormat = 102 then [44].intercalate hashList else joinTexts hashList := by
  split_ifs with hformat hnil
  · rw [hnil]
    rfl
  · rfl
  · exact List.intercalate_singleton

theorem text_encodeBlock (h : encodingFormat = 101 ∨ encodingFormat = 102) (time : List UInt8)
    (block : EncodedBlock) :
    (md.encode encodingFormat time
      (.encodeBlock block.blockSize block.hashList block.modExp block.mod)).text =
        printLine encodingFormat md (.block block) := by
  have hne : (if encodingFormat = 102 then if block.hashList = [] then [[]] else block.hashList
      else [joinTexts block.hashList]) ≠ [] := by
    split_ifs <;> simp_all
  have hcomma : ascii "," = [44] := by decide
  have hlast : Csv.joinFields [decimal block.modExp, block.mod] =
      decimal block.modExp ++ 44 :: block.mod := by
    simp [Csv.joinFields]
  rw [printLine, Line.fields, blockFields, Csv.joinFields_append (List.cons_ne_nil _ _)
    (List.cons_ne_nil _ _), Csv.joinFields_cons hne, joinFields_hashList, hlast]
  simp only [encode, encodeBlock, print, if_pos h, hcomma, List.append_assoc, List.cons_append,
    List.nil_append]

theorem text_encodeFileHeader (h : encodingFormat = 101 ∨ encodingFormat = 102)
    (f : EncodedFile) :
    (md.encode encodingFormat f.header.time f.headerCall).text =
      printLine encodingFormat md (.header f.header) := by
  simp only [encode, EncodedFile.headerCall, encodeFileHeader, println, print, if_pos h, printLine,
    Line.fields, headerFields]
  simp [Csv.joinFields, ascii]

theorem headerLine_eq (h : encodingFormat = 101 ∨ encodingFormat = 102) (f : EncodedFile) :
    headerLine encodingFormat f = Csv.joinFields (headerFields encodingFormat f.header) ++ [10] :=
  text_encodeFileHeader init h f

/-- Calls that each print a line. -/
theorem text_foldl {α : Type} {call : α → FormatterCall} {line : α → Line} {time : List UInt8}
    (h : ∀ (md : MdFormatCSV) (a : α),
      (md.encode encodingFormat time (call a)).text = printLine encodingFormat md (line a))
    (items : List α) :
    ((items.map call).foldl (fun md call => md.encode encodingFormat time call) md).text =
      md.text ++ Csv.joinLines ((items.map line).map (Line.fields encodingFormat)) := by
  induction items generalizing md with
  | nil => simp [Csv.joinLines]
  | cons a items ih =>
    rw [List.map_cons, List.foldl_cons, ih, h, printLine]
    simp only [Csv.joinLines, List.map_cons, List.flatMap_cons, List.append_assoc]

theorem text_encodeFile (h : encodingFormat = 101 ∨ encodingFormat = 102) (f : EncodedFile) :
    (md.encodeFile encodingFormat f).text =
      md.text ++ Csv.joinLines ((lines f).map (Line.fields encodingFormat)) := by
  have hend (md : MdFormatCSV) : md.encode encodingFormat f.header.time .encodeEndFile = md := rfl
  rw [encodeFile, EncodedFile.calls, List.cons_append, List.cons_append, List.foldl_cons,
    List.foldl_append, List.foldl_append, List.foldl_cons, List.foldl_nil, hend,
    EncodedFile.blockCalls, EncodedFile.hashCalls]
  rw [text_foldl _ fun md block => text_encodeBlock md h _ block,
    text_foldl _ fun md hash => text_encodeFileHash md _ hash, text_encodeFileHeader _ h, printLine]
  simp only [Csv.joinLines, lines, List.cons_append, List.map_cons, List.map_append,
    List.flatMap_cons, List.flatMap_append, List.append_assoc]

/-- A run prints its lines. -/
theorem runText_eq (h : encodingFormat = 101 ∨ encodingFormat = 102) (files : List EncodedFile) :
    runText encodingFormat files =
      Csv.joinLines ((files.flatMap lines).map (Line.fields encodingFormat)) := by
  have hfold (md : MdFormatCSV) : (files.foldl (encodeFile encodingFormat) md).text =
      md.text ++ Csv.joinLines ((files.flatMap lines).map (Line.fields encodingFormat)) := by
    induction files generalizing md with
    | nil => simp [Csv.joinLines]
    | cons f files ih =>
      rw [List.foldl_cons, ih, text_encodeFile md h]
      simp only [Csv.joinLines, List.flatMap_cons, List.map_append, List.flatMap_append,
        List.append_assoc]
  exact hfold init

end

end MdFormatCSV

end Mdencode.Go
