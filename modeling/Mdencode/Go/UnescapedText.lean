import Mdencode.Go.MdFormatCSV
import Mdencode.Go.OrderIndependence
import Mdencode.Go.RunTexts

/-! When the values in the XML and the CSV are read back. Nothing is escaped, so
it depends on every text that is passed. A run of `mdencode` passes words, but
for the names of its files, their paths and the time. -/

namespace Mdencode.Go

open Mdencode.Bytes Mdencode.Numerals Mdencode.Unicode

/-! Lists -/

/-- The texts between colons; no text makes no list. -/
def splitTexts (text : List UInt8) : List (List UInt8) := if text = [] then [] else text.splitOn 58

/-- The texts of the list are found between colons. -/
def Joinable (list : List (List UInt8)) : Prop := list ≠ [[]] ∧ ∀ text ∈ list, 58 ∉ text

theorem splitTexts_joinTexts_iff (list : List (List UInt8)) :
    splitTexts (joinTexts list) = list ↔ Joinable list := by
  constructor
  · intro h
    refine ⟨?_, fun text hmem => ?_⟩
    · rintro rfl
      cases h
    · unfold splitTexts at h
      split_ifs at h
      · rw [← h] at hmem
        cases hmem
      · exact Separated.notMem_of_mem_splitOn (h.symm ▸ hmem)
  · rintro ⟨hne, hcolon⟩
    rcases eq_or_ne list [] with rfl | hnil
    · rfl
    · have hsplit : (joinTexts list).splitOn 58 = list := List.splitOn_intercalate 58 hcolon hnil
      have htext : joinTexts list ≠ [] := by
        intro htext
        rw [htext, List.splitOn_nil] at hsplit
        exact hne hsplit.symm
      rw [splitTexts, if_neg htext, hsplit]

theorem joinTexts_inj {xs ys : List (List UInt8)} (hxs : Joinable xs) (hys : Joinable ys)
    (h : joinTexts xs = joinTexts ys) : xs = ys := by
  rw [← (splitTexts_joinTexts_iff xs).mpr hxs, h, (splitTexts_joinTexts_iff ys).mpr hys]

/-! Words -/

theorem isPlain_of_isWord {text : List UInt8} (h : IsWord text) : Xml.IsPlain text := by
  have hchars : ∀ n < 128, isWordByte (UInt8.ofNat n) = true → Xml.isChar (Char.ofNat n) = true ∧
      Char.ofNat n ≠ '<' ∧ Char.ofNat n ≠ '&' ∧ Char.ofNat n ≠ '>' ∧ Char.ofNat n ≠ '\r' := by
    decide
  have hascii : ∀ b ∈ text, b.toNat < 128 := by
    intro b hmem
    have hword := h b hmem
    simp only [isWordByte, Bool.and_eq_true, decide_eq_true_eq] at hword
    omega
  have hword : ∀ c ∈ asciiChars text,
      Xml.isChar c = true ∧ c ≠ '<' ∧ c ≠ '&' ∧ c ≠ '>' ∧ c ≠ '\r' := by
    intro c hmem
    obtain ⟨b, hb, rfl⟩ := List.mem_map.mp hmem
    exact hchars b.toNat (hascii b hb) (by rw [UInt8.ofNat_toNat]; exact h b hb)
  refine ⟨asciiChars text, (encode_asciiChars hascii).symm, ⟨?_, ?_⟩, ?_⟩
  · intro c hmem
    exact ⟨(hword c hmem).1, (hword c hmem).2.1, (hword c hmem).2.2.1⟩
  · intro hpart
    exact (hword '>' (hpart.subset (by simp))).2.2.2.1 rfl
  · intro hmem
    exact (hword '\r' hmem).2.2.2.2 rfl

theorem csv_isPlain_of_isWord {text : List UInt8} (h : IsWord text) : Csv.isPlain text = true := by
  apply List.all_eq_true.mpr
  intro b hmem
  have hword := h b hmem
  simp only [isWordByte, Bool.and_eq_true, decide_eq_true_eq] at hword
  have hlow {c : UInt8} (hc : c.toNat < 32) : b ≠ c := by
    rintro rfl
    omega
  simp [hword, hlow (show (10 : UInt8).toNat < 32 by decide),
    hlow (show (13 : UInt8).toNat < 32 by decide)]

/-! The texts that are passed -/

def EncodedHeader.texts (header : EncodedHeader) : List (List UInt8) :=
  [header.fileName, header.filePath, joinTexts header.filehashList, joinTexts header.blockhashList,
    header.time]

namespace EncodedFile

variable (f : EncodedFile)

def texts : List (List UInt8) :=
  f.header.texts ++ (f.hashes.flatMap fun hash => [hash.hashName, hash.hashBytes]) ++
    f.blocks.flatMap fun block => [joinTexts block.hashList, block.mod]

def lists : List (List (List UInt8)) :=
  f.header.filehashList :: f.header.blockhashList :: f.blocks.map EncodedBlock.hashList

/-- Every text is character data of XML, those of the header need no quotes in
CSV, and lists are read off their texts. -/
structure Plain : Prop where
  xml : ∀ text ∈ f.texts, Xml.IsPlain text
  csv : ∀ text ∈ f.header.texts, Csv.isPlain text = true
  lists : ∀ list ∈ f.lists, Joinable list

/-- Behind the header no text ends a field or a line of the CSV. -/
structure Bare : Prop where
  hashes : ∀ hash ∈ f.hashes, Csv.isBare hash.hashName = true ∧ Csv.isBare hash.hashBytes = true
  blocks : ∀ block ∈ f.blocks,
    (∀ text ∈ block.hashList, Csv.isBare text = true) ∧ Csv.isBare block.mod = true

/-- The text in format 5001 is the element of the file, on a line of its own. -/
def ReadsAsXml : Prop :=
  ∃ body, MdFormatXML.runText [f] = body ++ [10] ∧ Xml.IsDocument body f.document

theorem goodName_document : ∀ name ∈ f.document.names, Xml.goodName name = true := by
  have hhead : ∀ name ∈ ["hd", "filename", "filepath", "filesize", "format", "blocksize",
      "modulussize", "filehashlist", "blockhashlist", "time"], Xml.goodName name = true := by decide
  have hhash : ∀ name ∈ ["filehash", "hashname", "hash"], Xml.goodName name = true := by decide
  have hblock : ∀ name ∈ ["b", "size", "hashlist", "modexp", "mod"], Xml.goodName name = true := by
    decide
  intro name hmem
  simp only [Xml.Document.names, document, List.cons_append, List.flatMap_cons, List.flatMap_append,
    List.flatMap_map, List.mem_cons, List.mem_append, List.mem_flatMap] at hmem
  rcases hmem with rfl | hmem | ⟨hash, -, hmem⟩ | ⟨block, -, hmem⟩
  · decide
  · exact hhead name hmem
  · exact hhash name hmem
  · exact hblock name hmem

theorem forall_texts_document :
    (∀ text ∈ f.document.texts, Xml.IsPlain text) ↔ ∀ text ∈ f.texts, Xml.IsPlain text := by
  have hnat (n : ℕ) := isPlain_of_isWord (isWord_decimal n)
  have hint (n : ℤ) := isPlain_of_isWord (isWord_intText n)
  have hdocument : f.document.texts = (hdRecord f.header).texts ++
      (f.hashes.flatMap fun hash => [hash.hashName, hash.hashBytes]) ++
      f.blocks.flatMap fun block =>
        [decimal block.blockSize, joinTexts block.hashList, decimal block.modExp, block.mod] := by
    simp [Xml.Document.texts, document, List.flatMap_map, Xml.Record.texts, filehashRecord, bRecord]
  have hheader : (∀ text ∈ (hdRecord f.header).texts, Xml.IsPlain text) ↔
      ∀ text ∈ f.header.texts, Xml.IsPlain text := by
    simp [hdRecord, Xml.Record.texts, EncodedHeader.texts, hint]
  have hblocks : (∀ text ∈ (f.blocks.flatMap fun block => [decimal block.blockSize,
      joinTexts block.hashList, decimal block.modExp, block.mod]), Xml.IsPlain text) ↔
      ∀ text ∈ (f.blocks.flatMap fun block => [joinTexts block.hashList, block.mod]),
        Xml.IsPlain text := by
    simp only [List.forall_mem_flatMap, List.forall_mem_cons, hnat, true_and]
  rw [hdocument, texts, List.forall_mem_append, List.forall_mem_append, List.forall_mem_append,
    List.forall_mem_append, hheader, hblocks]

theorem readsAsXml_iff : f.ReadsAsXml ↔ ∀ text ∈ f.texts, Xml.IsPlain text := by
  have hrun : MdFormatXML.runText [f] = f.document.print ascii ++ [10] := by
    simp [MdFormatXML.runText_eq, ascii]
  rw [← forall_texts_document, ← Xml.isDocument_print_iff f.goodName_document, ReadsAsXml, hrun]
  constructor
  · rintro ⟨body, hbody, hdocument⟩
    rwa [List.append_cancel_right hbody]
  · intro h
    exact ⟨_, rfl, h⟩

theorem isLine_headerLine_iff {encodingFormat : ℤ}
    (h : encodingFormat = 101 ∨ encodingFormat = 102) :
    Csv.IsLine (MdFormatCSV.headerLine encodingFormat f)
        (MdFormatCSV.headerFields encodingFormat f.header) ↔
      ∀ text ∈ f.header.texts, Csv.isPlain text = true := by
  have hint (n : ℤ) := csv_isPlain_of_isWord (isWord_intText n)
  rw [MdFormatCSV.headerLine_eq h, Csv.isLine_joinFields_iff (by simp [MdFormatCSV.headerFields])]
  simp [MdFormatCSV.headerFields, EncodedHeader.texts, hint]

end EncodedFile

/-! Different values -/

theorem header_inj {header header' : EncodedHeader}
    (h : Joinable header.filehashList ∧ Joinable header.blockhashList)
    (h' : Joinable header'.filehashList ∧ Joinable header'.blockhashList)
    (htexts : header.texts = header'.texts)
    (hnumbers : intText header.fileSize = intText header'.fileSize ∧
      intText header.blockSize = intText header'.blockSize ∧
      intText header.modulusSize = intText header'.modulusSize) : header = header' := by
  simp only [EncodedHeader.texts, List.cons.injEq, and_true] at htexts
  obtain ⟨hname, hpath, hfile, hblock, htime⟩ := htexts
  cases header
  cases header'
  simp only [EncodedHeader.mk.injEq]
  exact ⟨hname, hpath, intText_injective hnumbers.1, intText_injective hnumbers.2.1,
    joinTexts_inj h.1 h'.1 hfile, joinTexts_inj h.2 h'.2 hblock,
    intText_injective hnumbers.2.2, htime⟩

theorem headerFields_inj {encodingFormat : ℤ} {header header' : EncodedHeader}
    (h : Joinable header.filehashList ∧ Joinable header.blockhashList)
    (h' : Joinable header'.filehashList ∧ Joinable header'.blockhashList)
    (heq : MdFormatCSV.headerFields encodingFormat header =
      MdFormatCSV.headerFields encodingFormat header') : header = header' := by
  simp only [MdFormatCSV.headerFields, List.cons.injEq, and_true] at heq
  refine header_inj h h' ?_ ⟨heq.2.2.1, heq.2.2.2.2.1, heq.2.2.2.2.2.1⟩
  simp [EncodedHeader.texts, heq]

theorem hdRecord_inj {header header' : EncodedHeader}
    (h : Joinable header.filehashList ∧ Joinable header.blockhashList)
    (h' : Joinable header'.filehashList ∧ Joinable header'.blockhashList)
    (heq : EncodedFile.hdRecord header = EncodedFile.hdRecord header') : header = header' := by
  have hfields := congrArg Xml.Record.texts heq
  simp only [Xml.Record.texts, EncodedFile.hdRecord, List.map_cons, List.map_nil, List.cons.injEq,
    and_true] at hfields
  refine header_inj h h' ?_ ⟨hfields.2.2.1, hfields.2.2.2.2.1, hfields.2.2.2.2.2.1⟩
  simp [EncodedHeader.texts, hfields]

theorem filehashRecord_injective : Function.Injective EncodedFile.filehashRecord := by
  rintro ⟨hashName, hashBytes⟩ ⟨hashName', hashBytes'⟩ h
  have hfields := congrArg Xml.Record.texts h
  simpa [Xml.Record.texts, EncodedFile.filehashRecord] using hfields

theorem bRecord_inj {block block' : EncodedBlock} (h : Joinable block.hashList)
    (h' : Joinable block'.hashList)
    (heq : EncodedFile.bRecord block = EncodedFile.bRecord block') : block = block' := by
  have hfields := congrArg Xml.Record.texts heq
  simp only [Xml.Record.texts, EncodedFile.bRecord, List.map_cons, List.map_nil, List.cons.injEq,
    and_true] at hfields
  cases block
  cases block'
  simp only [EncodedBlock.mk.injEq]
  exact ⟨decimal_injective hfields.1, joinTexts_inj h h' hfields.2.1,
    decimal_injective hfields.2.2.1, hfields.2.2.2⟩

namespace EncodedFile

variable {f g : EncodedFile}

theorem Plain.header (h : f.Plain) :
    Joinable f.header.filehashList ∧ Joinable f.header.blockhashList :=
  ⟨h.lists _ List.mem_cons_self, h.lists _ (List.mem_cons_of_mem _ List.mem_cons_self)⟩

theorem Plain.block (h : f.Plain) {block : EncodedBlock} (hmem : block ∈ f.blocks) :
    Joinable block.hashList :=
  h.lists _ (List.mem_cons_of_mem _ (List.mem_cons_of_mem _ (List.mem_map_of_mem hmem)))

/-- The hashes are over. -/
def AtBlocks (records : List (Xml.Record (List UInt8))) : Prop :=
  ∀ r ∈ records.head?, r.name = "b"

/-- A file is read off its document. -/
theorem document_inj (f g : EncodedFile) (hf : f.Plain) (hg : g.Plain)
    (h : f.document = g.document) : f = g := by
  have hrecords := congrArg Xml.Document.records h
  simp only [document, List.cons_append, List.cons.injEq] at hrecords
  obtain ⟨hhd, hrest⟩ := hrecords
  have hheader := hdRecord_inj hf.header hg.header hhd
  -- the hashes end where the first block is
  have hblocks (blocks : List EncodedBlock) : AtBlocks (blocks.map bRecord) := by
    cases blocks <;> simp [AtBlocks, bRecord]
  have hhash (hash : EncodedHash) (_ : True) (r : List (Xml.Record (List UInt8))) :
      ¬ AtBlocks (filehashRecord hash :: r) := by
    simp [AtBlocks, filehashRecord]
  obtain ⟨hhashes, hbs⟩ := Separated.map_append_inj
    (fun _ _ _ _ heq => filehashRecord_injective heq) hhash (fun _ _ => trivial)
    (fun _ _ => trivial) (hblocks f.blocks) (hblocks g.blocks) hrest
  have hblockEq :=
    Separated.map_inj (fun _ _ => bRecord_inj) (fun _ => hf.block) (fun _ => hg.block)
    hbs
  cases f
  cases g
  simp only [EncodedFile.mk.injEq]
  exact ⟨hheader, hhashes, hblockEq⟩

theorem Plain.document (h : f.Plain) : f.document.Plain :=
  ⟨f.goodName_document, f.forall_texts_document.mpr h.xml⟩

theorem runText_inj {a b : List EncodedFile} (ha : ∀ f ∈ a, f.Plain) (hb : ∀ f ∈ b, f.Plain)
    (h : MdFormatXML.runText a = MdFormatXML.runText b) : a = b := by
  have hdocuments {files : List EncodedFile} (hfiles : ∀ f ∈ files, f.Plain) :
      ∀ d ∈ files.map EncodedFile.document, d.Plain := by
    intro d hmem
    obtain ⟨f, hf, rfl⟩ := List.mem_map.mp hmem
    exact (hfiles f hf).document
  rw [MdFormatXML.runText_eq, MdFormatXML.runText_eq] at h
  have heq :=
    Xml.documents_inj (hdocuments ha) (hdocuments hb) (by simpa [List.flatMap_map] using h)
  exact Separated.map_inj document_inj ha hb heq

end EncodedFile

/-! The lines of the CSV -/

namespace MdFormatCSV

/-- No header says in format 102 what a block with six hashes does. -/
def Apart (files : List EncodedFile) : Prop :=
  ∀ f ∈ files, ∀ g ∈ files, ∀ block ∈ g.blocks,
    headerFields 102 f.header ≠ blockFields 102 block

/-- What the lines of a run say: the hashes and blocks in front of the first
header, and the files. -/
def readLines : List Line → (List EncodedHash × List EncodedBlock) × List EncodedFile
  | [] => (([], []), [])
  | .header h :: rest =>
    let ((hashes, blocks), files) := readLines rest
    (([], []), ⟨h, hashes, blocks⟩ :: files)
  | .hash h :: rest =>
    let ((hashes, blocks), files) := readLines rest
    ((h :: hashes, blocks), files)
  | .block b :: rest =>
    let ((hashes, blocks), files) := readLines rest
    ((hashes, b :: blocks), files)

theorem readLines_blocks (blocks : List EncodedBlock) (rest : List Line) :
    readLines (blocks.map .block ++ rest) =
      (((readLines rest).1.1, blocks ++ (readLines rest).1.2), (readLines rest).2) := by
  induction blocks with
  | nil => rfl
  | cons block blocks ih => rw [List.map_cons, List.cons_append, readLines, ih]; rfl

theorem readLines_hashes (hashes : List EncodedHash) (rest : List Line) :
    readLines (hashes.map .hash ++ rest) =
      ((hashes ++ (readLines rest).1.1, (readLines rest).1.2), (readLines rest).2) := by
  induction hashes with
  | nil => rfl
  | cons hash hashes ih => rw [List.map_cons, List.cons_append, readLines, ih]; rfl

theorem readLines_lines (files : List EncodedFile) :
    readLines (files.flatMap lines) = (([], []), files) := by
  induction files with
  | nil => rfl
  | cons f files ih =>
    rw [List.flatMap_cons, lines, List.cons_append, List.cons_append, readLines, List.append_assoc,
      readLines_hashes, readLines_blocks, ih]
    simp

section
variable {encodingFormat : ℤ}

/-- In front of the exponent and the modulus the fields of a block say its
hashes. -/
theorem hashList_inj {hashList hashList' : List (List UInt8)} (h : Joinable hashList)
    (h' : Joinable hashList')
    (heq : (if encodingFormat = 102 then if hashList = [] then [[]] else hashList
      else [joinTexts hashList]) =
        if encodingFormat = 102 then if hashList' = [] then [[]] else hashList'
          else [joinTexts hashList']) : hashList = hashList' := by
  by_cases hformat : encodingFormat = 102
  · rw [if_pos hformat, if_pos hformat] at heq
    split_ifs at heq with hnil hnil'
    · rw [hnil, hnil']
    · exact absurd heq.symm h'.1
    · exact absurd heq h.1
    · exact heq
  · rw [if_neg hformat, if_neg hformat, List.cons.injEq] at heq
    exact joinTexts_inj h h' heq.1

theorem blockFields_inj {block block' : EncodedBlock} (h : Joinable block.hashList)
    (h' : Joinable block'.hashList)
    (heq : blockFields encodingFormat block = blockFields encodingFormat block') :
    block = block' := by
  obtain ⟨hsize, hrest⟩ := List.cons.inj heq
  obtain ⟨hlist, hlast⟩ := List.append_inj' hrest rfl
  simp only [List.cons.injEq, and_true] at hlast
  cases block
  cases block'
  simp only [EncodedBlock.mk.injEq]
  exact ⟨decimal_injective hsize, hashList_inj h h' hlist, decimal_injective hlast.1, hlast.2⟩

theorem hashFields_ne_blockFields (hash : EncodedHash) (block : EncodedBlock) :
    hashFields hash ≠ blockFields encodingFormat block := by
  intro heq
  have hname : ascii "filehash" = decimal block.blockSize := (List.cons.inj heq).1
  have hbounds := decimal_bounds (hname ▸ (by decide : 102 ∈ ascii "filehash"))
  exact absurd hbounds (by decide)

theorem headerFields_ne_hashFields (header : EncodedHeader) (hash : EncodedHash) :
    headerFields encodingFormat header ≠ hashFields hash := by
  intro heq
  have hlength := congrArg List.length heq
  simp [headerFields, hashFields] at hlength

variable {files : List EncodedFile} (hformat : encodingFormat = 101 ∨ encodingFormat = 102)
  (hplain : ∀ f ∈ files, f.Plain) (hapart : Apart files)
include hformat hplain hapart

omit hplain in
theorem headerFields_ne_blockFields {f g : EncodedFile} (hf : f ∈ files) (hg : g ∈ files)
    {block : EncodedBlock} (hblock : block ∈ g.blocks) :
    headerFields encodingFormat f.header ≠ blockFields encodingFormat block := by
  rcases hformat with rfl | rfl
  · intro heq
    have hlength := congrArg List.length heq
    simp [headerFields, blockFields] at hlength
  · exact hapart f hf g hg block hblock

/-- Lines of plain files are told apart by their fields. -/
theorem fields_inj {x y : Line} (hx : x ∈ files.flatMap lines) (hy : y ∈ files.flatMap lines)
    (heq : x.fields encodingFormat = y.fields encodingFormat) : x = y := by
  obtain ⟨f, hf, hx⟩ := List.mem_flatMap.mp hx
  obtain ⟨g, hg, hy⟩ := List.mem_flatMap.mp hy
  simp only [lines, List.cons_append, List.mem_cons, List.mem_append, List.mem_map] at hx hy
  have hfPlain := hplain f hf
  have hgPlain := hplain g hg
  rcases hx with rfl | ⟨hash, -, rfl⟩ | ⟨block, hblock, rfl⟩ <;>
    rcases hy with rfl | ⟨hash', -, rfl⟩ | ⟨block', hblock', rfl⟩
  · exact congrArg Line.header (headerFields_inj hfPlain.header hgPlain.header heq)
  · exact absurd heq (headerFields_ne_hashFields _ _)
  · exact absurd heq (headerFields_ne_blockFields hformat hapart hf hg hblock')
  · exact absurd heq.symm (headerFields_ne_hashFields _ _)
  · simp only [Line.fields, hashFields, List.cons.injEq, true_and, and_true] at heq
    cases hash
    cases hash'
    exact congrArg Line.hash (by rw [EncodedHash.mk.injEq]; exact heq)
  · exact absurd heq (hashFields_ne_blockFields _ _)
  · exact absurd heq.symm (headerFields_ne_blockFields hformat hapart hg hf hblock)
  · exact absurd heq.symm (hashFields_ne_blockFields _ _)
  · exact congrArg Line.block
      (blockFields_inj (hfPlain.block hblock) (hgPlain.block hblock') heq)

omit hformat hapart in
theorem isBare_fields (hbare : ∀ f ∈ files, f.Bare) {x : Line} (hx : x ∈ files.flatMap lines) :
    x.fields encodingFormat ≠ [] ∧
      ∀ text ∈ x.fields encodingFormat, Csv.isBare text = true := by
  have hword {text : List UInt8} (h : IsWord text) : Csv.isBare text = true :=
    Csv.isBare_of_isPlain (csv_isPlain_of_isWord h)
  obtain ⟨f, hf, hx⟩ := List.mem_flatMap.mp hx
  simp only [lines, List.cons_append, List.mem_cons, List.mem_append, List.mem_map] at hx
  rcases hx with rfl | ⟨hash, hhash, rfl⟩ | ⟨block, hblock, rfl⟩
  · refine ⟨List.cons_ne_nil _ _, fun text hmem => ?_⟩
    have htexts := (hplain f hf).csv
    simp only [EncodedHeader.texts, List.forall_mem_cons] at htexts
    obtain ⟨hname, hpath, hfile, hblock, htime, -⟩ := htexts
    have hall : ∀ text ∈ headerFields encodingFormat f.header, Csv.isBare text = true := by
      simp only [headerFields, List.forall_mem_cons]
      exact ⟨Csv.isBare_of_isPlain hname, Csv.isBare_of_isPlain hpath, hword (isWord_intText _),
        hword (isWord_intText _), hword (isWord_intText _), hword (isWord_intText _),
        Csv.isBare_of_isPlain hfile, Csv.isBare_of_isPlain hblock, Csv.isBare_of_isPlain htime,
        by simp⟩
    exact hall text hmem
  · refine ⟨List.cons_ne_nil _ _, ?_⟩
    obtain ⟨hname, hbytes⟩ := (hbare f hf).hashes hash hhash
    simp only [Line.fields, hashFields, List.forall_mem_cons]
    exact ⟨by decide, hname, hbytes, rfl, rfl, by simp⟩
  · refine ⟨List.cons_ne_nil _ _, ?_⟩
    obtain ⟨hlist, hmod⟩ := (hbare f hf).blocks block hblock
    have hjoin : Csv.isBare (joinTexts block.hashList) = true := by
      rw [Csv.isBare_iff]
      exact ⟨notMem_intercalate (by decide) fun text hmem =>
          (Csv.isBare_iff.mp (hlist text hmem)).1,
        notMem_intercalate (by decide) fun text hmem => (Csv.isBare_iff.mp (hlist text hmem)).2⟩
    have hhashes : ∀ text ∈ (if encodingFormat = 102 then
        if block.hashList = [] then [[]] else block.hashList
          else [joinTexts block.hashList]), Csv.isBare text = true := by
      split_ifs
      · simp [Csv.isBare]
      · exact hlist
      · simpa using hjoin
    simp only [Line.fields, blockFields, List.cons_append, List.forall_mem_cons,
      List.forall_mem_append]
    exact ⟨hword (isWord_decimal _), hhashes, hword (isWord_decimal _), hmod, by simp⟩

end

/-- Plain runs are read off their lines. -/
theorem runText_inj {encodingFormat : ℤ} (hformat : encodingFormat = 101 ∨ encodingFormat = 102)
    {a b : List EncodedFile} (hplain : ∀ f ∈ a ++ b, f.Plain) (hbare : ∀ f ∈ a ++ b, f.Bare)
    (hapart : Apart (a ++ b)) (h : runText encodingFormat a = runText encodingFormat b) :
    a = b := by
  have hleft {x : Line} (hx : x ∈ a.flatMap lines) : x ∈ (a ++ b).flatMap lines := by
    rw [List.flatMap_append]
    exact List.mem_append_left _ hx
  have hright {x : Line} (hx : x ∈ b.flatMap lines) : x ∈ (a ++ b).flatMap lines := by
    rw [List.flatMap_append]
    exact List.mem_append_right _ hx
  rw [runText_eq hformat, runText_eq hformat] at h
  have hrecords := Csv.joinLines_inj (fun fields hmem => ?_) (fun fields hmem => ?_) h
  · have hlines := Separated.map_inj
      (fun x y hx hy => fields_inj hformat hplain hapart hx hy) (fun x => hleft) (fun x => hright)
      hrecords
    have hfiles := congrArg (fun x => (readLines x).2) hlines
    simpa only [readLines_lines] using hfiles
  · obtain ⟨x, hx, rfl⟩ := List.mem_map.mp hmem
    exact isBare_fields hplain hbare (hleft hx)
  · obtain ⟨x, hx, rfl⟩ := List.mem_map.mp hmem
    exact isBare_fields hplain hbare (hright hx)

end MdFormatCSV

/-! Two runs -/

/-- In two runs the XML is well formed and holds the values that were passed,
and so does the header line in CSV; different values give different texts. -/
structure Unambiguous (a b : List EncodedFile) : Prop where
  xml : ∀ f ∈ a ++ b, f.ReadsAsXml
  csv : ∀ f ∈ a ++ b, ∀ encodingFormat : ℤ, encodingFormat = 101 ∨ encodingFormat = 102 →
    Csv.IsLine (MdFormatCSV.headerLine encodingFormat f)
      (MdFormatCSV.headerFields encodingFormat f.header)
  lists : ∀ f ∈ a ++ b, ∀ list ∈ f.lists, splitTexts (joinTexts list) = list
  xml_ne : a ≠ b → MdFormatXML.runText a ≠ MdFormatXML.runText b
  csv_ne : a ≠ b → ∀ encodingFormat : ℤ, encodingFormat = 101 ∨ encodingFormat = 102 →
    MdFormatCSV.runText encodingFormat a ≠ MdFormatCSV.runText encodingFormat b

theorem Unambiguous.plain {a b : List EncodedFile} (h : Unambiguous a b) :
    ∀ f ∈ a ++ b, f.Plain := fun f hmem =>
  ⟨f.readsAsXml_iff.mp (h.xml f hmem),
    (f.isLine_headerLine_iff (.inl rfl)).mp (h.csv f hmem 101 (.inl rfl)),
    fun list hlist => (splitTexts_joinTexts_iff list).mp (h.lists f hmem list hlist)⟩

theorem unambiguous_of_plain {a b : List EncodedFile} (hplain : ∀ f ∈ a ++ b, f.Plain)
    (hbare : ∀ f ∈ a ++ b, f.Bare) (hapart : MdFormatCSV.Apart (a ++ b)) : Unambiguous a b where
  xml f hmem := f.readsAsXml_iff.mpr (hplain f hmem).xml
  csv f hmem _ hformat := (f.isLine_headerLine_iff hformat).mpr (hplain f hmem).csv
  lists f hmem list hlist := (splitTexts_joinTexts_iff list).mpr ((hplain f hmem).lists list hlist)
  xml_ne hne heq := hne (EncodedFile.runText_inj
    (fun f hmem => hplain f (List.mem_append_left b hmem))
    (fun f hmem => hplain f (List.mem_append_right a hmem)) heq)
  csv_ne hne _ hformat heq := hne (MdFormatCSV.runText_inj hformat hplain hbare hapart heq)

/-! What a run of `mdencode` passes -/

/-- These are the files of a run, with the times of their headers. -/
def IsRun (files : List EncodedFile) : Prop :=
  ∃ (l : MdEncode) (inputs : List InputFile),
    l.mdencode inputs = some (files.map EncodedFile.calls)

theorem exists_calls (l : MdEncode) (signatures : List (List UInt8)) (file : InputFile) :
    l.fileCalls signatures file ∈ Set.range EncodedFile.calls := by
  obtain ⟨hashes, hhashes⟩ : l.fileHashCalls signatures ∈ Set.range (List.map
      fun hash : EncodedHash => FormatterCall.encodeFileHash hash.hashName hash.hashBytes) := by
    rw [Set.range_list_map]
    intro call hmem
    obtain ⟨hashName, hashBytes, rfl, -⟩ := MdEncode.fileHash_words hmem
    exact ⟨⟨hashName, hashBytes⟩, rfl⟩
  obtain ⟨blocks, hblocks⟩ : l.blockCalls file.content ∈ Set.range (List.map
      fun block : EncodedBlock => FormatterCall.encodeBlock block.blockSize block.hashList
        block.modExp block.mod) := by
    rw [Set.range_list_map]
    intro call hmem
    have hkind := (l.isBlock_of_mem hmem).1
    cases call with
    | encodeBlock blockSize hashList modExp mod => exact ⟨⟨blockSize, hashList, modExp, mod⟩, rfl⟩
    | _ => cases hkind
  refine ⟨⟨⟨file.fileName, file.filePath, file.content.length, l.blocksize,
    hashNames l.fileHashList, hashNames l.blockHashList, l.bitsize, []⟩, hashes, blocks⟩, ?_⟩
  rw [EncodedFile.calls, EncodedFile.hashCalls, EncodedFile.blockCalls, hhashes, hblocks]
  rfl

/-- Every run is of this kind. -/
theorem exists_isRun (l : MdEncode) (inputs : List InputFile) :
    ∃ files : List EncodedFile, l.mdencode inputs = some (files.map EncodedFile.calls) := by
  have hrange : l.directoryCalls [] inputs ∈ Set.range (List.map EncodedFile.calls) := by
    rw [Set.range_list_map]
    intro calls hmem
    obtain ⟨k, hk⟩ := List.mem_iff_getElem?.mp hmem
    rw [l.getElem?_directoryCalls] at hk
    obtain ⟨file, -, rfl⟩ := Option.map_eq_some_iff.mp hk
    exact exists_calls l _ file
  obtain ⟨files, hfiles⟩ := hrange
  exact ⟨files, by rw [l.mdencode_eq, hfiles]⟩

/-- The texts of a file that are not made by `mdencode`. -/
def EncodedFile.names (f : EncodedFile) : List (List UInt8) :=
  [f.header.fileName, f.header.filePath, f.header.time]

/-- Lists of items, and words. The third hash of a block is a digest. -/
structure EncodedFile.Worded (f : EncodedFile) : Prop where
  lists : ∀ list ∈ [f.header.filehashList, f.header.blockhashList], ∀ text ∈ list, IsItem text
  hashes : ∀ hash ∈ f.hashes, IsWord hash.hashName ∧ IsWord hash.hashBytes
  blocks : ∀ block ∈ f.blocks, (∀ text ∈ block.hashList, IsItem text) ∧ IsWord block.mod
  digests : ∀ block ∈ f.blocks, ∀ text, block.hashList[2]? = some text → Even text.length

theorem joinable_of_items {list : List (List UInt8)} (h : ∀ text ∈ list, IsItem text) :
    Joinable list := by
  refine ⟨?_, fun text hmem => (h text hmem).2.1⟩
  rintro rfl
  exact (h [] List.mem_cons_self).2.2 rfl

namespace EncodedFile

variable {f : EncodedFile}

theorem Worded.of_calls {l : MdEncode} {signatures : List (List UInt8)} {file : InputFile}
    (h : f.calls = l.fileCalls signatures file) : f.Worded := by
  have hheader : f.headerCall = l.headerCall file := (List.cons.inj h).1
  have hmem {call : FormatterCall} (hcall : call ∈ f.hashCalls ++ f.blockCalls) :
      call ∈ l.fileCalls signatures file := by
    rw [← h, calls, List.cons_append, List.cons_append]
    exact List.mem_cons_of_mem _ (List.mem_append_left _ hcall)
  have hblock : ∀ block ∈ f.blocks, ∃ bytes,
      l.blockOf bytes = .encodeBlock block.blockSize block.hashList block.modExp block.mod := by
    intro block hblock
    have hcall : .encodeBlock block.blockSize block.hashList block.modExp block.mod ∈
        (l.fileCalls signatures file).filter FormatterCall.isBlock :=
      List.mem_filter.mpr ⟨hmem (List.mem_append_right _ (List.mem_map_of_mem hblock)), rfl⟩
    rw [l.filter_isBlock, MdEncode.blockCalls] at hcall
    split_ifs at hcall
    · obtain ⟨bytes, -, heq⟩ := List.mem_map.mp hcall
      exact ⟨bytes, heq⟩
    · cases hcall
  refine ⟨?_, fun hash hhash => ?_, fun block hmem => ?_, fun block hmem text htext => ?_⟩
  · simp only [headerCall, MdEncode.headerCall, FormatterCall.encodeFileHeader.injEq] at hheader
    obtain ⟨-, -, -, -, hfile, hblock, -⟩ := hheader
    rw [hfile, hblock]
    intro list hlist
    rcases List.mem_pair.mp hlist with rfl | rfl <;> exact fun _ => isItem_hashNames
  · have hcall : .encodeFileHash hash.hashName hash.hashBytes ∈
        (l.fileCalls signatures file).filter FormatterCall.isFileHash :=
      List.mem_filter.mpr ⟨hmem (List.mem_append_left _ (List.mem_map_of_mem hhash)), rfl⟩
    rw [l.filter_isFileHash] at hcall
    obtain ⟨hashName, hashBytes, heq, hwords⟩ := MdEncode.fileHash_words hcall
    rw [FormatterCall.encodeFileHash.injEq] at heq
    rwa [heq.1, heq.2]
  · obtain ⟨bytes, heq⟩ := hblock block hmem
    obtain ⟨hashList, modExp, mod, heq', hitems, -⟩ := l.block_items bytes
    rw [heq', FormatterCall.encodeBlock.injEq] at heq
    rw [← heq.2.1, ← heq.2.2.2]
    exact ⟨hitems, isWord_decimal mod⟩
  · obtain ⟨bytes, heq⟩ := hblock block hmem
    obtain ⟨digest, rfl⟩ := MdEncode.third_digest heq htext
    rw [length_hexEncode]
    exact even_two_mul digest.length

/-- Lists of items and words leave the name, the path and the time. -/
theorem Worded.plain_iff (h : f.Worded) :
    f.Plain ↔ ∀ text ∈ f.names, Xml.IsPlain text ∧ Csv.isPlain text = true := by
  have hjoin {list : List (List UInt8)} (h : ∀ text ∈ list, IsItem text) :
      IsWord (joinTexts list) :=
    isWord_joinTexts fun text hmem => (h text hmem).1
  have hlists := h.lists
  simp only [List.forall_mem_cons] at hlists
  obtain ⟨hfile, hblock, -⟩ := hlists
  constructor
  · intro hplain text hmem
    have hmem' : text ∈ f.header.texts := by
      simp only [names, EncodedHeader.texts, List.mem_cons] at hmem ⊢
      tauto
    exact ⟨hplain.xml text (List.mem_append_left _ (List.mem_append_left _ hmem')),
      hplain.csv text hmem'⟩
  · intro hnames
    simp only [names, List.forall_mem_cons] at hnames
    obtain ⟨hname, hpath, htime, -⟩ := hnames
    refine ⟨?_, ?_, ?_⟩
    · simp only [EncodedFile.texts, EncodedHeader.texts, List.forall_mem_append,
        List.forall_mem_cons, List.forall_mem_flatMap]
      refine ⟨⟨⟨hname.1, hpath.1, isPlain_of_isWord (hjoin hfile), isPlain_of_isWord (hjoin hblock),
        htime.1, by simp⟩, fun hash hmem => ?_⟩, fun block hmem => ?_⟩
      · obtain ⟨hhashName, hhashBytes⟩ := h.hashes hash hmem
        exact ⟨isPlain_of_isWord hhashName, isPlain_of_isWord hhashBytes, by simp⟩
      · obtain ⟨hlist, hmod⟩ := h.blocks block hmem
        exact ⟨isPlain_of_isWord (hjoin hlist), isPlain_of_isWord hmod, by simp⟩
    · simp only [EncodedHeader.texts, List.forall_mem_cons]
      exact ⟨hname.2, hpath.2, csv_isPlain_of_isWord (hjoin hfile),
        csv_isPlain_of_isWord (hjoin hblock), htime.2, by simp⟩
    · simp only [EncodedFile.lists, List.forall_mem_cons, List.forall_mem_map]
      exact ⟨joinable_of_items hfile, joinable_of_items hblock,
        fun block hmem => joinable_of_items (h.blocks block hmem).1⟩

theorem Worded.bare (h : f.Worded) : f.Bare := by
  have hword {text : List UInt8} (h : IsWord text) : Csv.isBare text = true :=
    Csv.isBare_of_isPlain (csv_isPlain_of_isWord h)
  refine ⟨fun hash hmem => ?_, fun block hmem => ?_⟩
  · obtain ⟨hname, hbytes⟩ := h.hashes hash hmem
    exact ⟨hword hname, hword hbytes⟩
  · obtain ⟨hlist, hmod⟩ := h.blocks block hmem
    exact ⟨fun text htext => hword (hlist text htext).1, hword hmod⟩

end EncodedFile

/-- Where a header has the number of the format, a block has a digest. -/
theorem apart_of_worded {files : List EncodedFile} (h : ∀ f ∈ files, f.Worded) :
    MdFormatCSV.Apart files := by
  intro f _ g hg block hblock heq
  have hlength := congrArg List.length heq
  have hformat : (MdFormatCSV.blockFields 102 block)[3]? = some (ascii "102") := by
    rw [← heq]
    rfl
  by_cases hnil : block.hashList = []
  · simp [MdFormatCSV.headerFields, MdFormatCSV.blockFields, hnil] at hlength
  · have hsix : block.hashList.length = 6 := by
      simpa [MdFormatCSV.headerFields, MdFormatCSV.blockFields, hnil] using hlength.symm
    have hthird : block.hashList[2]? = some (ascii "102") := by
      rw [← hformat]
      simp [MdFormatCSV.blockFields, hnil, hsix]
    have heven := (h g hg).digests block hblock _ hthird
    exact absurd heven (by decide)

theorem IsRun.worded {files : List EncodedFile} (h : IsRun files) : ∀ f ∈ files, f.Worded := by
  obtain ⟨l, inputs, hrun⟩ := h
  rw [l.mdencode_eq, Option.some.injEq] at hrun
  intro f hmem
  obtain ⟨k, hk⟩ := List.mem_iff_getElem?.mp hmem
  have hcalls : (l.directoryCalls [] inputs)[k]? = some f.calls := by
    rw [hrun, List.getElem?_map, hk, Option.map_some]
  rw [l.getElem?_directoryCalls] at hcalls
  obtain ⟨file, -, heq⟩ := Option.map_eq_some_iff.mp hcalls
  exact .of_calls heq.symm

/-- The texts of two runs of `mdencode` are unambiguous exactly when the names,
the paths and the times can stand in them as they are. Of other values every
text of an unambiguous run is plain, and plain texts are enough where those
behind the header are bare and no block looks like a header. -/
theorem unambiguous_iff (a b : List EncodedFile) :
    (IsRun a → IsRun b → (Unambiguous a b ↔ ∀ f ∈ a ++ b, ∀ text ∈ f.names,
      Xml.IsPlain text ∧ Csv.isPlain text = true)) ∧
    (Unambiguous a b → ∀ f ∈ a ++ b, f.Plain) ∧
    ((∀ f ∈ a ++ b, f.Plain ∧ f.Bare) → MdFormatCSV.Apart (a ++ b) → Unambiguous a b) := by
  refine ⟨fun ha hb => ?_, fun h => h.plain, fun h => ?_⟩
  · have hworded : ∀ f ∈ a ++ b, f.Worded := by
      intro f hmem
      rcases List.mem_append.mp hmem with hmem | hmem
      · exact ha.worded f hmem
      · exact hb.worded f hmem
    constructor
    · exact fun h f hmem => (hworded f hmem).plain_iff.mp (h.plain f hmem)
    · exact fun h => unambiguous_of_plain
        (fun f hmem => (hworded f hmem).plain_iff.mpr (h f hmem))
        (fun f hmem => (hworded f hmem).bare) (apart_of_worded hworded)
  · exact unambiguous_of_plain (fun f hmem => (h f hmem).1) fun f hmem => (h f hmem).2

def clockText : List UInt8 := ascii "2017-01-01 12:00:00 +0000 UTC"

/-- A file of one byte with a file hash and a block. -/
def wordFile (name content : UInt8) : EncodedFile where
  header := {
    fileName := [name]
    filePath := [47]
    fileSize := 1
    blockSize := 1
    filehashList := [ascii "add32"]
    blockhashList := [ascii "crc32"]
    modulusSize := 8
    time := clockText }
  hashes := [⟨ascii "add32", hexEncode (adler32.sum [content])⟩]
  blocks := [⟨1, [hexEncode (crc32.sum [content])], logN content.toNat 2,
    decimal content.toNat⟩]

theorem isRun_wordFile : IsRun [wordFile 97 1] ∧ IsRun [wordFile 98 2] :=
  ⟨⟨MdEncode.byteBlocks false, [MdEncode.fileA], by decide +kernel⟩,
    ⟨MdEncode.byteBlocks false, [MdEncode.fileB], by decide +kernel⟩⟩

theorem unambiguous_iff_words : Unambiguous [wordFile 97 1] [wordFile 98 2] := by
  refine ((unambiguous_iff [wordFile 97 1] [wordFile 98 2]).1 isRun_wordFile.1
    isRun_wordFile.2).mpr ?_
  have hword : ∀ f ∈ [wordFile 97 1] ++ [wordFile 98 2], ∀ text ∈ f.names,
      ∀ b ∈ text, isWordByte b = true := by
    decide +kernel
  exact fun f hmem text htext => ⟨isPlain_of_isWord (hword f hmem text htext),
    csv_isPlain_of_isWord (hword f hmem text htext)⟩

/-- A file under a name with an ampersand. -/
def ampersandFile : EncodedFile where
  header := {
    fileName := ascii "a&b"
    filePath := ascii "/"
    fileSize := 1
    blockSize := 0
    filehashList := []
    blockhashList := []
    modulusSize := 0
    time := clockText }
  hashes := []
  blocks := []

/-- An ampersand in a name makes an element that is not well formed. -/
theorem ampersand_not_unambiguous : ¬ ∀ a b : List EncodedFile, Unambiguous a b := by
  intro h
  have hxml := (h [ampersandFile] []).xml ampersandFile List.mem_cons_self
  obtain ⟨chars, hchars, hdata, -⟩ :=
    ampersandFile.readsAsXml_iff.mp hxml (ascii "a&b") List.mem_cons_self
  have hname : encode "a&b".toList = ascii "a&b" := encode_toList (by decide)
  obtain rfl := encode_injective (hname.trans hchars)
  exact (hdata.1 '&' (by decide)).2.2 rfl

end Mdencode.Go
