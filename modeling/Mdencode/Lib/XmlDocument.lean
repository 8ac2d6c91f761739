import Mdencode.Lib.Separated
import Mdencode.Lib.Xml

/-! Documents of texts under names, printed without escapes: records in an
element, each on a line of its own and with its texts in elements below it. They
are read back exactly when every text is character data. -/

namespace Mdencode.Xml

open Mdencode.Bytes Mdencode.Unicode

structure Record (α : Type*) where
  name : String
  fields : List (String × α)

structure Document (α : Type*) where
  name : String
  records : List (Record α)

section
variable {α β : Type*}

def Record.map (f : α → β) (r : Record α) : Record β :=
  { r with fields := r.fields.map fun field => (field.1, f field.2) }

def Document.map (f : α → β) (d : Document α) : Document β :=
  { d with records := d.records.map (Record.map f) }

def Record.texts (r : Record α) : List α := r.fields.map Prod.snd

def Document.texts (d : Document α) : List α := d.records.flatMap Record.texts

def Record.names (r : Record α) : List String := r.name :: r.fields.map Prod.fst

def Document.names (d : Document α) : List String := d.name :: d.records.flatMap Record.names

/-! Printing, with the characters of a tag as bytes or as they are -/

variable (lit : String → List β)

def tag (name : String) (inner : List β) : List β :=
  lit "<" ++ lit name ++ lit ">" ++ inner ++ lit "</" ++ lit name ++ lit ">"

def Record.print (r : Record (List β)) : List β :=
  tag lit r.name (r.fields.flatMap fun field => tag lit field.1 field.2)

def Document.print (d : Document (List β)) : List β :=
  tag lit d.name (d.records.flatMap fun r => r.print lit ++ lit "\n")

end

/-! The tree of a document -/

def fieldNode (field : String × List Char) : Node :=
  .element field.1.toList [] (field.2.map .char)

def Record.node (r : Record (List Char)) : Node :=
  .element r.name.toList [] (r.fields.map fieldNode)

def Document.node (d : Document (List Char)) : Node :=
  .element d.name.toList [] (d.records.flatMap fun r => [r.node, .char '\n'])

/-- Names that tags can have, in ASCII. -/
def goodName (name : String) : Bool :=
  isName name.toList && name.toList.all fun c => c.toNat < 128

theorem isNameChar_of_mem {name : String} (h : goodName name = true) {c : Char}
    (hc : c ∈ name.toList) : isNameChar c = true := by
  unfold goodName at h
  cases hname : name.toList with
  | nil => rw [hname] at hc; cases hc
  | cons d rest =>
    simp only [hname, isName, Bool.and_eq_true, List.all_eq_true] at h
    rw [hname] at hc
    rcases List.mem_cons.mp hc with rfl | hmem
    · simp [isNameChar, h.1.1]
    · exact h.1.2 c hmem

/-- What a tag is made with stands in no name. -/
theorem ne_of_mem_name {name : String} (h : goodName name = true) {c d : Char}
    (hc : c ∈ name.toList) (hd : isNameChar d = false) : c ≠ d := by
  rintro rfl
  rw [isNameChar_of_mem h hc] at hd
  cases hd

section
variable {α : Type*} {r : Record α} {d : Document α}

theorem Record.good_field (h : ∀ name ∈ r.names, goodName name = true) {field : String × α}
    (hmem : field ∈ r.fields) : goodName field.1 = true :=
  h field.1 (List.mem_cons_of_mem _ (List.mem_map_of_mem hmem))

theorem Record.mem_texts {field : String × α} (hmem : field ∈ r.fields) : field.2 ∈ r.texts :=
  List.mem_map_of_mem hmem

theorem Document.good_record (h : ∀ name ∈ d.names, goodName name = true) (hmem : r ∈ d.records) :
    ∀ name ∈ r.names, goodName name = true := fun name hname =>
  h name (List.mem_cons_of_mem _ (List.mem_flatMap.mpr ⟨r, hmem, hname⟩))

theorem Document.mem_texts (hmem : r ∈ d.records) {text : α} (htext : text ∈ r.texts) :
    text ∈ d.texts := List.mem_flatMap.mpr ⟨r, hmem, htext⟩

end

/-! What is written is what is read -/

theorem special_tag {name : String} (h : goodName name = true) (inner : List Char) :
    (tag String.toList name inner).countP special = inner.countP special := by
  have hname : name.toList.countP special = 0 := by
    rw [List.countP_eq_zero]
    intro c hc hspecial
    simp only [special, Bool.or_eq_true, decide_eq_true_eq] at hspecial
    rcases hspecial with ((rfl | rfl) | rfl) | rfl <;> exact ne_of_mem_name h hc (by decide) rfl
  have hmarks : "<".toList.countP special = 0 ∧ ">".toList.countP special = 0 ∧
      "</".toList.countP special = 0 := by decide
  simp only [tag, List.countP_append, hname, hmarks]
  omega

theorem texts_map_fieldNode (fields : List (String × List Char)) :
    texts (fields.map fieldNode) = fields.flatMap Prod.snd := by
  induction fields with
  | nil => simp [texts]
  | cons field fields ih => simp [texts, fieldNode, Node.text, ih]

theorem Record.special_print {r : Record (List Char)} (h : ∀ name ∈ r.names, goodName name = true) :
    (r.print String.toList).countP special = r.node.text.countP special := by
  rw [Record.print, special_tag (h r.name List.mem_cons_self), Record.node, Node.text,
    texts_map_fieldNode, List.countP_flatMap, List.countP_flatMap]
  apply congrArg List.sum
  apply List.map_congr_left
  intro field hmem
  exact special_tag (Record.good_field h hmem) field.2

theorem texts_flatMap_node (records : List (Record (List Char))) :
    texts (records.flatMap fun r => [r.node, .char '\n']) =
      records.flatMap fun r => r.node.text ++ ['\n'] := by
  induction records with
  | nil => simp [texts]
  | cons r records ih => simp [texts, Node.text, ih]

theorem Document.special_print {d : Document (List Char)}
    (h : ∀ name ∈ d.names, goodName name = true) :
    (d.print String.toList).countP special = d.node.text.countP special := by
  rw [Document.print, special_tag (h d.name List.mem_cons_self), Document.node, Node.text,
    texts_flatMap_node, List.countP_flatMap, List.countP_flatMap]
  apply congrArg List.sum
  apply List.map_congr_left
  intro r hmem
  rw [Function.comp_apply, Function.comp_apply, List.countP_append, List.countP_append,
    Record.special_print (Document.good_record h hmem)]
  rfl

theorem mem_leavesOf {text : List Char} {node : Node} {nodes : List Node} (hmem : node ∈ nodes)
    (h : text ∈ node.leaves) : text ∈ leavesOf nodes := by
  induction nodes with
  | nil => cases hmem
  | cons other nodes ih =>
    rw [leavesOf, List.mem_append]
    rcases List.mem_cons.mp hmem with rfl | hmem
    · exact .inl h
    · exact .inr (ih hmem)

theorem charsOf_eq_none {node : Node} {nodes : List Node} (hmem : node ∈ nodes)
    (h : charsOf [node] = none) : charsOf nodes = none := by
  induction nodes with
  | nil => cases hmem
  | cons other nodes ih =>
    cases other with
    | element => rfl
    | char c =>
      rcases List.mem_cons.mp hmem with rfl | hmem
      · cases h
      · rw [charsOf, ih hmem, Option.map_none]

/-- An element below an element is no text, and its texts are among the texts. -/
theorem leaves_element {text : List Char} {node : Node} {nodes : List Node} (hmem : node ∈ nodes)
    (hnode : charsOf [node] = none) (h : text ∈ node.leaves) (name : List Char) :
    text ∈ (Node.element name [] nodes).leaves := by
  rw [Node.leaves, charsOf_eq_none hmem hnode]
  exact mem_leavesOf hmem h

theorem Document.mem_leaves {d : Document (List Char)} {text : List Char} (h : text ∈ d.texts) :
    text ∈ d.node.leaves := by
  obtain ⟨r, hr, htext⟩ := List.mem_flatMap.mp h
  obtain ⟨field, hfield, rfl⟩ := List.mem_map.mp htext
  have hleaf : field.2 ∈ (fieldNode field).leaves := by simp [fieldNode, Node.leaves]
  have hrecord := leaves_element (List.mem_map_of_mem hfield) rfl hleaf r.name.toList
  exact leaves_element (List.mem_flatMap.mpr ⟨r, hr, List.mem_cons_self⟩) rfl hrecord d.name.toList

/-! Texts without markup make an element -/

theorem derives_tag {name : String} (h : goodName name = true) {inner : List Char}
    {children : List Node} (hinner : Derives .content inner children) :
    Derives .markup (tag String.toList name inner) [.element name.toList [] children] := by
  have hname : isName name.toList = true := (Bool.and_eq_true_iff.mp h).1
  have hspace : ([] : List Char).all isSpace = true := rfl
  have hderives := Derives.element hname (.nil hspace) hinner hspace
  simpa [tag] using hderives

theorem derives_flatMap {α : Type*} {sep : List Char} (hsep : IsCharData sep) {raw : α → List Char}
    {node : α → Node} {items : List α} (h : ∀ item ∈ items, Derives .markup (raw item) [node item])
    {text : List Char} (htext : IsCharData text) :
    Derives .content (text ++ items.flatMap fun item => raw item ++ sep)
      (text.map .char ++ items.flatMap fun item => node item :: sep.map .char) := by
  induction items generalizing text with
  | nil => simpa using Derives.text htext
  | cons item items ih =>
    have hrest := ih (fun other hmem => h other (List.mem_cons_of_mem _ hmem)) hsep
    have hmore := Derives.more htext (h item List.mem_cons_self) hrest
    simpa using hmore

theorem isCharData_newline : IsCharData ['\n'] := ⟨by simp [isChar], by decide⟩

theorem isCharData_nil : IsCharData [] := ⟨by simp, by simp⟩

theorem Record.derives_print {r : Record (List Char)} (h : ∀ name ∈ r.names, goodName name = true)
    (htexts : ∀ text ∈ r.texts, IsCharData text) :
    Derives .markup (r.print String.toList) [r.node] := by
  have hfields : ∀ field ∈ r.fields,
      Derives .markup (tag String.toList field.1 field.2) [fieldNode field] := fun field hmem =>
    derives_tag (Record.good_field h hmem) (.text (htexts field.2 (Record.mem_texts hmem)))
  have hcontent := derives_flatMap isCharData_nil hfields isCharData_nil
  simp only [List.append_nil, List.map_nil, List.nil_append] at hcontent
  have hchildren : (r.fields.flatMap fun field => [fieldNode field]) = r.fields.map fieldNode :=
    List.map_eq_flatMap.symm
  rw [hchildren] at hcontent
  exact derives_tag (h r.name List.mem_cons_self) hcontent

theorem Document.derives_print {d : Document (List Char)}
    (h : ∀ name ∈ d.names, goodName name = true) (htexts : ∀ text ∈ d.texts, IsCharData text) :
    Derives .markup (d.print String.toList) [d.node] := by
  have hrecords : ∀ r ∈ d.records, Derives .markup (r.print String.toList) [r.node] := fun r hmem =>
    Record.derives_print (Document.good_record h hmem) fun text htext =>
      htexts text (Document.mem_texts hmem htext)
  have hcontent := derives_flatMap isCharData_newline hrecords isCharData_nil
  exact derives_tag (h d.name List.mem_cons_self) hcontent

/-! Characters of the text -/

theorem mem_tag {name : String} (h : goodName name = true) {inner : List Char} {c : Char}
    (hc : c ∈ tag String.toList name inner) :
    c ∈ inner ∨ isNameChar c = true ∨ c ∈ "</>".toList := by
  have hname (hmem : c ∈ name.toList) := isNameChar_of_mem h hmem
  have hopen :
      "<".toList ⊆ "</>".toList ∧ ">".toList ⊆ "</>".toList ∧ "</".toList ⊆ "</>".toList := by
    decide
  simp only [tag, List.mem_append] at hc
  rcases hc with (((((hc | hc) | hc) | hc) | hc) | hc) | hc
  · exact .inr (.inr (hopen.1 hc))
  · exact .inr (.inl (hname hc))
  · exact .inr (.inr (hopen.2.1 hc))
  · exact .inl hc
  · exact .inr (.inr (hopen.2.2 hc))
  · exact .inr (.inl (hname hc))
  · exact .inr (.inr (hopen.2.1 hc))

/-- A character that is none of a tag and not the end of a line is in a text. -/
theorem Document.exists_mem_texts {d : Document (List Char)}
    (h : ∀ name ∈ d.names, goodName name = true) {c : Char} (hc : c ∈ d.print String.toList)
    (hname : isNameChar c = false) (hmark : c ∉ "</>\n".toList) : ∃ text ∈ d.texts, c ∈ text := by
  have hin {name : String} (h : goodName name = true) {inner : List Char}
      (hc : c ∈ tag String.toList name inner) : c ∈ inner := by
    rcases mem_tag h hc with hc | hc | hc
    · exact hc
    · rw [hname] at hc; cases hc
    · exact absurd (show c ∈ "</>\n".toList by simp_all) hmark
  obtain ⟨r, hr, hc⟩ := List.mem_flatMap.mp (hin (h d.name List.mem_cons_self) hc)
  rcases List.mem_append.mp hc with hc | hc
  · have hnames := Document.good_record h hr
    obtain ⟨field, hfield, hc⟩ := List.mem_flatMap.mp (hin (hnames r.name List.mem_cons_self) hc)
    exact ⟨field.2, Document.mem_texts hr (Record.mem_texts hfield),
      hin (Record.good_field hnames hfield) hc⟩
  · exact absurd (show c ∈ "</>\n".toList by simp_all) hmark

/-! From characters to bytes -/

theorem encode_name {name : String} (h : goodName name = true) :
    encode name.toList = ascii name := encode_toList (Bool.and_eq_true_iff.mp h).2

theorem encode_tag {name : String} (h : goodName name = true) (inner : List Char) :
    encode (tag String.toList name inner) = tag ascii name (encode inner) := by
  have hmarks : encode "<".toList = ascii "<" ∧ encode ">".toList = ascii ">" ∧
      encode "</".toList = ascii "</" :=
    ⟨encode_toList (by decide), encode_toList (by decide), encode_toList (by decide)⟩
  simp only [tag, encode_append, encode_name h, hmarks]

theorem Record.encode_print {r : Record (List Char)} (h : ∀ name ∈ r.names, goodName name = true) :
    encode (r.print String.toList) = (r.map encode).print ascii := by
  rw [Record.print, encode_tag (h r.name List.mem_cons_self), encode_flatMap, Record.print,
    Record.map, List.flatMap_map]
  apply congrArg (tag ascii r.name)
  apply List.flatMap_congr
  intro field hmem
  exact encode_tag (Record.good_field h hmem) field.2

theorem Document.encode_print {d : Document (List Char)}
    (h : ∀ name ∈ d.names, goodName name = true) :
    encode (d.print String.toList) = (d.map encode).print ascii := by
  have hend : encode "\n".toList = ascii "\n" := encode_toList (by decide)
  rw [Document.print, encode_tag (h d.name List.mem_cons_self), encode_flatMap, Document.print,
    Document.map, List.flatMap_map]
  apply congrArg (tag ascii d.name)
  apply List.flatMap_congr
  intro r hmem
  rw [encode_append, hend, Record.encode_print (Document.good_record h hmem)]

/-! What is read back -/

/-- Character data with its ends of lines as they are read. -/
def IsPlain (text : List UInt8) : Prop :=
  ∃ chars, text = encode chars ∧ IsCharData chars ∧ '\r' ∉ chars

/-- The bytes are the element of a document with these texts. -/
def IsDocument (text : List UInt8) (d : Document (List UInt8)) : Prop :=
  ∃ d' : Document (List Char), d'.map encode = d ∧ IsElement text d'.node

section
variable {α β : Type*}

@[simp] theorem Record.names_map (f : α → β) (r : Record α) : (r.map f).names = r.names := by
  simp [Record.names, Record.map]

@[simp] theorem Record.texts_map (f : α → β) (r : Record α) : (r.map f).texts = r.texts.map f := by
  simp [Record.texts, Record.map]

@[simp] theorem Document.names_map (f : α → β) (d : Document α) : (d.map f).names = d.names := by
  simp [Document.names, Document.map, List.flatMap_map]

@[simp] theorem Document.texts_map (f : α → β) (d : Document α) :
    (d.map f).texts = d.texts.map f := by
  simp [Document.texts, Document.map, List.flatMap_map, List.map_flatMap]

theorem Record.map_eq_self {f : α → α} {r : Record α} (h : ∀ text ∈ r.texts, f text = text) :
    r.map f = r := by
  have hfields : r.fields.map (fun field => (field.1, f field.2)) = r.fields.map id :=
    List.map_congr_left fun field hmem => by rw [h field.2 (Record.mem_texts hmem)]; rfl
  rw [Record.map, hfields, List.map_id]

theorem Document.map_eq_self {f : α → α} {d : Document α} (h : ∀ text ∈ d.texts, f text = text) :
    d.map f = d := by
  have hrecords : d.records.map (Record.map f) = d.records.map id :=
    List.map_congr_left fun r hmem =>
      Record.map_eq_self fun text htext => h text (Document.mem_texts hmem htext)
  rw [Document.map, hrecords, List.map_id]

theorem Document.map_map {γ : Type*} (f : α → β) (g : β → γ) (d : Document α) :
    (d.map f).map g = d.map (g ∘ f) := by
  simp [Document.map, Record.map, Function.comp_def]

/-- A document put back from what its texts were made of. -/
theorem Document.exists_map_eq [Nonempty α] {f : α → β} {P : α → Prop} {d : Document β}
    (h : ∀ text ∈ d.texts, ∃ a, text = f a ∧ P a) :
    ∃ d' : Document α, d'.map f = d ∧ ∀ a ∈ d'.texts, P a := by
  choose! g hg hP using h
  refine ⟨d.map g, ?_, ?_⟩
  · rw [Document.map_map]
    exact Document.map_eq_self fun text hmem => (hg text hmem).symm
  · rw [Document.texts_map]
    intro a hmem
    obtain ⟨text, htext, rfl⟩ := List.mem_map.mp hmem
    exact hP text htext

end

theorem isDocument_print_iff {d : Document (List UInt8)}
    (h : ∀ name ∈ d.names, goodName name = true) :
    IsDocument (d.print ascii) d ↔ ∀ text ∈ d.texts, IsPlain text := by
  constructor
  · rintro ⟨d', rfl, chars, hchars, hderives, -⟩ text hmem
    rw [Document.names_map] at h
    rw [← Document.encode_print h] at hchars
    obtain rfl := encode_injective hchars
    have hcost : (normalizeEol (d'.print String.toList)).countP special ≤
        (texts [d'.node]).countP special := by
      rw [special_normalizeEol, Document.special_print h]
      simp [texts]
    rw [Document.texts_map] at hmem
    obtain ⟨chars, hchars, rfl⟩ := List.mem_map.mp hmem
    have hleaf : chars ∈ leavesOf [d'.node] := by
      simpa [leavesOf] using Document.mem_leaves hchars
    have hliteral := (hderives.literal hcost).1 chars hleaf
    exact ⟨chars, rfl, hliteral.1, fun hcr => cr_notMem_normalizeEol _ (hliteral.2 hcr)⟩
  · intro hplain
    obtain ⟨d', rfl, htexts⟩ := Document.exists_map_eq hplain
    rw [Document.names_map] at h
    have hcr : '\r' ∉ d'.print String.toList := by
      intro hmem
      obtain ⟨text, htext, hcr⟩ := Document.exists_mem_texts h hmem (by decide) (by decide)
      exact (htexts text htext).2 hcr
    refine ⟨d', rfl, d'.print String.toList, (Document.encode_print h).symm, ?_, _, _, _, rfl⟩
    rw [normalizeEol_of_notMem hcr]
    exact Document.derives_print h fun text htext => (htexts text htext).1

/-! Different documents have different texts -/

/-- Tags can be told from texts. -/
structure Record.Separate (r : Record (List Char)) : Prop where
  names : ∀ name ∈ r.names, goodName name = true
  texts : ∀ text ∈ r.texts, '<' ∉ text

structure Document.Separate (d : Document (List Char)) : Prop where
  names : ∀ name ∈ d.names, goodName name = true
  texts : ∀ text ∈ d.texts, '<' ∉ text

/-- A closing tag comes next. -/
def Closing (text : List Char) : Prop := ∃ rest, text = '<' :: '/' :: rest

theorem tag_append (name : String) (inner r : List Char) :
    tag String.toList name inner ++ r =
      '<' :: (name.toList ++ '>' :: (inner ++ '<' :: '/' :: (name.toList ++ '>' :: r))) := by
  simp [tag]

theorem not_closing_tag {name : String} (h : goodName name = true) (inner r : List Char) :
    ¬ Closing (tag String.toList name inner ++ r) := by
  rintro ⟨rest, heq⟩
  have hname : isName name.toList = true := (Bool.and_eq_true_iff.mp h).1
  rw [tag_append, List.cons.injEq] at heq
  cases hchars : name.toList with
  | nil => rw [hchars] at hname; cases hname
  | cons c chars =>
    rw [hchars, List.cons_append, List.cons.injEq] at heq
    exact ne_of_mem_name h (by rw [hchars]; exact List.mem_cons_self) (by decide) heq.2.1

/-- The name of a tag is read off its text. -/
theorem tag_append_inj {name name' : String} (h : goodName name = true) (h' : goodName name' = true)
    {inner inner' r s : List Char}
    (heq : tag String.toList name inner ++ r = tag String.toList name' inner' ++ s) :
    name = name' ∧ inner ++ '<' :: '/' :: (name.toList ++ '>' :: r) =
      inner' ++ '<' :: '/' :: (name.toList ++ '>' :: s) := by
  have hgt {name : String} (h : goodName name = true) : '>' ∉ name.toList := fun hmem =>
    ne_of_mem_name h hmem (by decide) rfl
  rw [tag_append, tag_append, List.cons.injEq] at heq
  obtain ⟨hname, hrest⟩ := Separated.append_cons_inj (hgt h) (hgt h') heq.2
  obtain rfl := String.toList_injective hname
  exact ⟨rfl, hrest⟩

theorem field_append_inj (a b : String × List Char) (ha : goodName a.1 = true ∧ '<' ∉ a.2)
    (hb : goodName b.1 = true ∧ '<' ∉ b.2) (r s : List Char)
    (h : tag String.toList a.1 a.2 ++ r = tag String.toList b.1 b.2 ++ s) : a = b ∧ r = s := by
  obtain ⟨hname, hrest⟩ := tag_append_inj ha.1 hb.1 h
  obtain ⟨htext, hend⟩ := Separated.append_cons_inj ha.2 hb.2 hrest
  refine ⟨Prod.ext hname htext, ?_⟩
  simpa using hend

theorem Record.Separate.field {r : Record (List Char)} (h : r.Separate) (field : String × List Char)
    (hmem : field ∈ r.fields) : goodName field.1 = true ∧ '<' ∉ field.2 :=
  ⟨Record.good_field h.names hmem, h.texts field.2 (Record.mem_texts hmem)⟩

theorem Record.print_append_inj (a b : Record (List Char)) (ha : a.Separate) (hb : b.Separate)
    (r s : List Char) (h : a.print String.toList ++ r = b.print String.toList ++ s) :
    a = b ∧ r = s := by
  obtain ⟨hname, hrest⟩ := tag_append_inj (ha.names a.name List.mem_cons_self)
    (hb.names b.name List.mem_cons_self) h
  obtain ⟨hfields, hend⟩ := Separated.flatMap_append_inj field_append_inj
    (fun field hfield => not_closing_tag hfield.1 field.2) ha.field hb.field ⟨_, rfl⟩ ⟨_, rfl⟩ hrest
  cases a
  cases b
  obtain rfl : _ = _ := hname
  obtain rfl : _ = _ := hfields
  exact ⟨rfl, by simpa using hend⟩

theorem Document.Separate.record {d : Document (List Char)} (h : d.Separate)
    (r : Record (List Char)) (hmem : r ∈ d.records) : r.Separate where
  names := Document.good_record h.names hmem
  texts text htext := h.texts text (Document.mem_texts hmem htext)

theorem Document.print_append_inj (a b : Document (List Char)) (ha : a.Separate) (hb : b.Separate)
    (r s : List Char) (h : a.print String.toList ++ "\n".toList ++ r =
      b.print String.toList ++ "\n".toList ++ s) : a = b ∧ r = s := by
  rw [List.append_assoc, List.append_assoc] at h
  obtain ⟨hname, hrest⟩ := tag_append_inj (ha.names a.name List.mem_cons_self)
    (hb.names b.name List.mem_cons_self) h
  have hline (x y : Record (List Char)) (hx : x.Separate) (hy : y.Separate) (r s : List Char)
      (h : x.print String.toList ++ "\n".toList ++ r = y.print String.toList ++ "\n".toList ++ s) :
      x = y ∧ r = s := by
    rw [List.append_assoc, List.append_assoc] at h
    obtain ⟨hxy, hend⟩ := Record.print_append_inj x y hx hy _ _ h
    exact ⟨hxy, List.append_cancel_left hend⟩
  have hopen (x : Record (List Char)) (hx : x.Separate) (r : List Char) :
      ¬ Closing (x.print String.toList ++ "\n".toList ++ r) := by
    rw [List.append_assoc]
    exact not_closing_tag (hx.names x.name List.mem_cons_self) _ _
  obtain ⟨hrecords, hend⟩ := Separated.flatMap_append_inj hline hopen ha.record hb.record ⟨_, rfl⟩
    ⟨_, rfl⟩ hrest
  cases a
  cases b
  obtain rfl : _ = _ := hname
  obtain rfl : _ = _ := hrecords
  exact ⟨rfl, by simpa using hend⟩

/-- Documents whose texts are character data. -/
structure Document.Plain (d : Document (List UInt8)) : Prop where
  names : ∀ name ∈ d.names, goodName name = true
  texts : ∀ text ∈ d.texts, IsPlain text

theorem Document.Plain.exists_separate {d : Document (List UInt8)} (h : d.Plain) :
    ∃ d' : Document (List Char), d'.map encode = d ∧ d'.Separate := by
  obtain ⟨d', rfl, htexts⟩ := Document.exists_map_eq h.texts
  have hnames := h.names
  rw [Document.names_map] at hnames
  exact ⟨d', rfl, hnames, fun text hmem hlt => ((htexts text hmem).1.1 '<' hlt).2.1 rfl⟩

theorem exists_separate {ds : List (Document (List UInt8))} (h : ∀ d ∈ ds, d.Plain) :
    ∃ ds' : List (Document (List Char)),
      ds'.map (Document.map encode) = ds ∧ ∀ d ∈ ds', d.Separate := by
  induction ds with
  | nil => exact ⟨[], rfl, by simp⟩
  | cons d ds ih =>
    obtain ⟨d', rfl, hd⟩ := (h d List.mem_cons_self).exists_separate
    obtain ⟨ds', rfl, hds⟩ := ih fun e hmem => h e (List.mem_cons_of_mem _ hmem)
    exact ⟨d' :: ds', rfl, List.forall_mem_cons.mpr ⟨hd, hds⟩⟩

/-- Documents one after the other are read off their text. -/
theorem documents_inj {ds es : List (Document (List UInt8))} (hds : ∀ d ∈ ds, d.Plain)
    (hes : ∀ d ∈ es, d.Plain)
    (h : (ds.flatMap fun d => d.print ascii ++ ascii "\n") =
      es.flatMap fun d => d.print ascii ++ ascii "\n") : ds = es := by
  have hencode {ds : List (Document (List Char))} (hds : ∀ d ∈ ds, d.Separate) :
      ((ds.map (Document.map encode)).flatMap fun d => d.print ascii ++ ascii "\n") =
        encode (ds.flatMap fun d => d.print String.toList ++ "\n".toList) := by
    have hend : encode "\n".toList = ascii "\n" := encode_toList (by decide)
    rw [encode_flatMap, List.flatMap_map]
    apply List.flatMap_congr
    intro d hmem
    rw [encode_append, hend, Document.encode_print (hds d hmem).names]
  obtain ⟨ds', rfl, hds'⟩ := exists_separate hds
  obtain ⟨es', rfl, hes'⟩ := exists_separate hes
  rw [hencode hds', hencode hes'] at h
  have hchars := encode_injective h
  rw [← List.append_nil (ds'.flatMap _), ← List.append_nil (es'.flatMap _)] at hchars
  have hstop (d : Document (List Char)) (_ : d.Separate) (r : List Char) :
      ¬ [] = d.print String.toList ++ "\n".toList ++ r := by simp
  rw [(Separated.flatMap_append_inj Document.print_append_inj hstop hds' hes' rfl rfl hchars).1]

end Mdencode.Xml
