import Mdencode.Lib.Numerals
import Mdencode.Lib.Unicode

/-! XML elements, as the grammar of XML 1.0 has them: what derives an element is
a sequence of characters, and what it stands for a tree. -/

namespace Mdencode.Xml

open Mdencode.Numerals Mdencode.Unicode

/-! Characters -/

/-- What a document may hold. -/
def isChar (c : Char) : Bool :=
  c = '\t' || c = '\n' || c = '\r' || (32 ≤ c.toNat && c.toNat ≤ 0xFFFD) || 0x10000 ≤ c.toNat

def isSpace (c : Char) : Bool := c = ' ' || c = '\t' || c = '\n' || c = '\r'

def inRanges (ranges : List (ℕ × ℕ)) (c : Char) : Bool :=
  ranges.any fun (first, last) => first ≤ c.toNat && c.toNat ≤ last

def isNameStart (c : Char) : Bool :=
  inRanges [(58, 58), (65, 90), (95, 95), (97, 122), (0xC0, 0xD6), (0xD8, 0xF6), (0xF8, 0x2FF),
    (0x370, 0x37D), (0x37F, 0x1FFF), (0x200C, 0x200D), (0x2070, 0x218F), (0x2C00, 0x2FEF),
    (0x3001, 0xD7FF), (0xF900, 0xFDCF), (0xFDF0, 0xFFFD), (0x10000, 0xEFFFF)] c

def isNameChar (c : Char) : Bool :=
  isNameStart c || inRanges [(45, 46), (48, 57), (0xB7, 0xB7), (0x300, 0x36F), (0x203F, 0x2040)] c

def isName : List Char → Bool
  | [] => false
  | c :: rest => isNameStart c && rest.all isNameChar

/-- The end of a line is one character, whichever way it is written. -/
def normalizeEol : List Char → List Char
  | [] => []
  | '\r' :: '\n' :: rest => '\n' :: normalizeEol rest
  | '\r' :: rest => '\n' :: normalizeEol rest
  | c :: rest => c :: normalizeEol rest

/-- Text between markup. -/
def IsCharData (text : List Char) : Prop :=
  (∀ c ∈ text, isChar c = true ∧ c ≠ '<' ∧ c ≠ '&') ∧ ¬ [']', ']', '>'] <:+: text

/-! References -/

def predefined : String → Option Char
  | "lt" => some '<'
  | "gt" => some '>'
  | "amp" => some '&'
  | "apos" => some '\''
  | "quot" => some '"'
  | _ => none

/-- The value of a digit of a base up to sixteen. -/
def digitValue (base : ℕ) (c : Char) : Option ℕ :=
  let value :=
    if '0' ≤ c ∧ c ≤ '9' then c.toNat - 48
    else if 'A' ≤ c ∧ c ≤ 'F' then c.toNat - 55
    else if 'a' ≤ c ∧ c ≤ 'f' then c.toNat - 87
    else base
  if value < base then some value else none

inductive IsReference : List Char → Char → Prop
  | entity {name : String} {c : Char} (h : predefined name = some c) :
    IsReference ('&' :: name.toList ++ [';']) c
  | number {base : ℕ} {mark : List Char} {digits : List Char} {values : List ℕ} {c : Char}
    (hbase : (base, mark) = (10, ['#']) ∨ (base, mark) = (16, ['#', 'x'])) (hne : digits ≠ [])
    (hdigits : digits.mapM (digitValue base) = some values)
    (hvalue : numeral base 0 values = c.toNat) (hchar : isChar c = true) :
    IsReference ('&' :: mark ++ digits ++ [';']) c

/-! Attributes -/

/-- The value of an attribute, as it is written and as it is read. -/
inductive IsAttValue (quote : Char) : List Char → List Char → Prop
  | nil : IsAttValue quote [] []
  | char {c : Char} {raw value : List Char} (hchar : isChar c = true)
    (hmarkup : c ≠ '<' ∧ c ≠ '&' ∧ c ≠ quote) (hrest : IsAttValue quote raw value) :
    IsAttValue quote (c :: raw) ((if isSpace c then ' ' else c) :: value)
  | reference {c : Char} {reference raw value : List Char} (href : IsReference reference c)
    (hrest : IsAttValue quote raw value) : IsAttValue quote (reference ++ raw) (c :: value)

/-- The attributes of a tag, with the space behind the last one. -/
inductive IsAttributes : List Char → List (List Char × List Char) → Prop
  | nil {space : List Char} (hspace : space.all isSpace = true) : IsAttributes space []
  | cons {space name before after raw value rest : List Char} {quote : Char}
    {attributes : List (List Char × List Char)} (hspace : space ≠ [] ∧ space.all isSpace = true)
    (hname : isName name = true) (heq : before.all isSpace = true ∧ after.all isSpace = true)
    (hquote : quote = '"' ∨ quote = '\'') (hvalue : IsAttValue quote raw value)
    (hnew : name ∉ attributes.map Prod.fst) (hrest : IsAttributes rest attributes) :
    IsAttributes (space ++ name ++ before ++ '=' :: after ++ quote :: raw ++ quote :: rest)
      ((name, value) :: attributes)

/-! Elements -/

inductive Node
  | char (c : Char)
  | element (name : List Char) (attributes : List (List Char × List Char)) (children : List Node)

/-- What a derivation is of: one piece of markup, or all between two tags. -/
inductive Kind
  | markup
  | content

inductive Derives : Kind → List Char → List Node → Prop
  | text {text : List Char} (htext : IsCharData text) : Derives .content text (text.map .char)
  | more {text raw rest : List Char} {nodes others : List Node} (htext : IsCharData text)
    (hmarkup : Derives .markup raw nodes) (hrest : Derives .content rest others) :
    Derives .content (text ++ raw ++ rest) (text.map .char ++ nodes ++ others)
  | reference {raw : List Char} {c : Char} (href : IsReference raw c) :
    Derives .markup raw [.char c]
  | cdata {text : List Char} (htext : text.all isChar = true)
    (hend : ¬ [']', ']', '>'] <:+: text) :
    Derives .markup ("<![CDATA[".toList ++ text ++ "]]>".toList) (text.map .char)
  | comment {text : List Char} (htext : text.all isChar = true)
    (hend : ¬ ['-', '-'] <:+: text ++ ['-']) :
    Derives .markup ("<!--".toList ++ text ++ "-->".toList) []
  | instruction {target text : List Char} (htarget : isName target = true)
    (hreserved : target.map Char.toLower ≠ "xml".toList) (htext : text.all isChar = true)
    (hspace : text = [] ∨ ∃ c rest, text = c :: rest ∧ isSpace c = true)
    (hend : ¬ ['?', '>'] <:+: text) :
    Derives .markup ("<?".toList ++ target ++ text ++ "?>".toList) []
  | element {name raw space inner : List Char} {attributes : List (List Char × List Char)}
    {children : List Node} (hname : isName name = true) (hattributes : IsAttributes raw attributes)
    (hinner : Derives .content inner children) (hspace : space.all isSpace = true) :
    Derives .markup
      ('<' :: name ++ raw ++ '>' :: inner ++ '<' :: '/' :: name ++ space ++ ['>'])
      [.element name attributes children]
  | empty {name raw : List Char} {attributes : List (List Char × List Char)}
    (hname : isName name = true) (hattributes : IsAttributes raw attributes) :
    Derives .markup ('<' :: name ++ raw ++ ['/', '>']) [.element name attributes []]

/-- The bytes are an element, and the tree is what it stands for. -/
def IsElement (text : List UInt8) (node : Node) : Prop :=
  ∃ chars, text = encode chars ∧ Derives .markup (normalizeEol chars) [node] ∧
    ∃ name attributes children, node = .element name attributes children

/-! What a tree holds -/

mutual

/-- All characters in a tree. -/
def Node.text : Node → List Char
  | .char c => [c]
  | .element _ _ children => texts children

def texts : List Node → List Char
  | [] => []
  | node :: nodes => node.text ++ texts nodes

end

/-- The characters, when there is nothing else. -/
def charsOf : List Node → Option (List Char)
  | [] => some []
  | .char c :: nodes => (charsOf nodes).map (c :: ·)
  | .element .. :: _ => none

mutual

/-- The texts of the elements that hold characters only. -/
def Node.leaves : Node → List (List Char)
  | .char _ => []
  | .element _ _ children =>
    match charsOf children with
    | some text => [text]
    | none => leavesOf children

def leavesOf : List Node → List (List Char)
  | [] => []
  | node :: nodes => node.leaves ++ leavesOf nodes

end

theorem texts_append (nodes others : List Node) :
    texts (nodes ++ others) = texts nodes ++ texts others := by
  induction nodes with
  | nil => simp [texts]
  | cons node nodes ih => simp [texts, ih]

@[simp] theorem texts_map_char (text : List Char) : texts (text.map .char) = text := by
  induction text with
  | nil => simp [texts]
  | cons c text ih => simp [texts, Node.text, ih]

theorem leavesOf_append (nodes others : List Node) :
    leavesOf (nodes ++ others) = leavesOf nodes ++ leavesOf others := by
  induction nodes with
  | nil => simp [leavesOf]
  | cons node nodes ih => simp [leavesOf, ih]

@[simp] theorem leavesOf_map_char (text : List Char) : leavesOf (text.map .char) = [] := by
  induction text with
  | nil => simp [leavesOf]
  | cons c text ih => simp [leavesOf, Node.leaves, ih]

@[simp] theorem charsOf_map_char (text : List Char) : charsOf (text.map .char) = some text := by
  induction text with
  | nil => rfl
  | cons c text ih => simp [charsOf, ih]

theorem charsOf_append_of_none {nodes : List Node} (h : charsOf nodes = none) (text : List Char)
    (others : List Node) : charsOf (text.map .char ++ nodes ++ others) = none := by
  induction text with
  | nil =>
    induction nodes with
    | nil => simp [charsOf] at h
    | cons node nodes ih =>
      cases node with
      | char c =>
        have hnone : charsOf nodes = none := by simpa [charsOf] using h
        simpa [charsOf] using ih hnone
      | element => rfl
  | cons c text ih => simpa [charsOf] using ih

/-! Escapes cost more than the text they stand for -/

/-- The characters that markup other than tags is made with. -/
def special (c : Char) : Bool := c = '&' || c = ';' || c = '!' || c = '?'

theorem special_reference {raw : List Char} {c : Char} (h : IsReference raw c) :
    [c].countP special < raw.countP special := by
  have hone : [c].countP special ≤ 1 := List.countP_le_length
  have htwo : 2 ≤ raw.countP special := by
    cases h with
    | entity h => simp [special, List.countP_append]
    | number =>
      simp [special, List.countP_append]
      omega
  omega

theorem special_cdata (text : List Char) :
    ("<![CDATA[".toList ++ text ++ "]]>".toList).countP special = text.countP special + 1 := by
  have hopen : "<![CDATA[".toList.countP special = 1 := by decide
  have hclose : "]]>".toList.countP special = 0 := by decide
  rw [List.countP_append, List.countP_append, hopen, hclose]
  omega

theorem special_comment (text : List Char) :
    0 < ("<!--".toList ++ text ++ "-->".toList).countP special := by
  have hopen : "<!--".toList.countP special = 1 := by decide
  rw [List.countP_append, List.countP_append, hopen]
  omega

theorem special_instruction (target text : List Char) :
    0 < ("<?".toList ++ target ++ text ++ "?>".toList).countP special := by
  have hopen : "<?".toList.countP special = 1 := by decide
  rw [List.countP_append, List.countP_append, List.countP_append, hopen]
  omega

theorem special_element (name raw inner space : List Char) :
    inner.countP special ≤
      ('<' :: name ++ raw ++ '>' :: inner ++ '<' :: '/' :: name ++ space ++
        ['>']).countP special := by
  simp only [List.countP_append, List.countP_cons]
  omega

variable {kind : Kind} {raw : List Char} {nodes : List Node}

theorem Derives.special_le (h : Derives kind raw nodes) :
    (texts nodes).countP special ≤ raw.countP special := by
  induction h with
  | text htext => simp
  | more htext hmarkup hrest ihmarkup ihrest =>
    simp only [texts_append, texts_map_char, List.countP_append]
    omega
  | reference href => exact (special_reference href).le
  | @cdata text htext hend =>
    rw [texts_map_char, special_cdata]
    omega
  | comment => simp [texts]
  | instruction => simp [texts]
  | @element name raw space inner attributes children hname hattributes hinner hspace ih =>
    simp only [texts, Node.text, List.append_nil]
    exact ih.trans (special_element name raw inner space)
  | empty => simp [texts, Node.text]

/-- Character data that stands in the text as it is. -/
def IsLiteral (raw text : List Char) : Prop := IsCharData text ∧ text ⊆ raw

theorem IsLiteral.mono {raw more text : List Char} (h : IsLiteral raw text) (hsub : raw ⊆ more) :
    IsLiteral more text := ⟨h.1, fun _ hmem => hsub (h.2 hmem)⟩

/-- What is read of a piece without escapes: markup is an element then. -/
def Literal (kind : Kind) (raw : List Char) (nodes : List Node) : Prop :=
  (∀ text ∈ leavesOf nodes, IsLiteral raw text) ∧
    match kind with
    | .markup => charsOf nodes = none
    | .content => ∀ text, charsOf nodes = some text → IsLiteral raw text

/-- A tree that costs no more than its characters was written without escapes. -/
theorem Derives.literal (h : Derives kind raw nodes)
    (hle : raw.countP special ≤ (texts nodes).countP special) : Literal kind raw nodes := by
  induction h with
  | @text text htext =>
    refine ⟨by simp, fun other hother => ?_⟩
    obtain rfl : text = other := by simpa using hother
    exact ⟨htext, List.Subset.refl text⟩
  | @more text raw rest nodes others htext hmarkup hrest ihmarkup ihrest =>
    have hmarkupLe := hmarkup.special_le
    have hrestLe := hrest.special_le
    simp only [texts_append, texts_map_char, List.countP_append] at hle
    obtain ⟨hnodes, hnone⟩ := ihmarkup (by omega)
    obtain ⟨hothers, -⟩ := ihrest (by omega)
    refine ⟨fun leaf hmem => ?_, fun other hother => ?_⟩
    · rw [leavesOf_append, leavesOf_append, leavesOf_map_char, List.nil_append] at hmem
      rcases List.mem_append.mp hmem with hmem | hmem
      · exact (hnodes leaf hmem).mono (by simp)
      · exact (hothers leaf hmem).mono (by simp)
    · rw [charsOf_append_of_none hnone] at hother
      cases hother
  | reference href => exact absurd hle (special_reference href).not_ge
  | @cdata text htext hend =>
    rw [texts_map_char, special_cdata] at hle
    omega
  | @comment text => exact absurd hle (special_comment text).not_ge
  | @instruction target text => exact absurd hle (special_instruction target text).not_ge
  | @element name raw space inner attributes children hname hattributes hinner hspace ih =>
    simp only [texts, Node.text, List.append_nil] at hle
    obtain ⟨hleaves, hchars⟩ := ih ((special_element name raw inner space).trans hle)
    have hsub : inner ⊆
        '<' :: name ++ raw ++ '>' :: inner ++ '<' :: '/' :: name ++ space ++ ['>'] := by
      intro c hmem
      simp [hmem]
    refine ⟨fun leaf hmem => ?_, rfl⟩
    simp only [leavesOf, Node.leaves, List.append_nil] at hmem
    split at hmem
    · rename_i text htext
      obtain rfl := List.mem_singleton.mp hmem
      exact (hchars leaf htext).mono hsub
    · exact (hleaves leaf hmem).mono hsub
  | empty => 
    refine ⟨fun leaf hmem => ?_, rfl⟩
    have hnil : leaf = [] := by simpa [leavesOf, Node.leaves, charsOf] using hmem
    subst hnil
    exact ⟨⟨by simp, by simp⟩, by simp⟩

/-! Ends of lines -/

theorem cr_notMem_normalizeEol (chars : List Char) : '\r' ∉ normalizeEol chars := by
  fun_induction normalizeEol chars with
  | case1 => simp
  | case2 rest ih => simp [ih]
  | case3 rest hne ih => simp [ih]
  | case4 c rest hcrlf hcr ih =>
    have hc : c ≠ '\r' := fun heq => hcr heq
    simp [ih, hc.symm]

theorem special_normalizeEol (chars : List Char) :
    (normalizeEol chars).countP special = chars.countP special := by
  fun_induction normalizeEol chars with
  | case1 => rfl
  | case2 rest ih => simp [special, ih]
  | case3 rest hne ih => simp [special, ih]
  | case4 c rest hcrlf hcr ih => simp [List.countP_cons, ih]

theorem normalizeEol_of_notMem {chars : List Char} (h : '\r' ∉ chars) :
    normalizeEol chars = chars := by
  fun_induction normalizeEol chars with
  | case1 => rfl
  | case2 rest ih => simp at h
  | case3 rest hne ih => simp at h
  | case4 c rest hcrlf hcr ih => rw [ih fun hmem => h (List.mem_cons_of_mem c hmem)]

end Mdencode.Xml
