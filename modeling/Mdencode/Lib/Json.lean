import Mdencode.Lib.Numerals
import Mdencode.Lib.Separated
import Mdencode.Lib.Unicode

/-! JSON texts as bytes. A text is cut into tokens by a machine that goes over it
once, and it stands for a value when its tokens are those of the value. -/

namespace Mdencode.Json

open Mdencode.Bytes Mdencode.Numerals Mdencode.Unicode

inductive Token
  | lbrace
  | rbrace
  | lbracket
  | rbracket
  | colon
  | comma
  | null
  | bool (b : Bool)
  | number (text : List UInt8)
  | string (text : List UInt8)
  deriving DecidableEq

/-! Numbers and strings -/

def isDigit (c : UInt8) : Bool := 48 ≤ c.toNat && c.toNat ≤ 57

/-- An exponent, or nothing. -/
def isExponent : List UInt8 → Bool
  | [] => true
  | c :: rest =>
    let digits := match rest with
      | 43 :: digits => digits
      | 45 :: digits => digits
      | digits => digits
    (c = 101 || c = 69) && digits ≠ [] && digits.all isDigit

/-- A fraction and an exponent, or less. -/
def isFraction : List UInt8 → Bool
  | 46 :: rest =>
    let (digits, rest) := rest.span isDigit
    digits ≠ [] && isExponent rest
  | rest => isExponent rest

def isNumber (text : List UInt8) : Bool :=
  let unsigned := match text with
    | 45 :: rest => rest
    | rest => rest
  let (digits, rest) := unsigned.span isDigit
  (digits = [48] || digits ≠ [] && digits.head? ≠ some 48) && isFraction rest

/-- What stands between the quotes: bytes, and 16-bit units written as escapes. -/
inductive StringPart
  | byte (b : UInt8)
  | unit (v : ℕ)
  deriving DecidableEq

def isHigh (v : ℕ) : Bool := 55296 ≤ v && v < 56320

def isLow (v : ℕ) : Bool := 56320 ≤ v && v < 57344

/-- A unit on its own; half of a pair stands for the replacement character. -/
def encodeUnit (v : ℕ) : List UInt8 :=
  String.utf8EncodeChar (Char.ofNat (if isHigh v || isLow v then 65533 else v))

def encodePair (high low : ℕ) : List UInt8 :=
  String.utf8EncodeChar (Char.ofNat (65536 + (high - 55296) * 1024 + (low - 56320)))

def decodeParts : List StringPart → List UInt8
  | [] => []
  | .byte b :: rest => b :: decodeParts rest
  | .unit high :: .unit low :: rest =>
    if isHigh high && isLow low then encodePair high low ++ decodeParts rest
    else encodeUnit high ++ decodeParts (.unit low :: rest)
  | .unit v :: rest => encodeUnit v ++ decodeParts rest

/-- The character behind a backslash, other than `u`. -/
def escaped (c : UInt8) : Option UInt8 :=
  if c = 34 ∨ c = 92 ∨ c = 47 then some c
  else if c = 98 then some 8
  else if c = 102 then some 12
  else if c = 110 then some 10
  else if c = 114 then some 13
  else if c = 116 then some 9
  else none

/-! The machine -/

/-- Where the machine is: between tokens, or in one with what it has of it. -/
inductive Mode
  | idle
  | string (parts : List StringPart)
  | escape (parts : List StringPart)
  | hex (parts : List StringPart) (left value : ℕ)
  | number (text : List UInt8)
  | literal (text : List UInt8)
  deriving DecidableEq

def isSpace (c : UInt8) : Bool := c = 32 || c = 9 || c = 10 || c = 13

def isLetter (c : UInt8) : Bool := 97 ≤ c.toNat && c.toNat ≤ 122

def isNumberByte (c : UInt8) : Bool :=
  isDigit c || c = 43 || c = 45 || c = 46 || c = 69 || c = 101

def punctuation (c : UInt8) : Option Token :=
  if c = 123 then some .lbrace
  else if c = 125 then some .rbrace
  else if c = 91 then some .lbracket
  else if c = 93 then some .rbracket
  else if c = 58 then some .colon
  else if c = 44 then some .comma
  else none

def literalToken (text : List UInt8) : Option Token :=
  if text = ascii "null" then some .null
  else if text = ascii "true" then some (.bool true)
  else if text = ascii "false" then some (.bool false)
  else none

/-- The tokens that the end of the text completes. -/
def finish : Mode → Option (List Token)
  | .idle => some []
  | .number text => if isNumber text then some [.number text] else none
  | .literal text => (literalToken text).map fun token => [token]
  | _ => none

def idleStep (c : UInt8) : Option (List Token × Mode) :=
  if isSpace c then some ([], .idle)
  else if c = 34 then some ([], .string [])
  else if isDigit c || c = 45 then some ([], .number [c])
  else if isLetter c then some ([], .literal [c])
  else (punctuation c).map fun token => ([token], .idle)

/-- One byte: the tokens it completes, and the mode behind it. -/
def step : Mode → UInt8 → Option (List Token × Mode)
  | .idle, c => idleStep c
  | .string parts, c =>
    if c = 34 then some ([.string (decodeParts parts)], .idle)
    else if c = 92 then some ([], .escape parts)
    else if c.toNat < 32 then none
    else some ([], .string (parts ++ [.byte c]))
  | .escape parts, c =>
    if c = 117 then some ([], .hex parts 4 0)
    else (escaped c).map fun b => ([], .string (parts ++ [.byte b]))
  | .hex parts left value, c =>
    (hexValue c).map fun digit =>
      if left ≤ 1 then ([], .string (parts ++ [.unit (16 * value + digit)]))
      else ([], .hex parts (left - 1) (16 * value + digit))
  | .number text, c =>
    if isNumberByte c then some ([], .number (text ++ [c]))
    else (finish (.number text)).bind fun tokens =>
      (idleStep c).map fun (tokens', mode) => (tokens ++ tokens', mode)
  | .literal text, c =>
    if isLetter c then some ([], .literal (text ++ [c]))
    else (finish (.literal text)).bind fun tokens =>
      (idleStep c).map fun (tokens', mode) => (tokens ++ tokens', mode)

def run : Mode → List UInt8 → Option (List Token × Mode)
  | mode, [] => some ([], mode)
  | mode, c :: rest =>
    (step mode c).bind fun (tokens, mode) =>
      (run mode rest).map fun (tokens', mode) => (tokens ++ tokens', mode)

def lex (text : List UInt8) : Option (List Token) :=
  (run .idle text).bind fun (tokens, mode) => (finish mode).map fun tokens' => tokens ++ tokens'

/-! Values -/

inductive Value
  | null
  | bool (b : Bool)
  | number (text : List UInt8)
  | string (text : List UInt8)
  | array (items : List Value)
  | object (members : List (List UInt8 × Value))

mutual

def Value.tokens : Value → List Token
  | .null => [.null]
  | .bool b => [.bool b]
  | .number text => [.number text]
  | .string text => [.string text]
  | .array items => .lbracket :: itemTokens items
  | .object members => .lbrace :: memberTokens members

/-- The items of an array, with the bracket behind them. -/
def itemTokens : List Value → List Token
  | [] => [.rbracket]
  | v :: items => v.tokens ++ moreItemTokens items

def moreItemTokens : List Value → List Token
  | [] => [.rbracket]
  | v :: items => .comma :: v.tokens ++ moreItemTokens items

/-- The members of an object, with the brace behind them. -/
def memberTokens : List (List UInt8 × Value) → List Token
  | [] => [.rbrace]
  | (name, v) :: members => .string name :: .colon :: v.tokens ++ moreMemberTokens members

def moreMemberTokens : List (List UInt8 × Value) → List Token
  | [] => [.rbrace]
  | (name, v) :: members =>
    .comma :: .string name :: .colon :: v.tokens ++ moreMemberTokens members

end

/-- The text is JSON, and the value is what it stands for. -/
def IsJson (text : List UInt8) (v : Value) : Prop := Utf8 text ∧ lex text = some v.tokens

/-! The machine goes on where it was -/

theorem run_append (mode : Mode) (text more : List UInt8) :
    run mode (text ++ more) = (run mode text).bind fun (tokens, mode) =>
      (run mode more).map fun (tokens', mode) => (tokens ++ tokens', mode) := by
  induction text generalizing mode with
  | nil =>
    rw [List.nil_append, run, Option.bind_some]
    simp
  | cons c text ih =>
    rw [List.cons_append, run, run]
    cases hstep : step mode c with
    | none => rfl
    | some next =>
      simp only [Option.bind_some, ih]
      cases run next.2 text with
      | none => rfl
      | some after =>
        simp [Function.comp_def]

/-! One value for a text -/

/-- A value starts with a token of its own, and never with a closing one. -/
theorem exists_tokens_eq_cons (v : Value) :
    ∃ token tokens, v.tokens = token :: tokens ∧ token ≠ .rbracket ∧ token ≠ .rbrace := by
  cases v <;> rw [Value.tokens] <;> exact ⟨_, _, rfl, nofun, nofun⟩

mutual

/-- Where a value ends is read off its tokens. -/
theorem tokens_append_inj : (v w : Value) → (r s : List Token) →
    v.tokens ++ r = w.tokens ++ s → v = w ∧ r = s
  | .null, w, r, s, h => by
    cases w <;> simp_all [Value.tokens]
  | .bool b, w, r, s, h => by
    cases w <;> simp_all [Value.tokens]
  | .number text, w, r, s, h => by
    cases w <;> simp_all [Value.tokens]
  | .string text, w, r, s, h => by
    cases w <;> simp_all [Value.tokens]
  | .array items, w, r, s, h => by
    cases w with
    | array items' =>
      rw [Value.tokens, Value.tokens, List.cons_append, List.cons_append, List.cons.injEq] at h
      obtain ⟨rfl, hrest⟩ := itemTokens_append_inj items items' r s h.2
      exact ⟨rfl, hrest⟩
    | _ => simp_all [Value.tokens]
  | .object members, w, r, s, h => by
    cases w with
    | object members' =>
      rw [Value.tokens, Value.tokens, List.cons_append, List.cons_append, List.cons.injEq] at h
      obtain ⟨rfl, hrest⟩ := memberTokens_append_inj members members' r s h.2
      exact ⟨rfl, hrest⟩
    | _ => simp_all [Value.tokens]

theorem itemTokens_append_inj : (vs ws : List Value) → (r s : List Token) →
    itemTokens vs ++ r = itemTokens ws ++ s → vs = ws ∧ r = s
  | [], [], r, s, h => by
    simpa [itemTokens] using h
  | [], w :: ws, r, s, h => by
    obtain ⟨token, tokens, hw, hne, -⟩ := exists_tokens_eq_cons w
    simp [itemTokens, hw, hne.symm] at h
  | v :: vs, [], r, s, h => by
    obtain ⟨token, tokens, hv, hne, -⟩ := exists_tokens_eq_cons v
    simp [itemTokens, hv, hne] at h
  | v :: vs, w :: ws, r, s, h => by
    rw [itemTokens, itemTokens, List.append_assoc, List.append_assoc] at h
    obtain ⟨rfl, hmore⟩ := tokens_append_inj v w _ _ h
    obtain ⟨rfl, hrest⟩ := moreItemTokens_append_inj vs ws r s hmore
    exact ⟨rfl, hrest⟩

theorem moreItemTokens_append_inj : (vs ws : List Value) → (r s : List Token) →
    moreItemTokens vs ++ r = moreItemTokens ws ++ s → vs = ws ∧ r = s
  | [], [], r, s, h => by
    simpa [moreItemTokens] using h
  | [], w :: ws, r, s, h => by
    simp [moreItemTokens] at h
  | v :: vs, [], r, s, h => by
    simp [moreItemTokens] at h
  | v :: vs, w :: ws, r, s, h => by
    simp only [moreItemTokens, List.cons_append, List.cons.injEq, true_and,
      List.append_assoc] at h
    obtain ⟨rfl, hmore⟩ := tokens_append_inj v w _ _ h
    obtain ⟨rfl, hrest⟩ := moreItemTokens_append_inj vs ws r s hmore
    exact ⟨rfl, hrest⟩

theorem memberTokens_append_inj : (vs ws : List (List UInt8 × Value)) → (r s : List Token) →
    memberTokens vs ++ r = memberTokens ws ++ s → vs = ws ∧ r = s
  | [], [], r, s, h => by
    simpa [memberTokens] using h
  | [], (name, w) :: ws, r, s, h => by
    simp [memberTokens] at h
  | (name, v) :: vs, [], r, s, h => by
    simp [memberTokens] at h
  | (name, v) :: vs, (name', w) :: ws, r, s, h => by
    simp only [memberTokens, List.cons_append, List.cons.injEq, Token.string.injEq, true_and,
      List.append_assoc] at h
    obtain ⟨rfl, hvalue⟩ := h
    obtain ⟨rfl, hmore⟩ := tokens_append_inj v w _ _ hvalue
    obtain ⟨rfl, hrest⟩ := moreMemberTokens_append_inj vs ws r s hmore
    exact ⟨rfl, hrest⟩

theorem moreMemberTokens_append_inj : (vs ws : List (List UInt8 × Value)) → (r s : List Token) →
    moreMemberTokens vs ++ r = moreMemberTokens ws ++ s → vs = ws ∧ r = s
  | [], [], r, s, h => by
    simpa [moreMemberTokens] using h
  | [], (name, w) :: ws, r, s, h => by
    simp [moreMemberTokens] at h
  | (name, v) :: vs, [], r, s, h => by
    simp [moreMemberTokens] at h
  | (name, v) :: vs, (name', w) :: ws, r, s, h => by
    simp only [moreMemberTokens, List.cons_append, List.cons.injEq, Token.string.injEq, true_and,
      List.append_assoc] at h
    obtain ⟨rfl, hvalue⟩ := h
    obtain ⟨rfl, hmore⟩ := tokens_append_inj v w _ _ hvalue
    obtain ⟨rfl, hrest⟩ := moreMemberTokens_append_inj vs ws r s hmore
    exact ⟨rfl, hrest⟩

end

/-- A text stands for one value at most. -/
theorem IsJson.unique {text : List UInt8} {v w : Value} (hv : IsJson text v) (hw : IsJson text w) :
    v = w := by
  have heq : v.tokens ++ [] = w.tokens ++ [] := by
    rw [List.append_nil, List.append_nil, ← Option.some.injEq, ← hv.2, hw.2]
  exact (tokens_append_inj v w [] [] heq).1

/-- A text with more behind a value is none. -/
theorem not_isJson_of_more {text : List UInt8} {v : Value} {token : Token}
    (h : run .idle text = some (v.tokens ++ [token], .idle)) (more : List UInt8) (w : Value) :
    ¬ IsJson (text ++ more) w := by
  rintro ⟨-, hw⟩
  rw [lex, run_append, h, Option.bind_some] at hw
  obtain ⟨⟨before, mode⟩, hrun, hfinish⟩ := Option.bind_eq_some_iff.mp hw
  obtain ⟨⟨tokens, mode'⟩, -, heq⟩ := Option.map_eq_some_iff.mp hrun
  obtain ⟨last, -, hlast⟩ := Option.map_eq_some_iff.mp hfinish
  obtain ⟨rfl, rfl⟩ := Prod.mk.inj heq
  rw [List.append_assoc, List.append_assoc, ← List.append_nil w.tokens] at hlast
  have hrest := (tokens_append_inj v w _ _ hlast).2
  simp at hrest

theorem not_isJson_nil (v : Value) : ¬ IsJson [] v := by
  rintro ⟨-, hv⟩
  obtain ⟨token, tokens, heq, -⟩ := exists_tokens_eq_cons v
  rw [heq] at hv
  cases hv

/-! Texts put together -/

/-- A text whose last token is a brace leaves the machine between tokens. -/
theorem run_of_lex {text : List UInt8} {tokens : List Token}
    (h : lex text = some (tokens ++ [.rbrace])) :
    run .idle text = some (tokens ++ [.rbrace], .idle) := by
  unfold lex at h
  obtain ⟨⟨before, mode⟩, hrun, hfinish⟩ := Option.bind_eq_some_iff.mp h
  obtain ⟨last, hlast, heq⟩ := Option.map_eq_some_iff.mp hfinish
  have hnone {token : Token} (hlast : last = [token]) : token = .rbrace := by
    rw [hlast] at heq
    exact List.singleton_inj.mp (List.append_inj' heq rfl).2
  cases mode with
  | idle =>
    obtain rfl := Option.some.inj hlast
    rw [hrun, ← heq, List.append_nil]
  | number text =>
    rw [finish] at hlast
    split_ifs at hlast
    cases hnone (Option.some.inj hlast).symm
  | literal text =>
    rw [finish] at hlast
    obtain ⟨token, htoken, hsingle⟩ := Option.map_eq_some_iff.mp hlast
    obtain rfl := hnone hsingle.symm
    unfold literalToken at htoken
    split_ifs at htoken <;> cases htoken
  | string parts => cases hlast
  | escape parts => cases hlast
  | hex parts left value => cases hlast

theorem exists_memberTokens_eq (members : List (List UInt8 × Value)) :
    ∃ tokens, memberTokens members = tokens ++ [.rbrace] := by
  have hmore (members : List (List UInt8 × Value)) :
      ∃ tokens, moreMemberTokens members = tokens ++ [.rbrace] := by
    induction members with
    | nil => exact ⟨[], by rw [moreMemberTokens, List.nil_append]⟩
    | cons member members ih =>
      obtain ⟨tokens, htokens⟩ := ih
      exact ⟨.comma :: .string member.1 :: .colon :: member.2.tokens ++ tokens, by
        simp [moreMemberTokens, htokens]⟩
  cases members with
  | nil => exact ⟨[], by rw [memberTokens, List.nil_append]⟩
  | cons member members =>
    obtain ⟨tokens, htokens⟩ := hmore members
    exact ⟨.string member.1 :: .colon :: member.2.tokens ++ tokens, by
      simp [memberTokens, htokens]⟩

/-- The text of an object leaves the machine between tokens. -/
theorem IsJson.run_object {text : List UInt8} {members : List (List UInt8 × Value)}
    (h : IsJson text (.object members)) :
    run .idle text = some ((Value.object members).tokens, .idle) := by
  obtain ⟨tokens, htokens⟩ := exists_memberTokens_eq members
  have hobject : (Value.object members).tokens = (.lbrace :: tokens) ++ [.rbrace] := by
    rw [Value.tokens, htokens, List.cons_append]
  rw [hobject]
  exact run_of_lex (hobject ▸ h.2)

section
variable {α : Type*} {text : α → List UInt8} {value : α → Value} {sep : List UInt8}

theorem run_moreItems (hsep : run .idle sep = some ([.comma], .idle)) {items : List α}
    (h : ∀ item ∈ items, run .idle (text item) = some ((value item).tokens, .idle)) :
    run .idle (items.flatMap (fun item => sep ++ text item) ++ [93]) =
      some (moreItemTokens (items.map value), .idle) := by
  induction items with
  | nil => rfl
  | cons item items ih =>
    have hmore := ih fun other hmem => h other (List.mem_cons_of_mem _ hmem)
    rw [List.flatMap_cons, List.append_assoc, List.append_assoc, run_append, hsep, Option.bind_some]
    dsimp only
    rw [run_append, h item List.mem_cons_self, Option.bind_some]
    dsimp only
    rw [hmore]
    simp [moreItemTokens]

/-- Items between separators make an array. -/
theorem run_items (hsep : run .idle sep = some ([.comma], .idle)) {items : List α}
    (h : ∀ item ∈ items, run .idle (text item) = some ((value item).tokens, .idle)) :
    run .idle (sep.intercalate (items.map text) ++ [93]) =
      some (itemTokens (items.map value), .idle) := by
  cases items with
  | nil => rfl
  | cons item items =>
    have hmore := run_moreItems hsep fun other hmem => h other (List.mem_cons_of_mem item hmem)
    rw [List.map_cons, Separated.intercalate_cons, List.flatMap_map, List.append_assoc, run_append,
      h item List.mem_cons_self, Option.bind_some]
    dsimp only
    rw [hmore]
    simp [itemTokens]

end

/-- Plain bytes inside a string are taken over. -/
theorem run_string {text : List UInt8} (h : ∀ c ∈ text, c ≠ 34 ∧ c ≠ 92 ∧ 32 ≤ c.toNat)
    (parts : List StringPart) :
    run (.string parts) text = some ([], .string (parts ++ text.map .byte)) := by
  induction text generalizing parts with
  | nil => rw [run, List.map_nil, List.append_nil]
  | cons c text ih =>
    obtain ⟨hquote, hescape, hcontrol⟩ := h c List.mem_cons_self
    rw [run, step, if_neg hquote, if_neg hescape, if_neg (not_lt.mpr hcontrol), Option.bind_some]
    dsimp only
    rw [ih fun d hd => h d (List.mem_cons_of_mem _ hd)]
    simp

theorem decodeParts_map_byte (text : List UInt8) : decodeParts (text.map .byte) = text := by
  induction text with
  | nil => rfl
  | cons c text ih => rw [List.map_cons, decodeParts, ih]

end Mdencode.Json
