import Mdencode.Lib.Bytes

/-! Text in UTF-8. -/

namespace Mdencode.Unicode

open Mdencode.Bytes

def encode (chars : List Char) : List UInt8 := chars.flatMap String.utf8EncodeChar

/-- The bytes are text in UTF-8. -/
def Utf8 (text : List UInt8) : Prop := ∃ chars : List Char, text = encode chars

@[simp] theorem encode_nil : encode [] = [] := rfl

theorem encode_cons (c : Char) (chars : List Char) :
    encode (c :: chars) = String.utf8EncodeChar c ++ encode chars := rfl

@[simp] theorem encode_append (chars others : List Char) :
    encode (chars ++ others) = encode chars ++ encode others := List.flatMap_append

theorem encode_flatMap {α : Type*} (f : α → List Char) (items : List α) :
    encode (items.flatMap f) = items.flatMap fun item => encode (f item) := by
  induction items with
  | nil => rfl
  | cons item items ih => simp [ih]

/-- A character is read off the bytes it starts with. -/
theorem utf8EncodeChar_append_inj {c d : Char} {r s : List UInt8}
    (h : String.utf8EncodeChar c ++ r = String.utf8EncodeChar d ++ s) : c = d ∧ r = s := by
  have hread (c : Char) (r : List UInt8) :
      (String.utf8EncodeChar c ++ r).toByteArray.utf8DecodeChar? 0 = some c := by
    rw [List.toByteArray_append]
    exact ByteArray.utf8DecodeChar?_utf8EncodeChar_append
  have heq : c = d := by
    rw [← Option.some.injEq, ← hread c r, h, hread d s]
  subst heq
  exact ⟨rfl, List.append_cancel_left h⟩

theorem encode_injective : Function.Injective encode := by
  intro chars
  induction chars with
  | nil =>
    intro others h
    cases others with
    | nil => rfl
    | cons d others => simp [encode_cons, String.utf8EncodeChar_ne_nil] at h
  | cons c chars ih =>
    intro others h
    cases others with
    | nil => simp [encode_cons, String.utf8EncodeChar_ne_nil] at h
    | cons d others =>
      obtain ⟨rfl, hrest⟩ := utf8EncodeChar_append_inj h
      rw [ih hrest]

theorem Utf8.append {text more : List UInt8} (h : Utf8 text) (h' : Utf8 more) :
    Utf8 (text ++ more) := by
  obtain ⟨chars, rfl⟩ := h
  obtain ⟨chars', rfl⟩ := h'
  exact ⟨chars ++ chars', (encode_append chars chars').symm⟩

theorem Utf8.intercalate {sep : List UInt8} (hsep : Utf8 sep) {texts : List (List UInt8)}
    (h : ∀ text ∈ texts, Utf8 text) : Utf8 (sep.intercalate texts) := by
  induction texts with
  | nil => exact ⟨[], rfl⟩
  | cons text texts ih =>
    have htext := h text List.mem_cons_self
    have hrest := ih fun other hmem => h other (List.mem_cons_of_mem _ hmem)
    cases texts with
    | nil => rwa [List.intercalate_singleton]
    | cons next texts =>
      rw [List.intercalate_cons_cons]
      exact (htext.append hsep).append hrest

/-! ASCII -/

theorem encode_of_ascii {chars : List Char} (h : ∀ c ∈ chars, c.toNat < 128) :
    encode chars = chars.map fun c => UInt8.ofNat c.toNat := by
  have hall : ∀ n < 128, String.utf8EncodeChar (Char.ofNat n) = [UInt8.ofNat n] := by decide
  induction chars with
  | nil => rfl
  | cons c chars ih =>
    have hc := hall c.toNat (h c List.mem_cons_self)
    rw [Char.ofNat_toNat] at hc
    rw [encode_cons, hc, ih fun d hd => h d (List.mem_cons_of_mem _ hd)]
    rfl

theorem encode_toList {s : String} (h : (s.toList.all fun c => c.toNat < 128) = true) :
    encode s.toList = ascii s :=
  encode_of_ascii fun c hc => by simpa using List.all_eq_true.mp h c hc

/-- The characters of a text in ASCII. -/
def asciiChars (text : List UInt8) : List Char := text.map fun b => Char.ofNat b.toNat

theorem encode_asciiChars {text : List UInt8} (h : ∀ b ∈ text, b.toNat < 128) :
    encode (asciiChars text) = text := by
  have htoNat : ∀ n < 128, (Char.ofNat n).toNat = n := by decide
  have hchars : ∀ c ∈ asciiChars text, c.toNat < 128 := by
    intro c hmem
    obtain ⟨b, hb, rfl⟩ := List.mem_map.mp hmem
    rw [htoNat b.toNat (h b hb)]
    exact h b hb
  rw [encode_of_ascii hchars, asciiChars, List.map_map]
  have hid :
      ∀ b ∈ text, (UInt8.ofNat ∘ Char.toNat ∘ fun b : UInt8 => Char.ofNat b.toNat) b = b := by
    intro b hb
    rw [Function.comp_apply, Function.comp_apply, htoNat b.toNat (h b hb), UInt8.ofNat_toNat]
  exact (List.map_congr_left hid).trans (List.map_id text)

def isAscii (text : List UInt8) : Bool := text.all fun b => b.toNat < 128

theorem utf8_of_isAscii {text : List UInt8} (h : isAscii text = true) : Utf8 text :=
  ⟨asciiChars text, (encode_asciiChars fun b hb => by
    simpa using List.all_eq_true.mp h b hb).symm⟩

end Mdencode.Unicode
