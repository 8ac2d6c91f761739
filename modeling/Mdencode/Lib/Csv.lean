import Mdencode.Lib.Bytes
import Mdencode.Lib.Separated

/-! Lines of comma-separated values: a field that holds a comma, a quote or the
end of a line stands between quotes, where a quote is written twice. -/

namespace Mdencode.Csv

def isPlain (text : List UInt8) : Bool :=
  text.all fun c => c ≠ 44 && c ≠ 34 && c ≠ 10 && c ≠ 13

/-- A field of this kind ends where the next comma or the line does. -/
def isBare (text : List UInt8) : Bool := text.all fun c => c ≠ 44 && c ≠ 10

/-- What is written between the quotes, and what it stands for. -/
inductive IsQuoted : List UInt8 → List UInt8 → Prop
  | nil : IsQuoted [] []
  | quote {raw text : List UInt8} (h : IsQuoted raw text) : IsQuoted (34 :: 34 :: raw) (34 :: text)
  | byte {c : UInt8} {raw text : List UInt8} (hc : c ≠ 34) (h : IsQuoted raw text) :
    IsQuoted (c :: raw) (c :: text)

inductive IsField : List UInt8 → List UInt8 → Prop
  | plain {text : List UInt8} (h : isPlain text = true) : IsField text text
  | quoted {raw text : List UInt8} (h : IsQuoted raw text) : IsField (34 :: raw ++ [34]) text

inductive IsRecord : List UInt8 → List (List UInt8) → Prop
  | last {raw text : List UInt8} (h : IsField raw text) : IsRecord raw [text]
  | more {raw text rest : List UInt8} {fields : List (List UInt8)} (h : IsField raw text)
    (hrest : IsRecord rest fields) : IsRecord (raw ++ 44 :: rest) (text :: fields)

/-- The text is one record, and the end of the line. -/
def IsLine (text : List UInt8) (fields : List (List UInt8)) : Prop :=
  ∃ raw eol, text = raw ++ eol ∧ (eol = [10] ∨ eol = [13, 10] ∨ eol = []) ∧ IsRecord raw fields

/-- The fields between commas, as they are. -/
def joinFields (fields : List (List UInt8)) : List UInt8 := [44].intercalate fields

/-- Records on a line each, without quotes. -/
def joinLines (records : List (List (List UInt8))) : List UInt8 :=
  records.flatMap fun fields => joinFields fields ++ [10]

theorem isBare_iff {text : List UInt8} : isBare text = true ↔ 44 ∉ text ∧ 10 ∉ text := by
  simp only [isBare, List.all_eq_true, Bool.and_eq_true, decide_eq_true_eq]
  constructor
  · intro h
    exact ⟨fun hmem => (h 44 hmem).1 rfl, fun hmem => (h 10 hmem).2 rfl⟩
  · rintro ⟨hcomma, hline⟩ c hmem
    exact ⟨fun hc => hcomma (hc ▸ hmem), fun hc => hline (hc ▸ hmem)⟩

theorem isBare_of_isPlain {text : List UInt8} (h : isPlain text = true) : isBare text = true := by
  simp only [isPlain, isBare, List.all_eq_true, Bool.and_eq_true] at h ⊢
  exact fun c hmem => ⟨(h c hmem).1.1.1, (h c hmem).1.2⟩

theorem IsRecord.ne_nil {raw : List UInt8} {fields : List (List UInt8)} (h : IsRecord raw fields) :
    fields ≠ [] := by
  cases h <;> simp

theorem joinFields_cons {fields : List (List UInt8)} (hne : fields ≠ []) (text : List UInt8) :
    joinFields (text :: fields) = text ++ 44 :: joinFields fields := by
  rw [joinFields, List.intercalate_cons_of_ne_nil hne, joinFields]
  simp

theorem joinFields_append {fields others : List (List UInt8)} (hne : fields ≠ [])
    (hne' : others ≠ []) :
    joinFields (fields ++ others) = joinFields fields ++ 44 :: joinFields others := by
  induction fields with
  | nil => exact absurd rfl hne
  | cons text fields ih =>
    rcases eq_or_ne fields [] with rfl | hrest
    · have hone : joinFields [text] = text := List.intercalate_singleton
      rw [List.singleton_append, joinFields_cons hne', hone]
    · rw [List.cons_append, joinFields_cons (List.append_ne_nil_of_left_ne_nil hrest _), ih hrest,
        joinFields_cons hrest, List.append_assoc, List.cons_append]

/-! Quotes make a field longer -/

theorem IsQuoted.length_le {raw text : List UInt8} (h : IsQuoted raw text) :
    text.length ≤ raw.length := by
  induction h with
  | nil => exact le_rfl
  | quote h ih => simp; omega
  | byte hc h ih => simpa using ih

theorem IsField.plain_or {raw text : List UInt8} (h : IsField raw text) :
    (raw = text ∧ isPlain text = true) ∨ text.length + 2 ≤ raw.length := by
  cases h with
  | plain h => exact .inl ⟨rfl, h⟩
  | quoted h =>
    have hlen := h.length_le
    refine .inr ?_
    simp
    omega

theorem IsRecord.plain_or {raw : List UInt8} {fields : List (List UInt8)}
    (h : IsRecord raw fields) :
    (raw = joinFields fields ∧ ∀ text ∈ fields, isPlain text = true) ∨
      (joinFields fields).length + 2 ≤ raw.length := by
  induction h with
  | @last raw text h => simpa [joinFields] using h.plain_or
  | @more raw text rest fields h hrest ih =>
    rw [joinFields_cons hrest.ne_nil]
    simp only [List.length_append, List.length_cons]
    rcases h.plain_or with ⟨rfl, htext⟩ | hlen <;> rcases ih with ⟨rfl, hfields⟩ | hlen'
    · exact .inl ⟨rfl, List.forall_mem_cons.mpr ⟨htext, hfields⟩⟩
    · exact .inr (by omega)
    · exact .inr (by omega)
    · exact .inr (by omega)

theorem isRecord_joinFields {fields : List (List UInt8)} (hne : fields ≠ [])
    (h : ∀ text ∈ fields, isPlain text = true) : IsRecord (joinFields fields) fields := by
  induction fields with
  | nil => exact absurd rfl hne
  | cons text fields ih =>
    have hfield := IsField.plain (h text List.mem_cons_self)
    rcases eq_or_ne fields [] with rfl | hrest
    · simpa [joinFields] using IsRecord.last hfield
    · rw [joinFields_cons hrest]
      exact .more hfield (ih hrest fun other hmem => h other (List.mem_cons_of_mem _ hmem))

/-- Fields joined without quotes are read back exactly when none needs them. -/
theorem isLine_joinFields_iff {fields : List (List UInt8)} (hne : fields ≠ []) :
    IsLine (joinFields fields ++ [10]) fields ↔ ∀ text ∈ fields, isPlain text = true := by
  constructor
  · rintro ⟨raw, eol, htext, heol, hrecord⟩
    have hlen := congrArg List.length htext
    simp only [List.length_append, List.length_singleton] at hlen
    rcases hrecord.plain_or with ⟨-, hplain⟩ | hlong
    · exact hplain
    · omega
  · intro h
    exact ⟨joinFields fields, [10], rfl, .inl rfl, isRecord_joinFields hne h⟩

/-- Fields without commas are read off their line. -/
theorem joinFields_inj {fields others : List (List UInt8)} (hne : fields ≠ []) (hne' : others ≠ [])
    (h : ∀ text ∈ fields, isBare text = true) (h' : ∀ text ∈ others, isBare text = true)
    (heq : joinFields fields = joinFields others) : fields = others := by
  have hsplit {fields : List (List UInt8)} (hne : fields ≠ [])
      (h : ∀ text ∈ fields, isBare text = true) : (joinFields fields).splitOn 44 = fields :=
    List.splitOn_intercalate 44 (fun text hmem => (isBare_iff.mp (h text hmem)).1) hne
  rw [← hsplit hne h, heq, hsplit hne' h']

theorem newline_notMem_joinFields {fields : List (List UInt8)}
    (h : ∀ text ∈ fields, isBare text = true) : 10 ∉ joinFields fields := by
  cases fields with
  | nil => simp [joinFields]
  | cons text fields =>
    rw [joinFields, Separated.intercalate_cons, List.mem_append, List.mem_flatMap]
    rintro (hmem | ⟨other, hother, hmem⟩)
    · exact (isBare_iff.mp (h text List.mem_cons_self)).2 hmem
    · rcases List.mem_append.mp hmem with hmem | hmem
      · simp at hmem
      · exact (isBare_iff.mp (h other (List.mem_cons_of_mem _ hother))).2 hmem

/-- Records of bare fields are read off their lines. -/
theorem joinLines_inj {records others : List (List (List UInt8))}
    (h : ∀ fields ∈ records, fields ≠ [] ∧ ∀ text ∈ fields, isBare text = true)
    (h' : ∀ fields ∈ others, fields ≠ [] ∧ ∀ text ∈ fields, isBare text = true)
    (heq : joinLines records = joinLines others) : records = others := by
  have hcancel (fields others : List (List UInt8))
      (h : fields ≠ [] ∧ ∀ text ∈ fields, isBare text = true)
      (h' : others ≠ [] ∧ ∀ text ∈ others, isBare text = true) (r s : List UInt8)
      (heq : joinFields fields ++ [10] ++ r = joinFields others ++ [10] ++ s) :
      fields = others ∧ r = s := by
    rw [List.append_assoc, List.append_assoc] at heq
    obtain ⟨hfields, hrest⟩ := Separated.append_cons_inj (newline_notMem_joinFields h.2)
      (newline_notMem_joinFields h'.2) heq
    exact ⟨joinFields_inj h.1 h'.1 h.2 h'.2 hfields, hrest⟩
  have hstop (fields : List (List UInt8)) (_ : fields ≠ [] ∧ ∀ text ∈ fields, isBare text = true)
      (r : List UInt8) : ¬ [] = joinFields fields ++ [10] ++ r := by
    simp
  have heq' : (records.flatMap fun fields => joinFields fields ++ [10]) ++ [] =
      (others.flatMap fun fields => joinFields fields ++ [10]) ++ [] := by
    rw [List.append_nil, List.append_nil]
    exact heq
  exact (Separated.flatMap_append_inj hcancel hstop h h' rfl rfl heq').1

end Mdencode.Csv
