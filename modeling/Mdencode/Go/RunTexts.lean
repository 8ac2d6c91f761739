import Mdencode.Lib.Separated
import Mdencode.Go.MdEncodeALL

/-! The texts a run of `mdencode` passes on, other than the names of files: they
are made of bytes that no text format gives a meaning of its own. -/

namespace Mdencode.Go

open Mdencode.Bytes Mdencode.Numerals

/-- Printed ASCII, without quotes, ampersands, commas and angle brackets. -/
def isWordByte (b : UInt8) : Bool :=
  32 ≤ b.toNat && b.toNat < 127 && b ≠ 34 && b ≠ 38 && b ≠ 44 && b ≠ 60 && b ≠ 62

def IsWord (text : List UInt8) : Prop := ∀ b ∈ text, isWordByte b = true

theorem isWordByte_of_digit {b : UInt8} (h : 48 ≤ b.toNat ∧ b.toNat ≤ 57) :
    isWordByte b = true := by
  have hdigits : ∀ n, 48 ≤ n → n ≤ 57 → isWordByte (UInt8.ofNat n) = true := by
    intro n hlow hhigh
    interval_cases n <;> rfl
  simpa using hdigits b.toNat h.1 h.2

theorem isWord_nil : IsWord [] := by simp [IsWord]

theorem isWord_append {text more : List UInt8} (h : IsWord text) (h' : IsWord more) :
    IsWord (text ++ more) := by
  intro b hmem
  rcases List.mem_append.mp hmem with hmem | hmem
  · exact h b hmem
  · exact h' b hmem

theorem isWord_intercalate {sep : List UInt8} (hsep : IsWord sep) {texts : List (List UInt8)}
    (h : ∀ text ∈ texts, IsWord text) : IsWord (sep.intercalate texts) := by
  cases texts with
  | nil => exact isWord_nil
  | cons text texts =>
    rw [Separated.intercalate_cons]
    apply isWord_append (h text List.mem_cons_self)
    intro b hmem
    obtain ⟨other, hother, hb⟩ := List.mem_flatMap.mp hmem
    exact isWord_append hsep (h other (List.mem_cons_of_mem _ hother)) b hb

theorem isWord_joinTexts {texts : List (List UInt8)} (h : ∀ text ∈ texts, IsWord text) :
    IsWord (joinTexts texts) :=
  isWord_intercalate (by simp [IsWord]; decide) h

theorem isWord_decimal (n : ℕ) : IsWord (decimal n) := fun _ hmem =>
  isWordByte_of_digit (decimal_bounds hmem)

theorem isWord_intText (n : ℤ) : IsWord (intText n) := by
  have hminus : isWordByte 45 = true := by decide
  unfold intText
  split_ifs
  · exact List.forall_mem_cons.mpr ⟨hminus, isWord_decimal n.natAbs⟩
  · exact isWord_decimal n.natAbs

theorem isWord_hexEncode (bytes : List UInt8) : IsWord (hexEncode bytes) := by
  have hdigit : ∀ v < 16, isWordByte (hexDigit v) = true := by decide
  intro c hmem
  obtain ⟨b, -, hc⟩ := List.mem_flatMap.mp hmem
  have hlt : b.toNat < 256 := b.toNat_lt
  rcases List.mem_pair.mp hc with rfl | rfl
  · exact hdigit _ (by omega)
  · exact hdigit _ (by omega)

theorem isWord_sprintBytes (bytes : List UInt8) : IsWord (sprintBytes bytes) := by
  have hspace : IsWord [32] := by simp [IsWord]; decide
  have hopen : IsWord [91] := by simp [IsWord]; decide
  have hclose : IsWord [93] := by simp [IsWord]; decide
  have hnumbers : IsWord ([32].intercalate (bytes.map fun b => decimal b.toNat)) := by
    apply isWord_intercalate hspace
    intro text hmem
    obtain ⟨b, -, rfl⟩ := List.mem_map.mp hmem
    exact isWord_decimal b.toNat
  exact isWord_append (isWord_append hopen hnumbers) hclose

theorem hashName_words : ∀ row ∈ hlist, (ascii row.hashName).all isWordByte = true ∧
    58 ∉ ascii row.hashName ∧ ascii row.hashName ≠ [] ∧ row.blockSize ≠ 0 := by
  decide +kernel

theorem notMem_intercalate {c : UInt8} {sep : List UInt8} (hsep : c ∉ sep)
    {texts : List (List UInt8)} (h : ∀ text ∈ texts, c ∉ text) : c ∉ sep.intercalate texts := by
  cases texts with
  | nil => simp
  | cons text texts =>
    rw [Separated.intercalate_cons, List.mem_append, List.mem_flatMap]
    rintro (hmem | ⟨other, hother, hmem⟩)
    · exact h text List.mem_cons_self hmem
    · rcases List.mem_append.mp hmem with hmem | hmem
      · exact hsep hmem
      · exact h other (List.mem_cons_of_mem _ hother) hmem

theorem colon_notMem_sprintBytes (bytes : List UInt8) : 58 ∉ sprintBytes bytes := by
  have hnumbers : 58 ∉ [32].intercalate (bytes.map fun b => decimal b.toNat) := by
    apply notMem_intercalate (by decide)
    intro text hmem
    obtain ⟨b, -, rfl⟩ := List.mem_map.mp hmem
    exact colon_notMem_decimal b.toNat
  simp [sprintBytes, hnumbers]

/-- A word that is read off a list between colons. -/
def IsItem (text : List UInt8) : Prop := IsWord text ∧ 58 ∉ text ∧ text ≠ []

theorem isItem_hashName (hash : HashContext) : IsItem (ascii hash.row.hashName) := by
  obtain ⟨hword, hcolon, hne, -⟩ := hashName_words hash.row hash.mem
  exact ⟨List.all_eq_true.mp hword, hcolon, hne⟩

theorem isItem_hashNames {hashes : List HashContext} {name : List UInt8}
    (h : name ∈ hashNames hashes) : IsItem name := by
  obtain ⟨hash, -, rfl⟩ := List.mem_map.mp h
  exact isItem_hashName hash

theorem isItem_decimal (n : ℕ) : IsItem (decimal n) :=
  ⟨isWord_decimal n, colon_notMem_decimal n, by simp [decimal]⟩

theorem isItem_sprintBytes (bytes : List UInt8) : IsItem (sprintBytes bytes) :=
  ⟨isWord_sprintBytes bytes, colon_notMem_sprintBytes bytes, by simp [sprintBytes]⟩

theorem isItem_sum (hash : HashContext) (block : List UInt8) :
    IsItem (hexEncode (hash.sum block)) := by
  refine ⟨isWord_hexEncode _, colon_notMem_hexEncode _, fun hnil => ?_⟩
  have hsum : hash.sum block = [] := hexEncode_injective hnil
  have hlen := hash.length_sum block
  rw [hsum] at hlen
  exact (hashName_words hash.row hash.mem).2.2.2 hlen.symm

namespace MdEncode

variable {l : MdEncode}

theorem fileHash_words {signatures : List (List UInt8)} {call : FormatterCall}
    (h : call ∈ l.fileHashCalls signatures) :
    ∃ hashName hashBytes, call = .encodeFileHash hashName hashBytes ∧ IsWord hashName ∧
      IsWord hashBytes := by
  rw [fileHashCalls] at h
  split_ifs at h
  · obtain rfl := List.mem_singleton.mp h
    refine ⟨_, _, rfl, isWord_joinTexts fun name hmem => (isItem_hashNames hmem).1,
      isWord_joinTexts fun text hmem => ?_⟩
    obtain ⟨signature, -, rfl⟩ := List.mem_map.mp hmem
    exact isWord_hexEncode signature
  · obtain ⟨k, hk, rfl⟩ := List.mem_iff_getElem.mp h
    simp only [mdencodeFileHashes, List.getElem_zipWith]
    exact ⟨_, _, rfl, (isItem_hashName _).1, isWord_hexEncode _⟩

/-- A block is passed on with words that are read off their list. -/
theorem block_items (l : MdEncode) (block : List UInt8) :
    ∃ hashList modExp mod, l.blockOf block =
        .encodeBlock block.length hashList modExp (decimal mod) ∧
      (∀ text ∈ hashList, IsItem text) ∧ (l.blockHashList ≠ [] → hashList ≠ []) := by
  refine ⟨_, _, _, rfl, fun text hmem => ?_, fun hne => by simp [hne]⟩
  rcases List.mem_append.mp hmem with hmem | hmem
  · rcases List.mem_append.mp hmem with hmem | hmem <;> split_ifs at hmem
    · exact List.mem_singleton.mp hmem ▸ isItem_sprintBytes block
    · cases hmem
    · exact List.mem_singleton.mp hmem ▸ isItem_decimal _
    · cases hmem
  · rw [List.map_map] at hmem
    obtain ⟨hash, -, rfl⟩ := List.mem_map.mp hmem
    exact isItem_sum hash block

/-- At most two texts stand in front of the digests of a block. -/
theorem third_digest {block : List UInt8} {blockSize modExp : ℕ} {hashList : List (List UInt8)}
    {mod text : List UInt8} (h : l.blockOf block = .encodeBlock blockSize hashList modExp mod)
    (htext : hashList[2]? = some text) : ∃ digest, text = hexEncode digest := by
  rw [blockOf, blockCall, FormatterCall.encodeBlock.injEq] at h
  obtain ⟨-, rfl, -, -⟩ := h
  have hshort : ((if l.byteblock then [sprintBytes block] else []) ++
      (if 0 < l.bitsize ∧ l.byteblockint then [decimal (ofBE block)] else [])).length ≤ 2 := by
    split_ifs <;> simp
  rw [List.getElem?_append_right hshort] at htext
  obtain ⟨digest, -, rfl⟩ := List.mem_map.mp (List.mem_of_getElem? htext)
  exact ⟨digest, rfl⟩

end MdEncode

end Mdencode.Go
