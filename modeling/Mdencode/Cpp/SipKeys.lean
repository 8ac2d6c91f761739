import Mdencode.Lib.GrowingStep
import Mdencode.Cpp.MdRecords

/-! The keys of `sip40` and `sip48` from block to block. The step grows with the
block number; a key that passes 2^128 does not fit its sixteen bytes, and one
that passes zero comes back as a magnitude and in the end repeats. -/

namespace Mdencode.Cpp

open Mdencode.Bytes Mdencode.GrowingStep

/-- The key that `incrementBlockKeyList` moves for a signature. -/
def movedKey : Signature → Option Member
  | .sip40 => some .sipkey40
  | .sip48 => some .sipkey48
  | _ => none

/-- `keyblockInt` before the export. -/
def keyblockInt (byteblock : List UInt8) (blocknumber : ℕ) : IncrementKey → ℤ
  | .noinc => mpzImport byteblock
  | .dec => mpzImport byteblock - blocknumber
  | .inc => mpzImport byteblock + blocknumber

section
variable {incKey : IncrementKey} {hash : Hashlist} {hashlistvt : List Hashlist} {c : Member}

/-- What is exported to a key long enough for it. -/
theorem incrementByteblock_eq {byteblock : List UInt8} {blocknumber : ℕ}
    (h : (keyblockInt byteblock blocknumber incKey).natAbs < 256 ^ byteblock.length) :
    incrementByteblock byteblock blocknumber incKey =
      toBE byteblock.length (keyblockInt byteblock blocknumber incKey).natAbs := by
  cases incKey <;> exact padBlockBytes_mpzExport h

theorem length_incrementByteblock (byteblock : List UInt8) (blocknumber : ℕ) :
    (incrementByteblock byteblock blocknumber incKey).length = byteblock.length := by
  cases incKey <;> exact (length_padBlockBytes _ _ _).trans (length_mpzExport _ _)

theorem incrementHashKey_eq (n : ℕ) (r : Registers) (hash : Hashlist) :
    MdHashContextList.incrementHashKey n incKey r hash =
      match movedKey hash.signature with
      | some c => r.store c (incrementByteblock (r.fetch ⟨c, 16⟩) n incKey)
      | none => r := by
  unfold MdHashContextList.incrementHashKey
  cases hash.signature <;> rfl

theorem movedKey_eq_some {signature : Signature} : movedKey signature = some c ↔
    signature = .sip40 ∧ c = .sipkey40 ∨ signature = .sip48 ∧ c = .sipkey48 := by
  cases signature <;> simp [movedKey, eq_comm]

theorem movedKey_inj {a b : Signature} (ha : movedKey a = some c) (hb : movedKey b = some c) :
    a = b := by
  rw [movedKey_eq_some] at ha hb
  rcases ha with ⟨rfl, rfl⟩ | ⟨rfl, rfl⟩ <;> rcases hb with ⟨rfl, h⟩ | ⟨rfl, h⟩ <;>
    first | rfl | cases h

theorem fetch_store_key (r : Registers) {c : Member} (bytes : List UInt8)
    (h : bytes.length = 16) : (r.store c bytes).fetch ⟨c, 16⟩ = bytes := by
  have := Memory.fetch_store r c bytes
  rwa [h] at this

/-- A signature that is not in the list leaves its key alone. -/
theorem foldl_incrementHashKey_of_not_mem (n : ℕ) (r : Registers)
    (h : ∀ hash ∈ hashlistvt, movedKey hash.signature ≠ some c) :
    (hashlistvt.foldl (MdHashContextList.incrementHashKey n incKey) r).fetch ⟨c, 16⟩ =
      r.fetch ⟨c, 16⟩ := by
  induction hashlistvt generalizing r with
  | nil => rfl
  | cons hash hashlistvt ih =>
    rw [List.foldl_cons, ih _ fun hash hmem => h hash (List.mem_cons_of_mem _ hmem),
      incrementHashKey_eq]
    cases hmoved : movedKey hash.signature with
    | none => rfl
    | some c' =>
      refine Memory.fetch_store_of_ne r (fun heq => ?_) _
      exact h hash List.mem_cons_self (by rw [hmoved, ← heq])

/-- One that is in the list moves it once. -/
theorem foldl_incrementHashKey (n : ℕ) (r : Registers)
    (hnodup : (hashlistvt.map Hashlist.signature).Nodup) (hmem : hash ∈ hashlistvt)
    (hc : movedKey hash.signature = some c) :
    (hashlistvt.foldl (MdHashContextList.incrementHashKey n incKey) r).fetch ⟨c, 16⟩ =
      incrementByteblock (r.fetch ⟨c, 16⟩) n incKey := by
  obtain ⟨before, after, rfl⟩ := List.append_of_mem hmem
  rw [List.map_append, List.map_cons, List.nodup_append, List.nodup_cons] at hnodup
  obtain ⟨-, ⟨hafter, -⟩, hbefore⟩ := hnodup
  rw [List.foldl_append, List.foldl_cons, foldl_incrementHashKey_of_not_mem, incrementHashKey_eq,
    hc]
  · dsimp only
    rw [foldl_incrementHashKey_of_not_mem]
    · exact fetch_store_key _ _ (by rw [length_incrementByteblock, Memory.length_fetch])
    · intro other hother heq
      have hsame := movedKey_inj heq hc
      exact hbefore _ (List.mem_map_of_mem hother) _ List.mem_cons_self hsame
  · intro other hother heq
    exact hafter (List.mem_map.mpr ⟨other, hother, movedKey_inj heq hc⟩)

/-! The key in force at a block -/

theorem contextAt_succ (hcl : MdHashContextList) (i : ℕ) :
    contextAt incKey hcl (i + 1) = (contextAt incKey hcl i).incrementBlockNum incKey := by
  induction i generalizing hcl with
  | zero => rfl
  | succ i ih => exact ih (hcl.incrementBlockNum incKey)

theorem hashlistvt_contextAt (hcl : MdHashContextList) (i : ℕ) :
    (contextAt incKey hcl i).hashlistvt = hcl.hashlistvt := by
  induction i generalizing hcl with
  | zero => exact hashlistvt_incrementBlockNum hcl
  | succ i ih => exact (ih _).trans (hashlistvt_incrementBlockNum hcl)

theorem blocknumber_incrementBlockNum (hcl : MdHashContextList) :
    (hcl.incrementBlockNum incKey).blocknumber = hcl.blocknumber + 1 := by
  unfold MdHashContextList.incrementBlockNum
  split_ifs <;> rfl

theorem blocknumber_contextAt (hcl : MdHashContextList) (i : ℕ) :
    (contextAt incKey hcl i).blocknumber = hcl.blocknumber + (i + 1) := by
  induction i with
  | zero => exact blocknumber_incrementBlockNum hcl
  | succ i ih => rw [contextAt_succ, blocknumber_incrementBlockNum, ih, Nat.add_assoc]

/-- The key that block `i` is hashed under. -/
def keyAt (incKey : IncrementKey) (hcl : MdHashContextList) (c : Member) (i : ℕ) : List UInt8 :=
  (contextAt incKey hcl i).hregister.fetch ⟨c, 16⟩

theorem length_keyAt (hcl : MdHashContextList) (i : ℕ) : (keyAt incKey hcl c i).length = 16 :=
  Memory.length_fetch _ _

theorem keyAt_zero {hcl : MdHashContextList} (hstart : hcl.blocknumber = 0) :
    keyAt incKey hcl c 0 = hcl.hregister.fetch ⟨c, 16⟩ := by
  rw [keyAt, contextAt, MdHashContextList.incrementBlockNum, if_neg (by omega)]

/-- From block to block the key is moved by the number of the block. -/
theorem keyAt_succ (hinc : incKey ≠ .noinc) {hcl : MdHashContextList} (hstart : hcl.blocknumber = 0)
    (hreg : Registered mdHashlist hcl.hashlistvt) (hmem : hash ∈ hcl.hashlistvt)
    (hc : movedKey hash.signature = some c) (i : ℕ) :
    keyAt incKey hcl c (i + 1) = incrementByteblock (keyAt incKey hcl c i) (i + 1) incKey := by
  have hnodup : (mdHashlist.map Hashlist.signature).Nodup := by decide
  have hlist : (contextAt incKey hcl i).hashlistvt = hcl.hashlistvt := hashlistvt_contextAt _ _
  have hnumber : (contextAt incKey hcl i).blocknumber = i + 1 := by
    rw [blocknumber_contextAt, hstart, Nat.zero_add]
  have hsignatures : (hcl.hashlistvt.map Hashlist.signature).Nodup :=
    hreg.nodup.map_on fun a ha b hb heq => List.inj_on_of_nodup_map hnodup
      (List.mem_of_mem_take (hreg.mem a ha)) (List.mem_of_mem_take (hreg.mem b hb)) heq
  rw [keyAt, contextAt_succ, MdHashContextList.incrementBlockNum,
    if_pos ⟨by rw [hnumber]; omega, hinc⟩]
  dsimp only [MdHashContextList.incrementBlockKeyList]
  rw [hnumber, hlist, foldl_incrementHashKey _ _ hsignatures hmem hc]
  rfl

/-! Distinct keys -/

/-- Every number that is exported to the key of one of `n` blocks fits it, and no
two of the blocks have one key. -/
structure KeysUnique (incKey : IncrementKey) (hcl : MdHashContextList) (c : Member) (n : ℕ) :
    Prop where
  fits : ∀ i, i + 1 < n →
    (keyblockInt (keyAt incKey hcl c i) (i + 1) incKey).natAbs < 256 ^ 16
  distinct : ∀ i j, i < j → j < n → keyAt incKey hcl c i ≠ keyAt incKey hcl c j

variable {hcl : MdHashContextList}

/-- The key the first block is hashed under, as a number. -/
def startKey (hcl : MdHashContextList) (c : Member) : ℕ := ofBE (hcl.hregister.fetch ⟨c, 16⟩)

theorem startKey_lt (hcl : MdHashContextList) (c : Member) : startKey hcl c < 256 ^ 16 := by
  have := ofBE_lt (hcl.hregister.fetch ⟨c, 16⟩)
  rwa [Memory.length_fetch] at this

theorem keyAt_eq_iff {i j : ℕ} : keyAt incKey hcl c i = keyAt incKey hcl c j ↔
    ofBE (keyAt incKey hcl c i) = ofBE (keyAt incKey hcl c j) :=
  ⟨congrArg ofBE, ofBE_inj (by rw [length_keyAt, length_keyAt])⟩

/-- One move of a key, as a number. -/
theorem ofBE_keyAt_succ (hinc : incKey ≠ .noinc) (hstart : hcl.blocknumber = 0)
    (hreg : Registered mdHashlist hcl.hashlistvt) (hmem : hash ∈ hcl.hashlistvt)
    (hc : movedKey hash.signature = some c) {i : ℕ}
    (hfit : (keyblockInt (keyAt incKey hcl c i) (i + 1) incKey).natAbs < 256 ^ 16) :
    ofBE (keyAt incKey hcl c (i + 1)) =
      (keyblockInt (keyAt incKey hcl c i) (i + 1) incKey).natAbs := by
  have hlen : (keyAt incKey hcl c i).length = 16 := length_keyAt hcl i
  rw [keyAt_succ hinc hstart hreg hmem hc, incrementByteblock_eq (by rw [hlen]; exact hfit), hlen,
    ofBE_toBE_of_lt hfit]

/-- Up to its limit, a key that goes down stays far below 2^128. -/
theorem downLimit_lt {k : ℕ} (h : k < 256 ^ 16) : downLimit k < 256 ^ 16 := by
  have hroot := triangle_root_le k
  have htri := two_mul_triangle (root k)
  have hsmall : root k < 2 ^ 65 := by
    by_contra hlarge
    have hsq := Nat.mul_le_mul (not_lt.mp hlarge) (show 2 ^ 65 ≤ root k + 1 by omega)
    norm_num at hsq h
    omega
  have hlt := lt_triangle_root k
  rw [triangle] at hlt
  unfold downLimit limitFrom
  norm_num at h ⊢
  split_ifs <;> omega

section
variable (hstart : hcl.blocknumber = 0) (hreg : Registered mdHashlist hcl.hashlistvt)
  (hmem : hash ∈ hcl.hashlistvt) (hc : movedKey hash.signature = some c)
include hstart hreg hmem hc

/-- Up to 2^128 the key goes up. -/
theorem ofBE_keyAt_inc {i : ℕ} (h : up (startKey hcl c) i < 256 ^ 16) :
    ofBE (keyAt .inc hcl c i) = up (startKey hcl c) i := by
  induction i with
  | zero => rw [keyAt_zero hstart, up_zero, startKey]
  | succ i ih =>
    have hnext := up_succ (startKey hcl c) i
    have hprev := ih (by omega)
    have hint : (keyblockInt (keyAt .inc hcl c i) (i + 1) .inc).natAbs =
        up (startKey hcl c) (i + 1) := by
      rw [keyblockInt, mpzImport, hprev, hnext]
      omega
    rw [ofBE_keyAt_succ (by decide) hstart hreg hmem hc (hint ▸ h), hint]

/-- The key goes down, and comes back as a magnitude. -/
theorem ofBE_keyAt_dec {i : ℕ} (h : i < 256 ^ 16) :
    ofBE (keyAt .dec hcl c i) = down (startKey hcl c) i ∧
      (keyblockInt (keyAt .dec hcl c i) (i + 1) .dec).natAbs = down (startKey hcl c) (i + 1) := by
  induction i with
  | zero =>
    have hzero : ofBE (keyAt .dec hcl c 0) = down (startKey hcl c) 0 := by
      rw [keyAt_zero hstart, down_zero, startKey]
    refine ⟨hzero, ?_⟩
    rw [keyblockInt, mpzImport, hzero, ← down_succ]
  | succ i ih =>
    obtain ⟨-, hint⟩ := ih (by omega)
    have hle := down_le (startKey hcl c) (i + 1)
    have hlt := startKey_lt hcl c
    have hnext := ofBE_keyAt_succ (by decide) hstart hreg hmem hc
      (hint ▸ hle.trans_lt (max_lt hlt h))
    rw [hint] at hnext
    refine ⟨hnext, ?_⟩
    rw [keyblockInt, mpzImport, hnext, ← down_succ]

theorem keysUnique_inc_iff {n : ℕ} :
    KeysUnique .inc hcl c n ↔ up (startKey hcl c) (n - 1) < 256 ^ 16 := by
  constructor
  · intro h
    -- as long as the numbers fit, the key is their sum
    have hall (i : ℕ) (hi : i ≤ n - 1) : up (startKey hcl c) i < 256 ^ 16 := by
      induction i with
      | zero => rw [up_zero]; exact startKey_lt hcl c
      | succ i ih =>
        have hkey := ofBE_keyAt_inc hstart hreg hmem hc (ih (by omega))
        have hfits := h.fits i (by omega)
        rw [keyblockInt, mpzImport, hkey] at hfits
        rw [up_succ]
        omega
    exact hall _ le_rfl
  · intro h
    have hmono := (up_strictMono (startKey hcl c))
    have hkey (i : ℕ) (hi : i < n) : ofBE (keyAt .inc hcl c i) = up (startKey hcl c) i :=
      ofBE_keyAt_inc hstart hreg hmem hc ((hmono.monotone (by omega)).trans_lt h)
    refine ⟨fun i hi => ?_, fun i j hij hj heq => ?_⟩
    · have hnext := up_succ (startKey hcl c) i
      have hle := hmono.monotone (show i + 1 ≤ n - 1 by omega)
      rw [keyblockInt, mpzImport, hkey i (by omega)]
      omega
    · rw [keyAt_eq_iff, hkey i (by omega), hkey j hj] at heq
      exact (hmono hij).ne heq

theorem keysUnique_dec_iff {n : ℕ} : KeysUnique .dec hcl c n ↔ n ≤ downLimit (startKey hcl c) := by
  have hsmall := downLimit_lt (startKey_lt hcl c)
  have hvalue {i : ℕ} (hi : i < 256 ^ 16) := ofBE_keyAt_dec hstart hreg hmem hc hi
  constructor
  · intro h
    by_contra hn
    -- one block more than the limit would already repeat a key
    have hmore : ¬ downLimit (startKey hcl c) + 1 ≤ downLimit (startKey hcl c) := by omega
    rw [← down_injective_iff] at hmore
    refine hmore fun i j hij hj heq => h.distinct i j hij (by omega) ?_
    rw [keyAt_eq_iff, (hvalue (by omega)).1, (hvalue (by omega)).1, heq]
  · intro hn
    refine ⟨fun i hi => ?_, fun i j hij hj heq => ?_⟩
    · rw [(hvalue (by omega)).2]
      exact (down_le _ _).trans_lt (max_lt (startKey_lt hcl c) (by omega))
    · rw [keyAt_eq_iff, (hvalue (by omega)).1, (hvalue (by omega)).1] at heq
      exact (down_injective_iff _ _).mpr hn i j hij hj heq

end

/-- The keys of `n` blocks are distinct when the last sum stays below 2^128,
and when the run down does not come to its first repetition. -/
theorem block_keys_unique_iff {hcl : MdHashContextList} {hash : Hashlist} {c : Member}
    (hstart : hcl.blocknumber = 0) (hreg : Registered mdHashlist hcl.hashlistvt)
    (hmem : hash ∈ hcl.hashlistvt) (hc : movedKey hash.signature = some c) (n : ℕ) :
    (KeysUnique .inc hcl c n ↔ startKey hcl c + triangle (n - 1) < 2 ^ 128) ∧
      (KeysUnique .dec hcl c n ↔ n ≤ downLimit (startKey hcl c)) := by
  rw [show (2 : ℕ) ^ 128 = 256 ^ 16 by norm_num]
  exact ⟨keysUnique_inc_iff hstart hreg hmem hc, keysUnique_dec_iff hstart hreg hmem hc⟩

end

/-- A context with the hash `sip40` and a key that is sixteen times one byte. -/
def sip40Context (key : UInt8) : MdHashContextList where
  hashlistvt := setVectorHL mdHashlist [30]
  hregister := fun _ _ => key
  blocknumber := 0

theorem sip40Context_registered (key : UInt8) :
    Registered mdHashlist (sip40Context key).hashlistvt :=
  setVectorHL_registered mdHashlist_wellNamed [30]

theorem mem_sip40Context (key : UInt8) :
    ⟨.sip40, "sip40", 5, 16⟩ ∈ (sip40Context key).hashlistvt := by
  have hlist : (⟨.sip40, "sip40", 5, 16⟩ : Hashlist) ∈ setVectorHL mdHashlist [30] := by decide
  exact hlist

theorem block_keys_unique_iff_ones :
    (KeysUnique .inc (sip40Context 1) .sipkey40 5 ↔
      startKey (sip40Context 1) .sipkey40 + triangle 4 < 2 ^ 128) ∧
    (KeysUnique .dec (sip40Context 1) .sipkey40 5 ↔
      5 ≤ downLimit (startKey (sip40Context 1) .sipkey40)) :=
  block_keys_unique_iff rfl (sip40Context_registered 1) (mem_sip40Context 1) rfl 5

/-- A key of zeros repeats in the third block on its way down, and one of `0xFF`
does not fit in the second on its way up. -/
theorem block_keys_not_unique :
    ¬ KeysUnique .dec (sip40Context 0) .sipkey40 3 ∧
      ¬ KeysUnique .inc (sip40Context 255) .sipkey40 2 := by
  constructor
  · have hkey : startKey (sip40Context 0) .sipkey40 = 0 := by decide
    rw [keysUnique_dec_iff rfl (sip40Context_registered 0) (mem_sip40Context 0) rfl, hkey]
    decide
  · have hkey : startKey (sip40Context 255) .sipkey40 = 256 ^ 16 - 1 := by decide
    rw [keysUnique_inc_iff rfl (sip40Context_registered 255) (mem_sip40Context 255) rfl, hkey]
    decide

end Mdencode.Cpp
