import Mathlib.Data.List.GetD
import Mdencode.Lib.Bits

/-! The places of the bits of a byte string, the most significant bit of a byte
first. A byte string is what it has in its places, so a writer that sets bits
one byte at a time is followed place by place, and so is a reader. -/

namespace Mdencode.Bits

/-- The bit in place `i` of a byte string. There are no bits after its end. -/
def bitAt (bytes : List UInt8) (i : ℕ) : Bool := (bytes.getD (i / 8) 0).toNat.testBit (7 - i % 8)

/-! Bit strings, place by place -/

theorem getD_toBits (n v i : ℕ) :
    (toBits n v).getD i false = (decide (i < n) && v.testBit (n - 1 - i)) := by
  induction n generalizing i with
  | zero => simp [toBits]
  | succ n ih =>
    cases i with
    | zero => simp [toBits]
    | succ i =>
      rw [toBits, List.getD_cons_succ, ih, Nat.add_sub_cancel, Nat.sub_sub, Nat.add_comm 1 i]
      simp

theorem ext_getD {xs ys : List Bool} (hlen : xs.length = ys.length)
    (h : ∀ i, xs.getD i false = ys.getD i false) : xs = ys := by
  refine List.ext_getElem hlen fun i hx hy => ?_
  have := h i
  rwa [List.getD_eq_getElem _ _ hx, List.getD_eq_getElem _ _ hy] at this

theorem getD_append (xs ys : List Bool) (i : ℕ) :
    (xs ++ ys).getD i false =
      if i < xs.length then xs.getD i false else ys.getD (i - xs.length) false := by
  split_ifs with h
  · exact List.getD_append _ _ _ _ h
  · exact List.getD_append_right _ _ _ _ (not_lt.mp h)

/-- The high bits of a number, and then the low ones. -/
theorem toBits_add (a b v : ℕ) : toBits (a + b) v = toBits a (v >>> b) ++ toBits b v := by
  induction a with
  | zero => simp [toBits]
  | succ a ih =>
    rw [Nat.succ_add, toBits, ih, toBits, List.cons_append, Nat.testBit_shiftRight,
      Nat.add_comm b a]

theorem ofBits_append (xs ys : List Bool) :
    ofBits (xs ++ ys) = ofBits xs * 2 ^ ys.length + ofBits ys := by
  induction xs with
  | nil => simp [ofBits]
  | cons x xs ih =>
    rw [List.cons_append, ofBits, ofBits, ih, List.length_append, pow_add]
    ring

/-! Byte strings, place by place -/

theorem bitAt_cons_of_lt (b : UInt8) (bytes : List UInt8) {i : ℕ} (h : i < 8) :
    bitAt (b :: bytes) i = b.toNat.testBit (7 - i) := by
  rw [bitAt, Nat.div_eq_of_lt h, Nat.mod_eq_of_lt h, List.getD_cons_zero]

theorem bitAt_cons_add (b : UInt8) (bytes : List UInt8) (i : ℕ) :
    bitAt (b :: bytes) (i + 8) = bitAt bytes i := by
  rw [bitAt, bitAt, Nat.add_div_right i (by norm_num), Nat.add_mod_right, List.getD_cons_succ]

theorem getD_unpack (bytes : List UInt8) (i : ℕ) : (unpack bytes).getD i false = bitAt bytes i := by
  induction bytes generalizing i with
  | nil => simp [unpack, bitAt]
  | cons b bytes ih =>
    rw [unpack_cons, getD_append, length_toBits]
    split_ifs with h
    · rw [getD_toBits, bitAt_cons_of_lt b bytes h]
      simp [h]
    · obtain ⟨i, rfl⟩ := Nat.exists_eq_add_of_le' (not_lt.mp h)
      rw [Nat.add_sub_cancel, ih, bitAt_cons_add]

theorem length_unpack (bytes : List UInt8) : (unpack bytes).length = 8 * bytes.length := by
  simp [unpack, List.length_flatMap, Nat.mul_comm]

theorem unpack_inj {xs ys : List UInt8} (h : unpack xs = unpack ys) : xs = ys := by
  induction xs generalizing ys with
  | nil =>
    have := congrArg List.length h
    rw [length_unpack, length_unpack, List.length_nil] at this
    exact (List.length_eq_zero_iff.mp (by omega)).symm
  | cons x xs ih =>
    cases ys with
    | nil => simp [unpack, toBits] at h
    | cons y ys =>
      rw [unpack_cons, unpack_cons] at h
      obtain ⟨hbyte, hrest⟩ := List.append_inj h (by simp)
      have hnat := congrArg ofBits hbyte
      rw [ofBits_toBits_of_lt (UInt8.toNat_lt x), ofBits_toBits_of_lt (UInt8.toNat_lt y)] at hnat
      rw [UInt8.toNat_inj.mp hnat, ih hrest]

/-- Byte strings of one length with the same bit in every place are the same. -/
theorem eq_of_bitAt {xs ys : List UInt8} (hlen : xs.length = ys.length)
    (h : ∀ i, bitAt xs i = bitAt ys i) : xs = ys := by
  refine unpack_inj (ext_getD ?_ fun i => ?_)
  · rw [length_unpack, length_unpack, hlen]
  · rw [getD_unpack, getD_unpack, h]

theorem bitAt_pack {n : ℕ} {bits : List Bool} (h : bits.length ≤ 8 * n) (i : ℕ) :
    bitAt (pack n bits) i = bits.getD i false := by
  rw [← getD_unpack, unpack_pack h, padTo, getD_append]
  split_ifs with hi
  · rfl
  · rw [List.getD_eq_getElem?_getD, List.getElem?_getD_replicate_default_eq,
      List.getD_eq_default _ _ (not_lt.mp hi)]

/-- The bytes that have the bits of a stream in its places and no others. -/
theorem eq_pack {bytes : List UInt8} {bits : List Bool} (hfit : bits.length ≤ 8 * bytes.length)
    (h : ∀ i, bitAt bytes i = bits.getD i false) : bytes = pack bytes.length bits :=
  eq_of_bitAt (length_pack _ _).symm fun i => by rw [h, bitAt_pack hfit]

theorem bitAt_replicate_zero (n i : ℕ) : bitAt (List.replicate n 0) i = false := by
  rw [bitAt, List.getD_eq_getElem?_getD, List.getElem?_getD_replicate_default_eq]
  simp

/-- Setting bits in one byte. -/
theorem bitAt_set_or {bytes : List UInt8} {k : ℕ} (hk : k < bytes.length) (b : UInt8) (i : ℕ) :
    bitAt (bytes.set k (bytes.getD k 0 ||| b)) i =
      (bitAt bytes i || (decide (i / 8 = k) && b.toNat.testBit (7 - i % 8))) := by
  rw [bitAt, bitAt]
  by_cases h : i / 8 = k
  · subst h
    rw [List.getD_eq_getElem _ _ (by simpa using hk), List.getElem_set_self, UInt8.toNat_or,
      Nat.testBit_or]
    simp
  · rw [List.getD_eq_getElem?_getD, List.getElem?_set_ne (Ne.symm h), ← List.getD_eq_getElem?_getD]
    simp [h]

/-- The bits of a byte from one place on. -/
theorem take_drop_unpack {bytes : List UInt8} {off n : ℕ} (hoff : off / 8 < bytes.length)
    (hn : off % 8 + n ≤ 8) :
    ((unpack bytes).drop off).take n =
      toBits n ((bytes.getD (off / 8) 0).toNat >>> (8 - (off % 8 + n))) := by
  refine ext_getD ?_ fun i => ?_
  · rw [List.length_take, List.length_drop, length_unpack, length_toBits]
    omega
  · rw [getD_toBits, Nat.testBit_shiftRight]
    by_cases hi : i < n
    · have hdiv : (off + i) / 8 = off / 8 := by omega
      have hmod : 8 - (off % 8 + n) + (n - 1 - i) = 7 - (off + i) % 8 := by omega
      rw [hmod, List.getD_eq_getElem?_getD, List.getElem?_take_of_lt hi, List.getElem?_drop,
        ← List.getD_eq_getElem?_getD, getD_unpack, bitAt, hdiv]
      simp [hi]
    · rw [List.getD_eq_default _ _ ((List.length_take_le _ _).trans (not_lt.mp hi))]
      simp [hi]

end Mdencode.Bits
