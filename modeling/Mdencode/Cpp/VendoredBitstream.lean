import Mdencode.Lib.BitAt
import Mdencode.Cpp.Bitstream

/-! The vendored `Bitstream.h`. The writer sets bits of a zeroed buffer byte by
byte and the reader takes them out again. As long as what is put fits the buffer
and the offset its 32 bits, the two do what `Bitstream.lean` takes them to do. -/

namespace Mdencode.Cpp.Vendored

open Mdencode.Bits

/-- `ones<WIDTH>`, an `int`. -/
def ones : ℕ → BitVec 32
  | 0 => 0#32
  | width + 1 => 1#32 <<< width ||| ones width

/-- A failed `assert` is `none`. -/
def mask (start length : ℕ) : Option (BitVec 8) :=
  if start + length ≤ 8 then
    let res := (List.range length).foldl (fun res i => res ||| 1#8 <<< i) 0#8
    some (res <<< (8 - (start + length)))
  else none

theorem getLsbD_ones (width i : ℕ) (hi : i < 32) :
    (ones width).getLsbD i = decide (i < width) := by
  induction width with
  | zero => simp [ones]
  | succ width ih =>
    rw [ones, BitVec.getLsbD_or, ih, BitVec.getLsbD_shiftLeft]
    rcases lt_trichotomy i width with h | rfl | h
    · simp [h, Nat.lt_succ_of_lt h]
    · simp [hi]
    · have : ¬ i < width + 1 := by omega
      simp [hi, not_lt.mpr h.le, (Nat.sub_pos_of_lt h).ne', this]

theorem getLsbD_foldl_mask (length i : ℕ) (hi : i < 8) :
    ((List.range length).foldl (fun res i => res ||| 1#8 <<< i) 0#8).getLsbD i =
      decide (i < length) := by
  induction length with
  | zero => simp
  | succ length ih =>
    rw [List.range_succ, List.foldl_append, List.foldl_cons, List.foldl_nil, BitVec.getLsbD_or, ih,
      BitVec.getLsbD_shiftLeft]
    rcases lt_trichotomy i length with h | rfl | h
    · simp [h, Nat.lt_succ_of_lt h]
    · simp [hi]
    · have : ¬ i < length + 1 := by omega
      simp [hi, not_lt.mpr h.le, (Nat.sub_pos_of_lt h).ne', this]

/-- The bits from place `start` on, counted from the most significant. -/
theorem mask_eq {start length : ℕ} (h : start + length ≤ 8) :
    ∃ m, mask start length = some m ∧ ∀ j < 8,
      m.getLsbD (7 - j) = (decide (start ≤ j) && decide (j < start + length)) := by
  refine ⟨_, if_pos h, fun j hj => ?_⟩
  rw [BitVec.getLsbD_shiftLeft]
  by_cases hlow : 7 - j < 8 - (start + length)
  · have : ¬ j < start + length := by omega
    simp [hlow, this]
  · rw [getLsbD_foldl_mask _ _ (by omega)]
    have h8 : 7 - j < 8 := by omega
    have hlt : j < start + length := by omega
    simp only [h8, hlow, hlt, decide_true, decide_false, Bool.not_false, Bool.and_true,
      Bool.true_and, decide_eq_decide]
    omega

/-! The writer -/

structure BitstreamWriter where
  mLength : UInt32
  mOffset : UInt32
  mData : List UInt8

namespace BitstreamWriter

/-- `memset` clears as many bytes as the length says. -/
def new (data : List UInt8) (length : UInt32) : BitstreamWriter where
  mLength := length
  mOffset := 0
  mData := data.mapIdx fun i byte => if i < length.toNat then 0 else byte

/-- `mData[index] |= bits`. There is no byte outside the buffer. -/
def orByte (index : ℕ) (bits : BitVec 32) (bsw : BitstreamWriter) : Option BitstreamWriter :=
  if index < bsw.mData.length then
    some { bsw with
      mData := bsw.mData.set index
        (bsw.mData.getD index 0 ||| UInt8.ofBitVec (bits.setWidth 8)) }
  else none

def advance (n : ℕ) (bsw : BitstreamWriter) : BitstreamWriter :=
  { bsw with mOffset := bsw.mOffset + UInt32.ofNat n }

/-- The loop of `put`. -/
def putRest (value : BitVec 32) (remainingBits index : ℕ) (bsw : BitstreamWriter) :
    Option BitstreamWriter :=
  if remainingBits = 0 then some bsw
  else if remainingBits ≤ 8 then do
    let m ← mask 0 remainingBits
    let bsw ← bsw.orByte index (value <<< (8 - remainingBits) &&& m.setWidth 32)
    some (bsw.advance remainingBits)
  else do
    let bsw ← bsw.orByte index (value.sshiftRight (remainingBits - 8))
    putRest value (remainingBits - 8) (index + 1) (bsw.advance 8)
termination_by remainingBits

/-- `put<N>` of an `int`, which is what it is called with everywhere. -/
def put (n : ℕ) (value : BitVec 32) (bsw : BitstreamWriter) : Option BitstreamWriter :=
  let index := bsw.mOffset.toNat / 8
  let offsetInByte := bsw.mOffset.toNat % 8
  let spaceLeftInFirstByte := 8 - offsetInByte
  let bitsForFirstByte := min n spaceLeftInFirstByte
  if n ≤ spaceLeftInFirstByte then do
    let bsw ← bsw.orByte index ((value &&& ones n) <<< (spaceLeftInFirstByte - n))
    some (bsw.advance n)
  else do
    let remainingBits := n - bitsForFirstByte
    let m ← mask offsetInByte spaceLeftInFirstByte
    let bsw ← bsw.orByte index
      (value.sshiftRight (n - spaceLeftInFirstByte) &&& m.setWidth 32)
    putRest value remainingBits (index + 1) (bsw.advance spaceLeftInFirstByte)

/-- The buffer has the bits in its first places and zeros in the others. -/
structure Holds (bits : List Bool) (bsw : BitstreamWriter) : Prop where
  offset : bsw.mOffset.toNat = bits.length
  places : ∀ i, bitAt bsw.mData i = bits.getD i false

/-- Room for `n` more bits, in the buffer and in the offset. -/
structure HasRoom (bits : List Bool) (n : ℕ) (bsw : BitstreamWriter) : Prop where
  buffer : bits.length + n ≤ 8 * bsw.mData.length
  offset : bits.length + n < 2 ^ 32

theorem testBit_ofBitVec (bits : BitVec 32) {j : ℕ} (hj : j < 8) :
    (UInt8.ofBitVec (bits.setWidth 8)).toNat.testBit j = bits.getLsbD j := by
  rw [UInt8.toNat_ofBitVec, BitVec.testBit_toNat, BitVec.getLsbD_setWidth]
  simp [hj]

/-- A byte whose bits are the new ones, from the place of the next bit on. -/
theorem orByte_holds {bits : List Bool} {bsw : BitstreamWriter} (h : Holds bits bsw)
    (new : List Bool) (byte : BitVec 32) (hpos : 0 < new.length)
    (hone : bits.length % 8 + new.length ≤ 8) (hroom : HasRoom bits new.length bsw)
    (hbyte : ∀ j < 8, byte.getLsbD (7 - j) =
      (decide (bits.length % 8 ≤ j) && new.getD (j - bits.length % 8) false)) :
    ∃ bsw', bsw.orByte (bits.length / 8) byte = some bsw' ∧
      Holds (bits ++ new) (bsw'.advance new.length) ∧ bsw'.mData.length = bsw.mData.length := by
  have hindex : bits.length / 8 < bsw.mData.length := by
    have := hroom.buffer
    omega
  refine ⟨_, if_pos hindex, ⟨?_, fun i => ?_⟩, List.length_set⟩
  · have hlt := hroom.offset
    rw [List.length_append, ← h.offset] at *
    simp only [advance, UInt32.toNat_add, UInt32.toNat_ofNat']
    omega
  · rw [advance, bitAt_set_or hindex, h.places, testBit_ofBitVec _ (by omega),
      hbyte _ (Nat.mod_lt i (by norm_num)), getD_append]
    by_cases hbyte : i / 8 = bits.length / 8
    · by_cases hi : i < bits.length
      · have : ¬ bits.length % 8 ≤ i % 8 := by omega
        simp [hi, this]
      · have hle : bits.length % 8 ≤ i % 8 := by omega
        have hsub : i % 8 - bits.length % 8 = i - bits.length := by omega
        rw [if_neg hi, List.getD_eq_default bits _ (not_lt.mp hi), hsub]
        simp [hbyte, hle]
    · split_ifs with hi
      · simp [hbyte]
      · rw [List.getD_eq_default bits _ (not_lt.mp hi),
          List.getD_eq_default new _ (by omega : new.length ≤ i - bits.length)]
        simp [hbyte]

/-! The bytes of `put` -/

theorem getLsbD_onlyByte (value : BitVec 32) {start n : ℕ} (h : start + n ≤ 8) {j : ℕ}
    (hj : j < 8) :
    ((value &&& ones n) <<< (8 - start - n)).getLsbD (7 - j) =
      (decide (start ≤ j) && (toBits n value.toNat).getD (j - start) false) := by
  rw [getD_toBits, BitVec.testBit_toNat, BitVec.getLsbD_shiftLeft, BitVec.getLsbD_and,
    getLsbD_ones _ _ (by omega)]
  by_cases hstart : start ≤ j
  · by_cases hn : j - start < n
    · have hplace : 7 - j - (8 - start - n) = n - 1 - (j - start) := by omega
      have hlow : ¬ 7 - j < 8 - start - n := by omega
      have hlt : n - 1 - (j - start) < n := by omega
      have h32 : 7 - j < 32 := by omega
      rw [hplace]
      simp [hstart, hn, hlow, hlt, h32]
    · have hlow : 7 - j < 8 - start - n := by omega
      simp [hn, hlow]
  · have hhigh : ¬ 7 - j - (8 - start - n) < n := by omega
    simp [hstart, hhigh]

theorem getLsbD_highBits (value : BitVec 32) {k n : ℕ} (hn : k + n ≤ 32) {i : ℕ} (hi : i < n) :
    (value.sshiftRight k).getLsbD i = (value.toNat >>> k).testBit i := by
  rw [BitVec.getLsbD_sshiftRight, if_pos (by omega), Nat.testBit_shiftRight, BitVec.testBit_toNat]
  have h32 : ¬ 32 ≤ i := by omega
  simp [h32]

theorem getLsbD_firstByte (value : BitVec 32) {start n : ℕ} (hstart : start < 8)
    (hspace : 8 - start < n) (hn : n ≤ 32) {m : BitVec 8}
    (hm : ∀ j < 8, m.getLsbD (7 - j) =
      (decide (start ≤ j) && decide (j < start + (8 - start)))) {j : ℕ} (hj : j < 8) :
    (value.sshiftRight (n - (8 - start)) &&& m.setWidth 32).getLsbD (7 - j) =
      (decide (start ≤ j) &&
        (toBits (8 - start) (value.toNat >>> (n - (8 - start)))).getD (j - start) false) := by
  rw [BitVec.getLsbD_and, BitVec.getLsbD_setWidth, hm j hj, getD_toBits]
  by_cases hle : start ≤ j
  · have hplace : 8 - start - 1 - (j - start) = 7 - j := by omega
    have hin : j - start < 8 - start := by omega
    have hend : j < start + (8 - start) := by omega
    have h32 : 7 - j < 32 := by omega
    rw [hplace, getLsbD_highBits value (n := 8 - start) (by omega) (by omega)]
    simp [hle, hin, hend, h32]
  · simp [hle]

theorem getLsbD_fullByte (value : BitVec 32) {n : ℕ} (hn : n ≤ 32) (h8 : 8 < n) {j : ℕ}
    (hj : j < 8) :
    (value.sshiftRight (n - 8)).getLsbD (7 - j) =
      (toBits 8 (value.toNat >>> (n - 8))).getD j false := by
  rw [getLsbD_highBits value (n := 8) (by omega) (by omega), getD_toBits]
  simp [hj]

theorem getLsbD_lastByte (value : BitVec 32) {n : ℕ} (hn : n ≤ 8) {m : BitVec 8}
    (hm : ∀ j < 8, m.getLsbD (7 - j) = (decide (0 ≤ j) && decide (j < 0 + n))) {j : ℕ}
    (hj : j < 8) :
    (value <<< (8 - n) &&& m.setWidth 32).getLsbD (7 - j) =
      (toBits n value.toNat).getD j false := by
  rw [BitVec.getLsbD_and, BitVec.getLsbD_setWidth, hm j hj, getD_toBits, BitVec.getLsbD_shiftLeft,
    BitVec.testBit_toNat]
  by_cases hlt : j < n
  · have hplace : 7 - j - (8 - n) = n - 1 - j := by omega
    have hlow : ¬ 7 - j < 8 - n := by omega
    have h32 : 7 - j < 32 := by omega
    rw [hplace]
    simp [hlt, hlow, h32]
  · simp [hlt]

theorem HasRoom.first {bits : List Bool} {n m : ℕ} {bsw : BitstreamWriter}
    (hroom : HasRoom bits n bsw) (hle : m ≤ n) : HasRoom bits m bsw :=
  ⟨(Nat.add_le_add_left hle _).trans hroom.buffer,
    (Nat.add_le_add_left hle _).trans_lt hroom.offset⟩

theorem HasRoom.rest {bits new : List Bool} {n : ℕ} {bsw bsw' : BitstreamWriter}
    (hroom : HasRoom bits n bsw) (hle : new.length ≤ n)
    (hdata : bsw'.mData.length = bsw.mData.length) :
    HasRoom (bits ++ new) (n - new.length) (bsw'.advance new.length) := by
  have hbuffer := hroom.buffer
  have hoffset := hroom.offset
  constructor
  · rw [List.length_append, advance, hdata]
    omega
  · rw [List.length_append]
    omega

theorem putRest_holds (value : BitVec 32) {n index : ℕ} (hn : n ≤ 32) {bits : List Bool}
    {bsw : BitstreamWriter} (h : Holds bits bsw) (hindex : bits.length = 8 * index)
    (hroom : HasRoom bits n bsw) :
    ∃ bsw', putRest value n index bsw = some bsw' ∧ Holds (bits ++ toBits n value.toNat) bsw' ∧
      bsw'.mData.length = bsw.mData.length := by
  have hmod : bits.length % 8 = 0 := by omega
  have hdiv : bits.length / 8 = index := by omega
  induction n using Nat.strong_induction_on generalizing bits index bsw with
  | _ n ih =>
    rw [putRest]
    split_ifs with hzero hlast
    · subst hzero
      exact ⟨bsw, rfl, by simpa [toBits] using h, rfl⟩
    · obtain ⟨m, hmask, hm⟩ := mask_eq (by omega : 0 + n ≤ 8)
      obtain ⟨bsw', horByte, hholds, hdata⟩ :=
        orByte_holds h (toBits n value.toNat) (value <<< (8 - n) &&& m.setWidth 32)
          (by simp; omega) (by simp [hmod, hlast]) (by simpa using hroom)
          (fun j hj => by rw [getLsbD_lastByte value hlast hm hj]; simp [hmod])
      rw [length_toBits] at hholds
      rw [hdiv] at horByte
      exact ⟨bsw'.advance n, by simp [hmask, horByte], hholds, hdata⟩
    · have hsplit : toBits n value.toNat =
          toBits 8 (value.toNat >>> (n - 8)) ++ toBits (n - 8) value.toNat := by
        rw [← toBits_add]
        congr 1
        omega
      have hlen : (toBits 8 (value.toNat >>> (n - 8))).length = 8 := length_toBits _ _
      obtain ⟨bsw', horByte, hholds, hdata⟩ :=
        orByte_holds h (toBits 8 (value.toNat >>> (n - 8))) (value.sshiftRight (n - 8))
          (by simp) (by simp [hmod]) (hroom.first (by omega))
          (fun j hj => by rw [getLsbD_fullByte value hn (by omega) hj]; simp [hmod])
      have hleft := hroom.rest (hlen.trans_le (by omega)) hdata
      rw [hlen] at hholds hleft
      rw [hdiv] at horByte
      have hnext : (bits ++ toBits 8 (value.toNat >>> (n - 8))).length = 8 * (index + 1) := by
        simp
        omega
      obtain ⟨final, hrest, hfinal, hlength⟩ := ih (n - 8) (by omega) (by omega) hholds hnext
        hleft (by omega) (by omega)
      refine ⟨final, ?_, ?_, hlength.trans hdata⟩
      · simp [horByte, hrest]
      · rw [hsplit, ← List.append_assoc]
        exact hfinal

/-- `put` appends the low bits of its argument and leaves the rest of the buffer
clear. -/
theorem put_holds (value : BitVec 32) {n : ℕ} (hpos : 0 < n) (hn : n ≤ 32) {bits : List Bool}
    {bsw : BitstreamWriter} (h : Holds bits bsw) (hroom : HasRoom bits n bsw) :
    ∃ bsw', put n value bsw = some bsw' ∧ Holds (bits ++ toBits n value.toNat) bsw' ∧
      bsw'.mData.length = bsw.mData.length := by
  have hstart : bits.length % 8 < 8 := Nat.mod_lt _ (by norm_num)
  rw [put]
  dsimp only
  rw [h.offset]
  split_ifs with hone
  · obtain ⟨bsw', horByte, hholds, hdata⟩ :=
      orByte_holds h (toBits n value.toNat) ((value &&& ones n) <<< (8 - bits.length % 8 - n))
        (by simpa using hpos) (by simp; omega) (by simpa using hroom)
        (fun j hj => getLsbD_onlyByte value (by omega) hj)
    rw [length_toBits] at hholds
    exact ⟨bsw'.advance n, by simp [horByte], hholds, hdata⟩
  · set space := 8 - bits.length % 8 with hspace
    have hsplit : toBits n value.toNat =
        toBits space (value.toNat >>> (n - space)) ++ toBits (n - space) value.toNat := by
      rw [← toBits_add]
      congr 1
      omega
    have hlen : (toBits space (value.toNat >>> (n - space))).length = space := length_toBits _ _
    obtain ⟨m, hmask, hm⟩ := mask_eq (by omega : bits.length % 8 + space ≤ 8)
    obtain ⟨bsw', horByte, hholds, hdata⟩ :=
      orByte_holds h (toBits space (value.toNat >>> (n - space)))
        (value.sshiftRight (n - space) &&& m.setWidth 32) (by omega) (by omega)
        (hroom.first (by omega))
        (fun j hj => getLsbD_firstByte value hstart (by omega) hn hm hj)
    have hleft := hroom.rest (hlen.trans_le (by omega)) hdata
    rw [hlen] at hholds hleft
    have hnext : (bits ++ toBits space (value.toNat >>> (n - space))).length =
        8 * (bits.length / 8 + 1) := by
      simp
      omega
    obtain ⟨final, hrest, hfinal, hlength⟩ := putRest_holds value (by omega : n - space ≤ 32)
      hholds hnext hleft
    have hmin : min n space = space := by omega
    refine ⟨final, ?_, ?_, hlength.trans hdata⟩
    · simp [hmask, horByte, hmin, hrest]
    · rw [hsplit, ← List.append_assoc]
      exact hfinal

end BitstreamWriter

/-! The reader -/

/-- `CalculateWidth<N>`. -/
def calculateWidth (n : ℕ) : ℕ := 8 * ((n - 1) / 8 + 1)

/-- The bits of `WidthType`, which has no type of 24 bits. The widths 40, 48 and
56 do not compile. -/
def widthType (n : ℕ) : ℕ := if calculateWidth n = 24 then 32 else calculateWidth n

structure BitstreamReader where
  mLength : UInt32
  mOffset : UInt32
  mData : List UInt8

namespace BitstreamReader

def new (data : List UInt8) (length : UInt32) : BitstreamReader where
  mLength := length
  mOffset := 0
  mData := data

def advance (n : ℕ) (bsr : BitstreamReader) : BitstreamReader :=
  { bsr with mOffset := bsr.mOffset + UInt32.ofNat n }

/-- The loop of `get`. -/
def getRest {w : ℕ} (remainingBits index : ℕ) (res : BitVec w) (bsr : BitstreamReader) :
    Option (BitVec w × BitstreamReader) :=
  if remainingBits = 0 then some (res, bsr)
  else if remainingBits ≤ 8 then do
    let byte ← bsr.mData[index]?
    let m ← mask 0 remainingBits
    let masked := byte.toBitVec &&& m
    some (res <<< remainingBits ||| (masked >>> (8 - remainingBits)).setWidth w,
      bsr.advance remainingBits)
  else do
    let byte ← bsr.mData[index]?
    getRest (remainingBits - 8) (index + 1)
      (res <<< min 8 remainingBits ||| byte.toBitVec.setWidth w) (bsr.advance 8)
termination_by remainingBits

/-- `get<N>`. -/
def get (n : ℕ) (bsr : BitstreamReader) : Option (BitVec (widthType n) × BitstreamReader) := do
  let index := bsr.mOffset.toNat / 8
  let offsetInByte := bsr.mOffset.toNat % 8
  let remainingInFirstByte := 8 - offsetInByte
  let bitsInFirstByte := min n remainingInFirstByte
  let byte ← bsr.mData[index]?
  let m ← mask offsetInByte bitsInFirstByte
  let res := (byte.toBitVec &&& m).setWidth (widthType n)
  let bsr := bsr.advance bitsInFirstByte
  let remainingBits := n - bitsInFirstByte
  let res := if remainingBits = 0 then res >>> (8 - (n + offsetInByte)) else res
  getRest remainingBits (index + 1) res bsr

theorem le_widthType {n : ℕ} (hpos : 0 < n) : n ≤ widthType n ∧ 8 ≤ widthType n := by
  rw [widthType, calculateWidth]
  split_ifs <;> omega

/-- The bits under a mask, moved to the low end. -/
theorem toNat_masked (byte : UInt8) {start length : ℕ} (h : start + length ≤ 8) {m : BitVec 8}
    (hm : ∀ j < 8, m.getLsbD (7 - j) = (decide (start ≤ j) && decide (j < start + length))) :
    ((byte.toBitVec &&& m) >>> (8 - (start + length))).toNat =
      ofBits (toBits length (byte.toNat >>> (8 - (start + length)))) := by
  rw [ofBits_toBits]
  refine Nat.eq_of_testBit_eq fun i => ?_
  rw [Nat.testBit_mod_two_pow, Nat.testBit_shiftRight, BitVec.testBit_toNat,
    BitVec.getLsbD_ushiftRight, BitVec.getLsbD_and, ← UInt8.toNat_toBitVec, BitVec.testBit_toNat]
  by_cases hi : 8 - (start + length) + i < 8
  · have hplace := hm (7 - (8 - (start + length) + i)) (by omega)
    have hself : 7 - (7 - (8 - (start + length) + i)) = 8 - (start + length) + i := by omega
    rw [hself] at hplace
    rw [hplace, Bool.and_comm]
    congr 1
    rw [← Bool.decide_and, decide_eq_decide]
    omega
  · rw [BitVec.getLsbD_of_ge _ _ (not_lt.mp hi)]
    simp

/-- Making room for some bits and setting them. -/
theorem toNat_shiftLeft_or {w k : ℕ} {res : BitVec w} {x : BitVec k} {xs ys : List Bool}
    (hres : res.toNat = ofBits xs) (hx : x.toNat = ofBits ys)
    (hfit : xs.length + ys.length ≤ w) :
    (res <<< ys.length ||| x.setWidth w).toNat = ofBits (xs ++ ys) := by
  have hxs := ofBits_lt xs
  have hys := ofBits_lt ys
  have hlow : ofBits ys < 2 ^ w := hys.trans_le (Nat.pow_le_pow_right (by norm_num) (by omega))
  have hhigh : ofBits xs * 2 ^ ys.length < 2 ^ w := by
    refine ((Nat.mul_lt_mul_right (by positivity)).mpr hxs).trans_le ?_
    rw [← pow_add]
    exact Nat.pow_le_pow_right (by norm_num) hfit
  rw [BitVec.toNat_or, BitVec.toNat_shiftLeft, BitVec.toNat_setWidth, hres, hx,
    Nat.mod_eq_of_lt hlow, Nat.shiftLeft_eq, Nat.mod_eq_of_lt hhigh, ← Nat.shiftLeft_eq,
    ← Nat.shiftLeft_add_eq_or_of_lt hys, Nat.shiftLeft_eq, ofBits_append]

/-- The next `n` bits of a buffer, from place `off` on. -/
def nextBits (mData : List UInt8) (off n : ℕ) : List Bool := ((unpack mData).drop off).take n

theorem nextBits_add (mData : List UInt8) (off m n : ℕ) :
    nextBits mData off (m + n) = nextBits mData off m ++ nextBits mData (off + m) n := by
  rw [nextBits, List.take_add, List.drop_drop, nextBits, nextBits]

theorem length_nextBits {mData : List UInt8} {off n : ℕ} (h : off + n ≤ 8 * mData.length) :
    (nextBits mData off n).length = n := by
  rw [nextBits, List.length_take, List.length_drop, length_unpack]
  omega

theorem nextBits_byte {mData : List UInt8} {off n : ℕ} (hpos : 0 < n)
    (h : off + n ≤ 8 * mData.length) (hone : off % 8 + n ≤ 8) :
    ∃ byte, mData[off / 8]? = some byte ∧
      nextBits mData off n = toBits n (byte.toNat >>> (8 - (off % 8 + n))) := by
  have hlt : off / 8 < mData.length := by omega
  refine ⟨mData[off / 8], List.getElem?_eq_getElem hlt, ?_⟩
  rw [nextBits, take_drop_unpack hlt hone, List.getD_eq_getElem _ _ hlt]

@[simp] theorem mData_advance (n : ℕ) (bsr : BitstreamReader) :
    (bsr.advance n).mData = bsr.mData := rfl

theorem toNat_advance {bsr : BitstreamReader} {n : ℕ} (h : bsr.mOffset.toNat + n < 2 ^ 32) :
    (bsr.advance n).mOffset.toNat = bsr.mOffset.toNat + n := by
  simp only [advance, UInt32.toNat_add, UInt32.toNat_ofNat']
  omega

theorem getRest_eq {w : ℕ} (n index : ℕ) (bsr : BitstreamReader) {res : BitVec w} {xs : List Bool}
    (hres : res.toNat = ofBits xs) (hindex : bsr.mOffset.toNat = 8 * index)
    (hbuffer : bsr.mOffset.toNat + n ≤ 8 * bsr.mData.length)
    (hoffset : bsr.mOffset.toNat + n < 2 ^ 32) (hfit : xs.length + n ≤ w) :
    ∃ value bsr', getRest n index res bsr = some (value, bsr') ∧
      value.toNat = ofBits (xs ++ nextBits bsr.mData bsr.mOffset.toNat n) ∧
      bsr'.mOffset.toNat = bsr.mOffset.toNat + n ∧ bsr'.mData = bsr.mData := by
  have hmod : bsr.mOffset.toNat % 8 = 0 := by omega
  have hdiv : bsr.mOffset.toNat / 8 = index := by omega
  induction n using Nat.strong_induction_on generalizing index res bsr xs with
  | _ n ih =>
    rw [getRest]
    split_ifs with hzero hlast
    · subst hzero
      exact ⟨res, bsr, rfl, by simpa [nextBits] using hres, rfl, rfl⟩
    · obtain ⟨byte, hbyte, hbits⟩ := nextBits_byte (by omega) hbuffer (by omega)
      obtain ⟨m, hmask, hm⟩ := mask_eq (by omega : 0 + n ≤ 8)
      have hmasked := toNat_masked byte (by omega) hm
      rw [hmod] at hbits
      rw [← hbits] at hmasked
      have hlen := length_nextBits hbuffer
      have hvalue := toNat_shiftLeft_or hres hmasked (by omega : _ ≤ w)
      rw [hlen, Nat.zero_add] at hvalue
      rw [hdiv] at hbyte
      exact ⟨_, _, by simp only [hbyte, hmask, Option.bind_eq_bind, Option.bind_some], hvalue,
        toNat_advance hoffset, rfl⟩
    · obtain ⟨byte, hbyte, hbits⟩ := nextBits_byte (by norm_num)
        (by omega : bsr.mOffset.toNat + 8 ≤ 8 * bsr.mData.length) (by omega)
      have hwhole : byte.toBitVec.toNat = ofBits (nextBits bsr.mData bsr.mOffset.toNat 8) := by
        rw [hbits, hmod, ofBits_toBits]
        exact (Nat.mod_eq_of_lt (UInt8.toNat_lt byte)).symm
      have hlen : (nextBits bsr.mData bsr.mOffset.toNat 8).length = 8 :=
        length_nextBits (by omega)
      have hvalue := toNat_shiftLeft_or hres hwhole (by omega : _ ≤ w)
      have hadvance : (bsr.advance 8).mOffset.toNat = bsr.mOffset.toNat + 8 :=
        toNat_advance (by omega)
      have hmin : min 8 n = 8 := by omega
      rw [hlen] at hvalue
      rw [hdiv] at hbyte
      obtain ⟨value, bsr', hrest, hfinal, hend, hdata⟩ := ih (n - 8) (by omega)
        (index + 1) (bsr.advance 8) hvalue (by omega) (by rw [hadvance, mData_advance]; omega)
        (by omega) (by rw [List.length_append]; omega) (by omega) (by omega)
      refine ⟨value, bsr', ?_, ?_, by omega, hdata⟩
      · simp only [hbyte, hmin, hrest, Option.bind_eq_bind, Option.bind_some]
      · have hsplit : n = 8 + (n - 8) := by omega
        rw [hfinal, hadvance, List.append_assoc]
        conv_rhs => rw [hsplit, nextBits_add]
        rfl

/-- `get` takes the next bits of the buffer. -/
theorem get_eq {n : ℕ} (hpos : 0 < n) {bsr : BitstreamReader}
    (hbuffer : bsr.mOffset.toNat + n ≤ 8 * bsr.mData.length)
    (hoffset : bsr.mOffset.toNat + n < 2 ^ 32) :
    ∃ value bsr', get n bsr = some (value, bsr') ∧
      value.toNat = ofBits (nextBits bsr.mData bsr.mOffset.toNat n) ∧
      bsr'.mOffset.toNat = bsr.mOffset.toNat + n ∧ bsr'.mData = bsr.mData := by
  obtain ⟨hwidth, h8⟩ := le_widthType hpos
  set off := bsr.mOffset.toNat with hoff
  set first := min n (8 - off % 8) with hfirst
  obtain ⟨byte, hbyte, hbits⟩ := nextBits_byte (by omega)
    (by omega : off + first ≤ 8 * bsr.mData.length) (by omega)
  obtain ⟨m, hmask, hm⟩ := mask_eq (by omega : off % 8 + first ≤ 8)
  have hmasked := toNat_masked byte (by omega) hm
  rw [← hbits] at hmasked
  have hlen : (nextBits bsr.mData off first).length = first := length_nextBits (by omega)
  set masked := byte.toBitVec &&& m with hmaskeddef
  have hwide : (masked.setWidth (widthType n)).toNat = masked.toNat := by
    rw [BitVec.toNat_setWidth]
    exact Nat.mod_eq_of_lt (masked.isLt.trans_le (Nat.pow_le_pow_right (by norm_num) h8))
  have hres : (if n - first = 0 then masked.setWidth (widthType n) >>> (8 - (n + off % 8))
      else masked.setWidth (widthType n)).toNat = ofBits (nextBits bsr.mData off first) := by
    rw [← hmasked]
    split_ifs with hdone
    · have hshift : 8 - (n + off % 8) = 8 - (off % 8 + first) := by omega
      rw [hshift, BitVec.toNat_ushiftRight, BitVec.toNat_ushiftRight, hwide]
    · have hshift : 8 - (off % 8 + first) = 0 := by omega
      rw [hshift, BitVec.ushiftRight_zero, hwide]
  have hadvance : (bsr.advance first).mOffset.toNat = off + first := toNat_advance (by omega)
  by_cases hdone : n - first = 0
  · have hn : first = n := by omega
    refine ⟨_, bsr.advance first, ?_, hres.trans (by rw [hn]), by omega, rfl⟩
    simp only [get, ← hoff, ← hfirst, hbyte, hmask, Option.bind_eq_bind, Option.bind_some]
    rw [hdone, getRest, if_pos rfl]
  · obtain ⟨value, bsr', hrest, hvalue, hend, hdata⟩ := getRest_eq (n - first) (off / 8 + 1)
      (bsr.advance first) hres (by omega) (by rw [hadvance, mData_advance]; omega)
      (by omega) (by omega)
    refine ⟨value, bsr', ?_, ?_, by omega, hdata⟩
    · simp only [get, ← hoff, ← hfirst, hbyte, hmask, Option.bind_eq_bind, Option.bind_some]
      exact hrest
    · have hsplit : n = first + (n - first) := by omega
      rw [hvalue, hadvance]
      conv_rhs => rw [hsplit, nextBits_add]
      rfl

end BitstreamReader

end Mdencode.Cpp.Vendored
