import Mdencode.Cpp.VendoredBitstream
import Mdencode.Cpp.ExponentFormat

/-! The vendored bit stream does what the model of the exponent table takes it
to do: any run of `put` that fits is read back by the same run of `get`, and the
table that `mdBitstream.h` writes with it is the modelled one and read back too. -/

namespace Mdencode.Cpp.Vendored

open Mdencode.Bytes Mdencode.Bits

/-! Runs of `put` and of `get` -/

namespace BitstreamWriter

/-- A cleared buffer is the start of every run. -/
theorem new_holds {data : List UInt8} {length : UInt32} (h : length.toNat = data.length) :
    Holds [] (new data length) ∧ (new data length).mData.length = data.length := by
  have hcleared : (new data length).mData = List.replicate data.length 0 := by
    refine List.eq_replicate_iff.mpr ⟨by simp [new], fun b hb => ?_⟩
    obtain ⟨i, hi, rfl⟩ := List.mem_mapIdx.mp hb
    exact if_pos (h ▸ hi)
  refine ⟨⟨rfl, fun i => ?_⟩, by simp [hcleared]⟩
  rw [hcleared, bitAt_replicate_zero, List.getD_nil]

theorem Holds.mData_eq {bits : List Bool} {bsw : BitstreamWriter} (h : Holds bits bsw)
    (hfit : bits.length ≤ 8 * bsw.mData.length) : bsw.mData = pack bsw.mData.length bits :=
  eq_pack hfit h.places

theorem orByte_eq_some {index : ℕ} {byte : BitVec 32} {bsw bsw' : BitstreamWriter}
    (h : bsw.orByte index byte = some bsw') :
    index < bsw.mData.length ∧ bsw'.mData.length = bsw.mData.length := by
  rw [orByte] at h
  split_ifs at h with hindex
  rw [← Option.some.inj h]
  exact ⟨hindex, List.length_set⟩

/-- The loop touches every byte that it has bits for. -/
theorem putRest_fits {value : BitVec 32} {n index : ℕ} {bsw bsw' : BitstreamWriter}
    (h : putRest value n index bsw = some bsw') (hpos : 0 < n) :
    8 * index + n ≤ 8 * bsw.mData.length := by
  induction n using Nat.strong_induction_on generalizing index bsw with
  | _ n ih =>
    rw [putRest, if_neg hpos.ne'] at h
    split_ifs at h with hlast
    · obtain ⟨m, -, h⟩ := Option.bind_eq_some_iff.mp h
      obtain ⟨next, horByte, -⟩ := Option.bind_eq_some_iff.mp h
      have := (orByte_eq_some horByte).1
      omega
    · obtain ⟨next, horByte, hrest⟩ := Option.bind_eq_some_iff.mp h
      have hdata := (orByte_eq_some horByte).2
      have := ih (n - 8) (by omega) hrest (by omega)
      rw [advance, hdata] at this
      omega

/-- A `put` without room for its bits leaves the buffer. -/
theorem put_fits {value : BitVec 32} {n : ℕ} {bsw bsw' : BitstreamWriter}
    (h : put n value bsw = some bsw') :
    bsw.mOffset.toNat + n ≤ 8 * bsw.mData.length := by
  rw [put] at h
  dsimp only at h
  split_ifs at h with hone
  · obtain ⟨next, horByte, -⟩ := Option.bind_eq_some_iff.mp h
    have := (orByte_eq_some horByte).1
    omega
  · obtain ⟨m, -, h⟩ := Option.bind_eq_some_iff.mp h
    obtain ⟨next, horByte, hrest⟩ := Option.bind_eq_some_iff.mp h
    have hdata := (orByte_eq_some horByte).2
    have := putRest_fits hrest (by omega)
    rw [advance, hdata] at this
    omega

end BitstreamWriter

/-- One `put` after another. -/
def putAll : List (ℕ × BitVec 32) → BitstreamWriter → Option BitstreamWriter
  | [], bsw => some bsw
  | (n, value) :: puts, bsw => bsw.put n value >>= putAll puts

/-- One `get` after another. -/
def getAll : List ℕ → BitstreamReader → Option (List ℕ)
  | [], _ => some []
  | n :: widths, bsr => do
    let (value, bsr) ← bsr.get n
    let values ← getAll widths bsr
    some (value.toNat :: values)

def widthOf (puts : List (ℕ × BitVec 32)) : ℕ := (puts.map Prod.fst).sum

def bitsOf (puts : List (ℕ × BitVec 32)) : List Bool := puts.flatMap fun p => toBits p.1 p.2.toNat

theorem widthOf_cons (p : ℕ × BitVec 32) (puts : List (ℕ × BitVec 32)) :
    widthOf (p :: puts) = p.1 + widthOf puts := by
  rw [widthOf, List.map_cons, List.sum_cons, widthOf]

theorem bitsOf_cons (p : ℕ × BitVec 32) (puts : List (ℕ × BitVec 32)) :
    bitsOf (p :: puts) = toBits p.1 p.2.toNat ++ bitsOf puts := List.flatMap_cons

theorem length_bitsOf (puts : List (ℕ × BitVec 32)) : (bitsOf puts).length = widthOf puts := by
  induction puts with
  | nil => rfl
  | cons p puts ih => rw [bitsOf_cons, List.length_append, length_toBits, ih, widthOf_cons]

/-- Widths that there is a `put` for. -/
def HasPut (puts : List (ℕ × BitVec 32)) : Prop := ∀ p ∈ puts, 0 < p.1 ∧ p.1 ≤ 32

theorem putAll_holds {puts : List (ℕ × BitVec 32)} (hwidth : HasPut puts) {bits : List Bool}
    {bsw : BitstreamWriter} (h : bsw.Holds bits) (hroom : bsw.HasRoom bits (widthOf puts)) :
    ∃ bsw', putAll puts bsw = some bsw' ∧ bsw'.Holds (bits ++ bitsOf puts) ∧
      bsw'.mData.length = bsw.mData.length := by
  induction puts generalizing bits bsw with
  | nil => exact ⟨bsw, rfl, by simpa [bitsOf] using h, rfl⟩
  | cons p puts ih =>
    obtain ⟨hpos, h32⟩ := hwidth p (by simp)
    rw [widthOf_cons] at hroom
    obtain ⟨next, hput, hnext, hdata⟩ :=
      BitstreamWriter.put_holds p.2 hpos h32 h (hroom.first (by omega))
    have hbuffer := hroom.buffer
    have hoffset := hroom.offset
    have hleft : next.HasRoom (bits ++ toBits p.1 p.2.toNat) (widthOf puts) := by
      constructor
      · rw [List.length_append, length_toBits, hdata]
        omega
      · rw [List.length_append, length_toBits]
        omega
    obtain ⟨bsw', hputs, hfinal, hlength⟩ :=
      ih (fun q hq => hwidth q (List.mem_cons_of_mem _ hq)) hnext hleft
    refine ⟨bsw', ?_, ?_, hlength.trans hdata⟩
    · rw [putAll, hput, Option.bind_eq_bind, Option.bind_some, hputs]
    · rwa [bitsOf_cons, ← List.append_assoc]

/-- A run that stays in the buffer had room for everything. -/
theorem putAll_fits {puts : List (ℕ × BitVec 32)} (hwidth : HasPut puts) {bits : List Bool}
    {bsw bsw' : BitstreamWriter} (h : bsw.Holds bits)
    (hoffset : bits.length + widthOf puts < 2 ^ 32)
    (hfit : bits.length ≤ 8 * bsw.mData.length) (hrun : putAll puts bsw = some bsw') :
    bits.length + widthOf puts ≤ 8 * bsw.mData.length := by
  induction puts generalizing bits bsw with
  | nil => exact hfit
  | cons p puts ih =>
    obtain ⟨hpos, h32⟩ := hwidth p (by simp)
    obtain ⟨next, hput, hrest⟩ := Option.bind_eq_some_iff.mp hrun
    have hone := BitstreamWriter.put_fits hput
    rw [h.offset] at hone
    rw [widthOf_cons] at hoffset ⊢
    obtain ⟨next', hput', hnext, hdata⟩ :=
      BitstreamWriter.put_holds p.2 hpos h32 h ⟨hone, by omega⟩
    obtain rfl : next' = next := Option.some.inj (hput'.symm.trans hput)
    have hlen : (bits ++ toBits p.1 p.2.toNat).length = bits.length + p.1 := by simp
    have := ih (fun q hq => hwidth q (List.mem_cons_of_mem _ hq)) hnext (by omega) (by omega) hrest
    omega

/-- The values that were put, from the place on where their bits begin. -/
theorem getAll_eq {puts : List (ℕ × BitVec 32)} (hwidth : HasPut puts) {before : List Bool}
    {bsr : BitstreamReader} (hoffset : bsr.mOffset.toNat = before.length)
    (hfit : before.length + widthOf puts ≤ 8 * bsr.mData.length)
    (hlt : before.length + widthOf puts < 2 ^ 32)
    (hdata : ∃ zeros, unpack bsr.mData = before ++ bitsOf puts ++ zeros) :
    getAll (puts.map Prod.fst) bsr = some (puts.map fun p => p.2.toNat % 2 ^ p.1) := by
  induction puts generalizing before bsr with
  | nil => rfl
  | cons p puts ih =>
    obtain ⟨zeros, hzeros⟩ := hdata
    rw [widthOf_cons] at hfit hlt
    rw [bitsOf_cons] at hzeros
    obtain ⟨value, next, hget, hvalue, hend, hmData⟩ :=
      BitstreamReader.get_eq (hwidth p (by simp)).1 (by omega : bsr.mOffset.toNat + p.1 ≤ _)
        (by omega)
    have hbits : BitstreamReader.nextBits bsr.mData bsr.mOffset.toNat p.1 =
        toBits p.1 p.2.toNat := by
      have hlen := length_toBits p.1 p.2.toNat
      rw [BitstreamReader.nextBits, hzeros, hoffset, List.append_assoc, List.drop_left,
        List.append_assoc, List.take_append_of_le_length hlen.ge, List.take_of_length_le hlen.le]
    have hlen : (before ++ toBits p.1 p.2.toNat).length = before.length + p.1 := by simp
    have hrest := @ih (fun q hq => hwidth q (List.mem_cons_of_mem _ hq))
      (before ++ toBits p.1 p.2.toNat) next (by omega) (by rw [hmData]; omega) (by omega)
      ⟨zeros, by rw [hmData, hzeros]; simp⟩
    rw [List.map_cons, getAll, hget]
    simp only [Option.bind_eq_bind, Option.bind_some, hrest, List.map_cons, hvalue, hbits,
      ofBits_toBits]

/-- A run of `put` stays in the buffer when it has the bytes for all bits, and
what it leaves there is read back by `get` with the same widths. -/
theorem puts_restored_iff (data : List UInt8) (puts : List (ℕ × BitVec 32))
    (hwidth : HasPut puts) (hlength : data.length < 2 ^ 32) (hoffset : widthOf puts < 2 ^ 32) :
    (∃ bsw, putAll puts (BitstreamWriter.new data (UInt32.ofNat data.length)) = some bsw ∧
      bsw.mData = pack data.length (bitsOf puts) ∧
      getAll (puts.map Prod.fst)
          (BitstreamReader.new bsw.mData (UInt32.ofNat data.length)) =
        some (puts.map fun p => p.2.toNat % 2 ^ p.1)) ↔
    widthOf puts ≤ 8 * data.length := by
  obtain ⟨hnew, hlen⟩ := BitstreamWriter.new_holds
    (UInt32.toNat_ofNat_of_lt' hlength : (UInt32.ofNat data.length).toNat = data.length)
  have hzero : ([] : List Bool).length + widthOf puts = widthOf puts := Nat.zero_add _
  constructor
  · intro h
    obtain ⟨bsw, hrun, -, -⟩ := h
    have := putAll_fits hwidth hnew (by omega) (Nat.zero_le _) hrun
    omega
  · intro hfit
    obtain ⟨bsw, hrun, hholds, hdata⟩ := putAll_holds hwidth hnew ⟨by omega, by omega⟩
    rw [List.nil_append] at hholds
    have hbits := length_bitsOf puts
    have hpack := hholds.mData_eq (by omega)
    rw [hdata, hlen] at hpack
    refine ⟨bsw, hrun, hpack, ?_⟩
    refine @getAll_eq puts hwidth [] _ rfl (by simp [BitstreamReader.new, hdata, hlen, hfit])
      (by omega) ⟨List.replicate (8 * data.length - widthOf puts) false, ?_⟩
    rw [BitstreamReader.new, hpack, unpack_pack (by omega), padTo, hbits, List.nil_append]

/-- Two values in a buffer of two bytes, the second across their border. -/
theorem puts_restored_iff_two : HasPut [(7, 100#32), (6, 63#32)] ∧
    ([7, 9] : List UInt8).length < 2 ^ 32 ∧ widthOf [(7, 100#32), (6, 63#32)] < 2 ^ 32 ∧
    ∃ bsw, putAll [(7, 100#32), (6, 63#32)] (BitstreamWriter.new [7, 9] 2) = some bsw ∧
      bsw.mData = pack 2 (bitsOf [(7, 100#32), (6, 63#32)]) ∧
      getAll [7, 6] (BitstreamReader.new bsw.mData 2) = some [100, 63] :=
  ⟨by simp [HasPut], by decide, by decide,
    (puts_restored_iff [7, 9] [(7, 100#32), (6, 63#32)] (by simp [HasPut]) (by decide)
      (by decide)).mpr (by decide)⟩

/-! The table, written -/

/-- The buffer of one writer holds the bits of the other. -/
structure Writes (bsw : BitstreamWriter) (model : Cpp.BitstreamWriter) : Prop where
  holds : bsw.Holds model.bits
  length : bsw.mData.length = model.length

theorem toBits_ofInt {n : ℕ} (hn : n ≤ 32) (value : ℤ) :
    toBits n (BitVec.ofInt 32 value).toNat = toBits n (value % 2 ^ n).toNat := by
  have hdvd : (2 ^ n : ℤ) ∣ 2 ^ 32 := pow_dvd_pow 2 hn
  have hmod : ((value % 2 ^ 32).toNat : ℤ) % 2 ^ n = value % 2 ^ n := by
    rw [Int.toNat_of_nonneg (Int.emod_nonneg _ (by norm_num)), Int.emod_emod_of_dvd _ hdvd]
  have hnat : (value % 2 ^ 32).toNat % 2 ^ n = (value % 2 ^ n).toNat := by
    zify
    rw [hmod, Int.toNat_of_nonneg (Int.emod_nonneg _ (by positivity))]
  rw [BitVec.toNat_ofInt, ← hnat, toBits_mod]
  rfl

theorem put_writes {n : ℕ} (hpos : 0 < n) (hn : n ≤ 32) (value : ℤ) {bsw : BitstreamWriter}
    {model : Cpp.BitstreamWriter} (h : Writes bsw model)
    (hfit : model.bits.length + n ≤ 8 * model.length) (hsmall : 8 * model.length < 2 ^ 32) :
    ∃ bsw', bsw.put n (BitVec.ofInt 32 value) = some bsw' ∧ Writes bsw' (model.put n value) := by
  obtain ⟨bsw', hput, hholds, hdata⟩ := BitstreamWriter.put_holds (BitVec.ofInt 32 value) hpos hn
    h.holds ⟨by rw [h.length]; exact hfit, by omega⟩
  rw [toBits_ofInt hn] at hholds
  exact ⟨bsw', hput, hholds, hdata.trans h.length⟩

/-- One block of `mdzipModExponentBitstream26`. -/
def putExponent26 (mb : MdBitstream) (last : Bool) (byteblock : List UInt8)
    (bsw : Option BitstreamWriter) : Option BitstreamWriter := do
  let bsw ← bsw
  let modexponent : ℤ := calcExponent (mpzImport byteblock)
  if last = false then
    let modexponent := modexponent - mb.minExponentMinusLastBlock
    if 2 ≤ mb.bitformat ∧ mb.bitformat ≤ 6 then
      bsw.put mb.bitformat.toNat (BitVec.ofInt 32 modexponent)
    else some bsw
  else bsw.put 7 (BitVec.ofInt 32 modexponent)

/-- One block of `mdzipModExponentBitstream`. -/
def putExponent (_ : Bool) (byteblock : List UInt8) (bsw : Option BitstreamWriter) :
    Option BitstreamWriter := do
  let bsw ← bsw
  bsw.put 7 (BitVec.ofInt 32 (calcExponent (mpzImport byteblock)))

/-- The writer when the table is done. `memory` is what the new buffer holds. -/
def chosenWriter (mb : MdBitstream) (memory nf : List UInt8) : Option BitstreamWriter :=
  let bsw := BitstreamWriter.new memory (UInt32.ofInt mb.modByteBlockSize)
  if mb.bitformat < 7 then
    mb.forBlocks (putExponent26 mb) nf (bsw.put 7 (BitVec.ofInt 32 mb.minExponentMinusLastBlock))
  else mb.forBlocks putExponent nf (some bsw)

/-- What a pass needs of its blocks: each puts `f` bits and the last one 7. -/
structure PassStep (f : ℕ) (body : Bool → List UInt8 → Option BitstreamWriter →
    Option BitstreamWriter) (model : Bool → List UInt8 → Cpp.BitstreamWriter →
    Cpp.BitstreamWriter) : Prop where
  writes : ∀ last byteblock bsw mbsw, Writes bsw mbsw →
    mbsw.bits.length + (if last then 7 else f) ≤ 8 * mbsw.length → 8 * mbsw.length < 2 ^ 32 →
    ∃ bsw', body last byteblock (some bsw) = some bsw' ∧ Writes bsw' (model last byteblock mbsw)
  bits : ∀ last byteblock mbsw, (model last byteblock mbsw).bits.length =
    mbsw.bits.length + (if last then 7 else f)
  length : ∀ last byteblock mbsw, (model last byteblock mbsw).length = mbsw.length

theorem forByteblocks_writes {f : ℕ} {body : Bool → List UInt8 → Option BitstreamWriter →
    Option BitstreamWriter} {model : Bool → List UInt8 → Cpp.BitstreamWriter →
    Cpp.BitstreamWriter} (hstep : PassStep f body model) (blocksize blockremainder m : ℕ)
    (nf : List UInt8) {bsw : BitstreamWriter} {mbsw : Cpp.BitstreamWriter} (h : Writes bsw mbsw)
    (hfit : mbsw.bits.length + (m * f + 7) ≤ 8 * mbsw.length) (hsmall : 8 * mbsw.length < 2 ^ 32) :
    ∃ bsw', forByteblocks body blocksize blockremainder (m + 1) nf (some bsw) = some bsw' ∧
      Writes bsw' (forByteblocks model blocksize blockremainder (m + 1) nf mbsw) := by
  induction m generalizing nf bsw mbsw with
  | zero =>
    obtain ⟨bsw', hbody, hwrites⟩ :=
      hstep.writes true (nf.take (if 0 = 0 ∧ blockremainder ≠ blocksize then blockremainder
        else blocksize)) bsw mbsw h (by simp; omega) hsmall
    exact ⟨bsw', by simpa [forByteblocks] using hbody, by simpa [forByteblocks] using hwrites⟩
  | succ m ih =>
    have hmul : (m + 1) * f = m * f + f := Nat.succ_mul m f
    obtain ⟨next, hbody, hnext⟩ :=
      hstep.writes false (nf.take (if m + 1 = 0 ∧ blockremainder ≠ blocksize then blockremainder
        else blocksize)) bsw mbsw h (by simp; omega) hsmall
    rw [forByteblocks, forByteblocks, decide_eq_false (Nat.succ_ne_zero m), hbody]
    refine ih _ hnext ?_ ?_
    · rw [hstep.bits, hstep.length]
      simp
      omega
    · rwa [hstep.length]

theorem PassStep.length_forByteblocks {f : ℕ} {body : Bool → List UInt8 → Option BitstreamWriter →
    Option BitstreamWriter} {model : Bool → List UInt8 → Cpp.BitstreamWriter →
    Cpp.BitstreamWriter} (hstep : PassStep f body model) (blocksize blockremainder left : ℕ)
    (nf : List UInt8) (mbsw : Cpp.BitstreamWriter) :
    (forByteblocks model blocksize blockremainder left nf mbsw).length = mbsw.length := by
  induction left generalizing nf mbsw with
  | zero => rfl
  | succ left ih => rw [forByteblocks, ih, hstep.length]

theorem passStep26 {mb : MdBitstream} {f : ℕ} (hf : mb.bitformat = f) (h2 : 2 ≤ f) (h6 : f < 7) :
    PassStep f (putExponent26 mb) mb.putExponent26 := by
  have hformat : 2 ≤ mb.bitformat ∧ mb.bitformat ≤ 6 := by omega
  refine ⟨fun last byteblock bsw mbsw h hfit hsmall => ?_, fun last byteblock mbsw => ?_,
    fun last byteblock mbsw => ?_⟩
  · cases last with
    | true => exact put_writes (by norm_num) (by norm_num) _ h hfit hsmall
    | false =>
      rw [MdBitstream.putExponent26, if_pos rfl, if_pos hformat, hf, Int.toNat_natCast]
      rw [if_neg Bool.false_ne_true] at hfit
      obtain ⟨bsw', hput, hwrites⟩ := put_writes (n := f) (by omega) (by omega)
        ((calcExponent (mpzImport byteblock) : ℤ) - mb.minExponentMinusLastBlock) h hfit hsmall
      refine ⟨bsw', ?_, hwrites⟩
      rw [putExponent26, Option.bind_eq_bind, Option.bind_some, if_pos rfl, if_pos hformat, hf,
        Int.toNat_natCast, hput]
  · cases last with
    | true => exact MdBitstream.length_put 7 _ mbsw
    | false =>
      rw [MdBitstream.putExponent26, if_pos rfl, if_pos hformat, MdBitstream.length_put, hf,
        Int.toNat_natCast]
      rfl
  · rw [MdBitstream.putExponent26]
    split_ifs <;> rfl

theorem passStep7 : PassStep 7 putExponent MdBitstream.putExponent where
  writes last byteblock bsw mbsw h hfit hsmall :=
    put_writes (by norm_num) (by norm_num) _ h (by simpa using hfit) hsmall
  bits last byteblock mbsw := by simp [MdBitstream.putExponent]
  length _ _ _ := rfl

/-- The table is the modelled one. -/
theorem chosenWriter_writes {mb : MdBitstream} {f m : ℕ} (hf : mb.bitformat = f) (h2 : 2 ≤ f)
    (h7 : f ≤ 7) (hcount : mb.blockcount = (m + 1 : ℕ))
    (hsize : mb.modByteBlockSize = (MdBitstream.tableBytes f (m + 1) : ℕ))
    (hsmall : 8 * MdBitstream.tableBytes f (m + 1) < 2 ^ 32) {memory : List UInt8}
    (hmemory : memory.length = MdBitstream.tableBytes f (m + 1)) (nf : List UInt8) :
    ∃ bsw, chosenWriter mb memory nf = some bsw ∧ bsw.mData = (mb.chosenWriter nf).data ∧
      (mb.chosenWriter nf).length = MdBitstream.tableBytes f (m + 1) := by
  have hnew : Writes (BitstreamWriter.new memory (UInt32.ofInt mb.modByteBlockSize))
      (Cpp.BitstreamWriter.new mb.modByteBlockSize.toNat) := by
    have hlength : (UInt32.ofInt mb.modByteBlockSize).toNat = memory.length := by
      rw [hsize, hmemory, UInt32.ofInt, UInt32.toNat_ofNat']
      omega
    obtain ⟨hholds, hdata⟩ := BitstreamWriter.new_holds hlength
    refine ⟨hholds, hdata.trans ?_⟩
    rw [hmemory, hsize, Int.toNat_natCast]
    rfl
  have hmodel : (Cpp.BitstreamWriter.new mb.modByteBlockSize.toNat).length =
      MdBitstream.tableBytes f (m + 1) := by
    rw [hsize, Int.toNat_natCast]
    rfl
  have hbits := MdBitstream.bits_le_tableBytes f m
  obtain ⟨bsw, hrun, hwrites⟩ : ∃ bsw, chosenWriter mb memory nf = some bsw ∧
      Writes bsw (mb.chosenWriter nf) := by
    simp only [chosenWriter, MdBitstream.chosenWriter, hf]
    split_ifs with h6
    · rw [if_pos (by omega)] at hbits
      obtain ⟨first, hput, hfirst⟩ := put_writes (by norm_num : 0 < 7) (by norm_num)
        mb.minExponentMinusLastBlock hnew (by rw [hmodel]; simp [Cpp.BitstreamWriter.new]; omega)
        (by rwa [hmodel])
      rw [hput, MdBitstream.bitstreamWriter26, MdBitstream.forBlocks, MdBitstream.forBlocks, hcount,
        Int.toNat_natCast]
      refine forByteblocks_writes (passStep26 hf h2 (by omega)) _ _ m nf hfirst ?_ ?_
      · rw [MdBitstream.length_put]
        exact (by simpa [Cpp.BitstreamWriter.new, Cpp.BitstreamWriter.put, hsize] using hbits)
      · exact (by simpa [Cpp.BitstreamWriter.new, Cpp.BitstreamWriter.put, hsize] using hsmall)
    · obtain rfl : f = 7 := by omega
      rw [MdBitstream.bitstreamWriter, MdBitstream.forBlocks, MdBitstream.forBlocks, hcount,
        Int.toNat_natCast]
      refine forByteblocks_writes passStep7 _ _ m nf hnew ?_ ?_
      · simpa [Cpp.BitstreamWriter.new, hsize] using hbits
      · simpa [Cpp.BitstreamWriter.new, hsize] using hsmall
  refine ⟨bsw, hrun, ?_⟩
  have hlen : (mb.chosenWriter nf).length = MdBitstream.tableBytes f (m + 1) := by
    rw [MdBitstream.chosenWriter, hf]
    split_ifs with h6
    · rw [MdBitstream.bitstreamWriter26, MdBitstream.forBlocks,
        (passStep26 hf h2 (by omega)).length_forByteblocks]
      exact hmodel
    · rw [MdBitstream.bitstreamWriter, MdBitstream.forBlocks, passStep7.length_forByteblocks]
      exact hmodel
  have hfit : (mb.chosenWriter nf).bits.length ≤ 8 * bsw.mData.length := by
    rw [MdBitstream.length_chosenWriter hf h2 h7 hcount nf, hwrites.length, hlen]
    exact hbits
  refine ⟨?_, hlen⟩
  rw [hwrites.holds.mData_eq hfit, hwrites.length]
  rfl

/-! The table, read -/

/-- One reader is at the place from which the other has its bits. -/
structure Reads (bsr : BitstreamReader) (model : Cpp.BitstreamReader) : Prop where
  bits : model.bits = (unpack bsr.mData).drop bsr.mOffset.toNat
  small : 8 * bsr.mData.length < 2 ^ 32

theorem get_reads {n : ℕ} (hpos : 0 < n) {bsr : BitstreamReader} {model : Cpp.BitstreamReader}
    (h : Reads bsr model) (hfit : n ≤ model.bits.length) :
    ∃ value bsr', bsr.get n = some (value, bsr') ∧ value.toNat = (model.get n).1 ∧
      Reads bsr' (model.get n).2 := by
  have hlen : model.bits.length = 8 * bsr.mData.length - bsr.mOffset.toNat := by
    rw [h.bits, List.length_drop, length_unpack]
  have hsmall := h.small
  obtain ⟨value, bsr', hget, hvalue, hoffset, hdata⟩ :=
    BitstreamReader.get_eq hpos (by omega : bsr.mOffset.toNat + n ≤ _) (by omega)
  refine ⟨value, bsr', hget, ?_, ?_, by rwa [hdata]⟩
  · rw [hvalue, BitstreamReader.nextBits, ← h.bits]
    rfl
  · rw [hdata, hoffset, ← List.drop_drop, ← h.bits]
    rfl

/-- The exponent of a block, as the loops of `mdUnzip47.h` take it. -/
def readExponent (mformat modexponentbase : ℕ) (last : Bool) (bsr : BitstreamReader) :
    Option (ℕ × BitstreamReader) :=
  if last = false then
    if 2 ≤ mformat ∧ mformat ≤ 6 then do
      let (modexponent, bsr) ← bsr.get mformat
      some (modexponent.toNat + modexponentbase, bsr)
    else if mformat = 7 then do
      let (modexponent, bsr) ← bsr.get 7
      some (modexponent.toNat, bsr)
    else some (0, bsr)
  else do
    let (modexponent, bsr) ← bsr.get 7
    some (modexponent.toNat, bsr)

/-- The counter is of the blocks that are left. -/
def readExponents (mformat modexponentbase : ℕ) : ℕ → BitstreamReader → Option (List ℕ)
  | 0, _ => some []
  | left + 1, bsr => do
    let (modexponent, bsr) ← readExponent mformat modexponentbase (left = 0) bsr
    let modexponents ← readExponents mformat modexponentbase left bsr
    some (modexponent :: modexponents)

/-- The exponents of a table of `modExpBlock`. -/
def readTable (mformat blockcount : ℕ) (modExpBlock : List UInt8) : Option (List ℕ) :=
  let bsr := BitstreamReader.new modExpBlock (UInt32.ofNat modExpBlock.length)
  if mformat < 7 then do
    let (modexponentbase, bsr) ← bsr.get 7
    readExponents mformat modexponentbase.toNat blockcount bsr
  else readExponents mformat 0 blockcount bsr

theorem readExponent_reads {f : ℕ} (h2 : 2 ≤ f) (h7 : f ≤ 7) (base : ℕ) (last : Bool)
    {bsr : BitstreamReader} {model : Cpp.BitstreamReader} (h : Reads bsr model)
    (hfit : (if last then 7 else f) ≤ model.bits.length) :
    ∃ bsr', readExponent f base last bsr =
        some ((MdUnzip47.readExponent f base last model).1, bsr') ∧
      Reads bsr' (MdUnzip47.readExponent f base last model).2 := by
  cases last with
  | true =>
    obtain ⟨value, bsr', hget, hvalue, hreads⟩ := get_reads (by norm_num : 0 < 7) h hfit
    exact ⟨bsr', by simp [readExponent, MdUnzip47.readExponent, hget, hvalue], hreads⟩
  | false =>
    rw [if_neg Bool.false_ne_true] at hfit
    by_cases h6 : f ≤ 6
    · obtain ⟨value, bsr', hget, hvalue, hreads⟩ := get_reads (by omega : 0 < f) h hfit
      refine ⟨bsr', by simp [readExponent, MdUnzip47.readExponent, hget, hvalue, h2, h6], ?_⟩
      simpa [MdUnzip47.readExponent, h2, h6] using hreads
    · obtain rfl : f = 7 := by omega
      obtain ⟨value, bsr', hget, hvalue, hreads⟩ := get_reads (by norm_num : 0 < 7) h hfit
      exact ⟨bsr', by simp [readExponent, MdUnzip47.readExponent, hget, hvalue], hreads⟩

theorem readExponents_reads {f : ℕ} (h2 : 2 ≤ f) (h7 : f ≤ 7) (base m : ℕ)
    {bsr : BitstreamReader} {model : Cpp.BitstreamReader} (h : Reads bsr model)
    (hfit : m * f + 7 ≤ model.bits.length) :
    readExponents f base (m + 1) bsr = some (MdUnzip47.readExponents f base (m + 1) model) := by
  induction m generalizing bsr model with
  | zero =>
    obtain ⟨bsr', hread, -⟩ := readExponent_reads h2 h7 base true h (by simp; omega)
    simp [readExponents, MdUnzip47.readExponents, hread]
  | succ m ih =>
    have hmul : (m + 1) * f = m * f + f := Nat.succ_mul m f
    obtain ⟨bsr', hread, hreads⟩ := readExponent_reads h2 h7 base false h (by simp; omega)
    have hbits := MdUnzip47.bits_readExponent h2 h7 base false model
    have hrest := ih hreads (by rw [hbits, List.length_drop]; simp; omega)
    rw [readExponents, decide_eq_false (Nat.succ_ne_zero m), hread, MdUnzip47.readExponents,
      decide_eq_false (Nat.succ_ne_zero m)]
    simp only [Option.bind_eq_bind, Option.bind_some, hrest]

/-- Any table long enough is read as the model reads it. -/
theorem readTable_eq {f m : ℕ} (h2 : 2 ≤ f) (h7 : f ≤ 7) {modExpBlock : List UInt8}
    (hfit : (if f < 7 then 7 else 0) + (m * f + 7) ≤ 8 * modExpBlock.length)
    (hsmall : 8 * modExpBlock.length < 2 ^ 32) :
    readTable f (m + 1) modExpBlock =
      some (MdUnzip47.readExponents f
        (MdUnzip47.readBase f (Cpp.BitstreamReader.new modExpBlock)).1 (m + 1)
        (MdUnzip47.readBase f (Cpp.BitstreamReader.new modExpBlock)).2) := by
  have hnew : Reads (BitstreamReader.new modExpBlock (UInt32.ofNat modExpBlock.length))
      (Cpp.BitstreamReader.new modExpBlock) := ⟨rfl, hsmall⟩
  have hbits : (Cpp.BitstreamReader.new modExpBlock).bits.length = 8 * modExpBlock.length :=
    length_unpack modExpBlock
  rw [readTable, MdUnzip47.readBase]
  dsimp only
  split_ifs at hfit ⊢ with h6
  · obtain ⟨value, bsr', hget, hvalue, hreads⟩ := get_reads (by norm_num : 0 < 7) hnew (by omega)
    have hleft : m * f + 7 ≤ ((Cpp.BitstreamReader.new modExpBlock).get 7).2.bits.length := by
      rw [Cpp.BitstreamReader.get, List.length_drop, hbits]
      omega
    rw [hget, Option.bind_eq_bind, Option.bind_some]
    dsimp only
    rw [readExponents_reads h2 h7 _ m hreads hleft, hvalue]
  · exact readExponents_reads h2 h7 0 m hnew (by dsimp only; omega)

/-! The table of a file -/

section
variable {blocksize blockremainder m f : ℕ} {nf : List UInt8} {mb : MdBitstream}

/-- The blocks before the last, put in a table of format 7. -/
theorem foldl_putExponent (bsw : Cpp.BitstreamWriter) :
    (List.range m).foldl
        (fun bsw i => MdBitstream.putExponent false (fileBlock blocksize nf i) bsw) bsw =
      { bsw with bits := bsw.bits ++ (exponentsOf blocksize nf m).flatMap (toBits 7) } := by
  induction m with
  | zero => simp [exponentsOf]
  | succ m ih =>
    rw [List.range_succ, List.foldl_append, ih, List.foldl_cons, List.foldl_nil, exponentsOf_succ,
      MdBitstream.putExponent, MdBitstream.put_natCast]
    simp [mpzImport, List.append_assoc]

theorem bits_bitstreamWriter (hrem : blockremainder ≤ blocksize)
    (hlen : nf.length = m * blocksize + blockremainder) (hsize : mb.blocksize = blocksize)
    (hremainder : mb.blockremainder = blockremainder) (hcount : mb.blockcount = (m + 1 : ℕ)) :
    (mb.bitstreamWriter nf).bits = (exponentsOf blocksize nf (m + 1)).flatMap (toBits 7) := by
  rw [MdBitstream.bitstreamWriter, MdBitstream.forBlocks, hsize, hremainder, hcount,
    Int.toNat_natCast, Int.toNat_natCast, Int.toNat_natCast, forByteblocks_eq hrem hlen,
    foldl_putExponent, MdBitstream.putExponent, MdBitstream.put_natCast, exponentsOf_succ]
  simp [Cpp.BitstreamWriter.new, mpzImport]

theorem bits_bitstreamWriter26 {base : ℕ} (hrem : blockremainder ≤ blocksize)
    (hlen : nf.length = m * blocksize + blockremainder) (hsize : mb.blocksize = blocksize)
    (hremainder : mb.blockremainder = blockremainder) (hcount : mb.blockcount = (m + 1 : ℕ))
    (hf : mb.bitformat = f) (h2 : 2 ≤ f) (h6 : f ≤ 6)
    (hbase : mb.minExponentMinusLastBlock = base)
    (hle : ∀ e ∈ exponentsOf blocksize nf m, base ≤ e) :
    (mb.bitstreamWriter26 nf).bits = toBits 7 base ++ MdBitstream.tableBits f base
      (exponentsOf blocksize nf m) (calcExponent (ofBE (fileBlock blocksize nf m))) := by
  rw [MdBitstream.bitstreamWriter26, MdBitstream.forBlocks, hsize, hremainder, hcount,
    Int.toNat_natCast, Int.toNat_natCast, Int.toNat_natCast, forByteblocks_eq hrem hlen,
    MdBitstream.foldl_putExponent26 hf h2 h6 hbase hle, hbase, MdBitstream.put_natCast,
    MdBitstream.putExponent26, if_neg (by simp), MdBitstream.put_natCast]
  simp [Cpp.BitstreamWriter.new, mpzImport, MdBitstream.tableBits]

end

/-- Seven bits each, and no base. -/
theorem readExponents_seven {exponents : List ℕ} (hsmall : ∀ e ∈ exponents, e < 2 ^ 7) (base : ℕ)
    (rest : List Bool) :
    MdUnzip47.readExponents 7 base exponents.length ⟨exponents.flatMap (toBits 7) ++ rest⟩ =
      exponents := by
  induction exponents with
  | nil => rfl
  | cons e exponents ih =>
    have hget : (Cpp.BitstreamReader.mk ((e :: exponents).flatMap (toBits 7) ++ rest)).get 7 =
        (e, ⟨exponents.flatMap (toBits 7) ++ rest⟩) := by
      rw [List.flatMap_cons, List.append_assoc, MdUnzip47.get_append (length_toBits 7 e),
        ofBits_toBits_of_lt (hsmall e (by simp))]
    have hread (last : Bool) : MdUnzip47.readExponent 7 base last
        ⟨(e :: exponents).flatMap (toBits 7) ++ rest⟩ =
          (e, ⟨exponents.flatMap (toBits 7) ++ rest⟩) := by
      cases last <;> simpa [MdUnzip47.readExponent] using hget
    rw [List.length_cons, MdUnzip47.readExponents, hread]
    dsimp only
    rw [ih fun e he => hsmall e (List.mem_cons_of_mem _ he)]

/-- The base is not looked at when there is one block. -/
theorem readExponents_based {f base : ℕ} (h2 : 2 ≤ f) (h6 : f ≤ 6) {exponents : List ℕ}
    (hfit : ∀ e ∈ exponents, base ≤ e ∧ e - base < 2 ^ f)
    (hbase : ∀ e ∈ exponents, e < 2 ^ 7) {last : ℕ} (hlast : last < 2 ^ 7) (rest : List Bool) :
    MdUnzip47.readExponents f (base % 2 ^ 7) (exponents.length + 1)
        ⟨MdBitstream.tableBits f base exponents last ++ rest⟩ = exponents ++ [last] := by
  rcases exponents with - | ⟨e, exponents⟩
  · exact MdUnzip47.readExponents_tableBits h2 h6 (by simp) hlast rest
  · have hlt : base < 2 ^ 7 := (hfit e (by simp)).1.trans_lt (hbase e (by simp))
    rw [Nat.mod_eq_of_lt hlt]
    exact MdUnzip47.readExponents_tableBits h2 h6 hfit hlast rest

/-- The base of the exponents before the last, as a number. -/
theorem exists_base (init : List ℕ) (last : ℕ) :
    ∃ base : ℕ, leastExponent (init ++ [last]) = base ∧
      ∀ e ∈ init, base ≤ e ∧ ((e - base : ℕ) : ℤ) ≤ spread (init ++ [last]) := by
  have hinit : (init ++ [last]).dropLast = init := List.dropLast_concat
  have hnonneg : 0 ≤ leastExponent (init ++ [last]) := by
    rw [leastExponent, le_foldl_min_iff]
    refine ⟨by norm_num, fun e he => ?_⟩
    obtain ⟨e, -, rfl⟩ := List.mem_map.mp he
    exact Int.natCast_nonneg e
  obtain ⟨base, hbase⟩ := Int.eq_ofNat_of_zero_le hnonneg
  refine ⟨base, hbase, fun e he => ?_⟩
  have hle := (le_foldl_min_iff.mp (le_refl (leastExponent (init ++ [last])))).2 e
    (List.mem_map.mpr ⟨e, hinit.symm ▸ he, rfl⟩)
  have hge := (foldl_max_le_iff.mp (le_refl (largestExponent (init ++ [last])))).2 e
    (List.mem_map.mpr ⟨e, List.mem_append_left _ he, rfl⟩)
  rw [hbase] at hle
  rw [spread, hbase]
  omega

/-- The modelled table gives the exponents back, whatever the format. -/
theorem readExponents_chosenWriter {blocksize blockremainder m f : ℕ} {file : List UInt8}
    {mb : MdBitstream} (hrem : blockremainder ≤ blocksize)
    (hlen : file.length = m * blocksize + blockremainder)
    (h : MdBitstream.Measured blocksize blockremainder m (exponentsOf blocksize file (m + 1)) f mb)
    (h2 : 2 ≤ f) (h7 : f ≤ 7)
    (hwidth : f < 7 → spread (exponentsOf blocksize file (m + 1)) < 2 ^ f)
    (hseven : ∀ e ∈ exponentsOf blocksize file (m + 1), e < 2 ^ 7) (zeros : List Bool) :
    MdUnzip47.readExponents f
        (MdUnzip47.readBase f ⟨(mb.chosenWriter file).bits ++ zeros⟩).1 (m + 1)
        (MdUnzip47.readBase f ⟨(mb.chosenWriter file).bits ++ zeros⟩).2 =
      exponentsOf blocksize file (m + 1) := by
  have hcount : (exponentsOf blocksize file m).length = m := by simp [exponentsOf]
  have hlength : (exponentsOf blocksize file (m + 1)).length = m + 1 := by simp [exponentsOf]
  rw [MdUnzip47.readBase, MdBitstream.chosenWriter, h.bitformat]
  by_cases h6 : f < 7
  · rw [if_pos h6, if_pos (by omega)]
    rw [exponentsOf_succ] at hwidth hseven ⊢
    set init := exponentsOf blocksize file m with hinit
    set last := calcExponent (ofBE (fileBlock blocksize file m)) with hlast
    obtain ⟨base, hbase, hfit⟩ := exists_base init last
    have hleast : mb.minExponentMinusLastBlock = base := by
      rw [h.least, exponentsOf_succ]
      exact hbase
    rw [bits_bitstreamWriter26 hrem hlen h.blocksize h.blockremainder h.blockcount h.bitformat h2
      (by omega) hleast fun e he => (hfit e he).1, List.append_assoc,
      MdUnzip47.get_append (length_toBits 7 base), ofBits_toBits]
    have hdiff : ∀ e ∈ init, base ≤ e ∧ e - base < 2 ^ f := by
      intro e he
      have hlt := (hfit e he).2.trans_lt (hwidth h6)
      exact ⟨(hfit e he).1, by exact_mod_cast hlt⟩
    have hread := readExponents_based h2 (by omega) hdiff
      (fun e he => hseven e (List.mem_append_left _ he)) (hseven last (by simp)) zeros
    rwa [hcount] at hread
  · obtain rfl : f = 7 := by omega
    rw [if_neg h6, if_neg (by omega),
      bits_bitstreamWriter hrem hlen h.blocksize h.blockremainder h.blockcount]
    have := readExponents_seven hseven 0 zeros
    rwa [hlength] at this

open MdBitstream in
/-- The table of a file, written and read with the vendored stream, is the
modelled table, and it gives the exponents of all blocks. -/
theorem table_restored {file : List UInt8} {blocksize : ℕ} (hpos : 0 < blocksize)
    (hne : file ≠ []) (hcount : (fileExponents file blocksize).length ≤ 2 ^ 29)
    (hseven : ∀ e ∈ fileExponents file blocksize, e < 2 ^ 7) :
    ∃ mb sized : MdBitstream, measure file blocksize = .ok mb ∧
      mb.calcBitstreamSize = .ok sized ∧
      ∀ memory : List UInt8, (memory.length : ℤ) = sized.modByteBlockSize →
        ∃ bsw, chosenWriter sized memory file = some bsw ∧
          bsw.mData = (sized.chosenWriter file).data ∧
          readTable sized.bitformat.toNat (fileExponents file blocksize).length bsw.mData =
            some (fileExponents file blocksize) := by
  obtain ⟨blockremainder, m, hrem, hlen, hexponents, hmeasure⟩ := measure_eq hpos hne
  obtain ⟨f, hmeasured, h2, h7, hformat, hwidth⟩ := calcMinMaxExponent_measured hrem hlen
  set mb := (({} : MdBitstream).mdInitBitstream blocksize (m + 1 : ℕ)
    blockremainder).calcMinMaxExponent file with hmb
  have hlength : (fileExponents file blocksize).length = m + 1 := by
    rw [hexponents, exponentsOf, List.length_map, List.length_range]
  rw [hlength] at hcount
  rw [hexponents] at hseven
  have hmul : (m + 1) * f ≤ 2 ^ 29 * 7 := Nat.mul_le_mul hcount h7
  have hbits : tableBitSize f (m + 1) < 2 ^ 32 - 7 := by
    rw [tableBitSize]
    split_ifs <;> omega
  have hbytes : 8 * tableBytes f (m + 1) < 2 ^ 32 := by
    rw [tableBytes]
    omega
  refine ⟨mb, { mb with modByteBlockSize := tableBytes f (m + 1) }, hmeasure,
    by rw [calcBitstreamSize_eq hmeasured.blockcount hmeasured.bitformat, if_pos (by omega)],
    fun memory hmemory => ?_⟩
  set sized : MdBitstream := { mb with modByteBlockSize := tableBytes f (m + 1) } with hsized
  have hm : Measured blocksize blockremainder m (exponentsOf blocksize file (m + 1)) f sized :=
    ⟨hmeasured.blocksize, hmeasured.blockremainder, hmeasured.blockcount, hmeasured.bitformat,
      hmeasured.least, hmeasured.unassigned⟩
  have hmemory' : memory.length = tableBytes f (m + 1) := Int.ofNat_inj.mp hmemory
  obtain ⟨bsw, hwriter, hdata, hsize⟩ :=
    chosenWriter_writes hm.bitformat h2 h7 hm.blockcount rfl hbytes hmemory' file
  refine ⟨bsw, hwriter, hdata, ?_⟩
  have hfit := bits_le_tableBytes f m
  have hpacked : Cpp.BitstreamReader.new bsw.mData =
      ⟨(sized.chosenWriter file).bits ++ List.replicate
        (8 * tableBytes f (m + 1) - (sized.chosenWriter file).bits.length) false⟩ := by
    rw [hdata, Cpp.BitstreamWriter.data, Cpp.BitstreamReader.new, hsize, unpack_pack, padTo]
    rwa [length_chosenWriter hm.bitformat h2 h7 hm.blockcount]
  have hdatalen : bsw.mData.length = tableBytes f (m + 1) := by
    rw [hdata, Cpp.BitstreamWriter.data, length_pack, hsize]
  rw [hlength, hm.bitformat, Int.toNat_natCast, readTable_eq h2 h7 (by rwa [hdatalen])
    (by rwa [hdatalen]), hpacked, readExponents_chosenWriter hrem hlen hm h2 h7 hwidth hseven,
    hexponents]

/-- Two blocks with the exponents 1 and 4, in format 3. -/
theorem table_restored_two : 0 < 1 ∧ [(0 : UInt8), 15] ≠ [] ∧
    (MdBitstream.fileExponents [0, 15] 1).length ≤ 2 ^ 29 ∧
    (∀ e ∈ MdBitstream.fileExponents [0, 15] 1, e < 2 ^ 7) ∧
    ∃ mb sized : MdBitstream, MdBitstream.measure [0, 15] (1 : ℕ) = .ok mb ∧
      mb.calcBitstreamSize = .ok sized ∧
      ∀ memory : List UInt8, (memory.length : ℤ) = sized.modByteBlockSize →
        ∃ bsw, chosenWriter sized memory [0, 15] = some bsw ∧
          bsw.mData = (sized.chosenWriter [0, 15]).data ∧
          readTable sized.bitformat.toNat (MdBitstream.fileExponents [0, 15] 1).length
              bsw.mData =
            some (MdBitstream.fileExponents [0, 15] 1) :=
  ⟨by decide, by decide, by decide, by decide,
    table_restored (by decide) (by decide) (by decide) (by decide)⟩

end Mdencode.Cpp.Vendored
