import Mdencode.Cpp.Bitstream
import Mdencode.Cpp.MdRecords
import Mdencode.Cpp.MdUnzip47

/-! The table of exponents, put together and read back. -/

namespace Mdencode.Cpp

open Mdencode.Bytes Mdencode.Bits

/-! The loop over the blocks -/

section
variable {σ : Type} {body : Bool → List UInt8 → σ → σ} {blocksize blockremainder : ℕ}

/-- The loop is a fold over the blocks before the last, and then the last. -/
theorem forByteblocks_eq (hrem : blockremainder ≤ blocksize) {m : ℕ} {nf : List UInt8}
    (hlen : nf.length = m * blocksize + blockremainder) (s : σ) :
    forByteblocks body blocksize blockremainder (m + 1) nf s =
      body true (fileBlock blocksize nf m)
        ((List.range m).foldl (fun s i => body false (fileBlock blocksize nf i) s) s) := by
  induction m generalizing nf s with
  | zero =>
    rw [forByteblocks, take_eq_fileBlock hrem hlen]
    rfl
  | succ m ih =>
    have hsize : (if m + 1 = 0 ∧ blockremainder ≠ blocksize then blockremainder else blocksize) =
        blocksize := if_neg (by omega)
    have hdrop : (nf.drop blocksize).length = m * blocksize + blockremainder := by
      rw [List.length_drop, hlen, Nat.succ_mul]
      omega
    rw [forByteblocks, take_eq_fileBlock hrem hlen, hsize, ih hdrop, fileBlock_drop,
      List.range_succ_eq_map, List.foldl_cons, List.foldl_map]
    simp only [fileBlock_drop]
    rfl

/-- What each pass of the loop keeps holds when it is done. -/
theorem forByteblocks_induction {P : ℕ → σ → Prop}
    (hbody : ∀ n last byteblock s, P n s → P (n + 1) (body last byteblock s)) {n left : ℕ} {s : σ}
    (h : P n s) (nf : List UInt8) :
    P (n + left) (forByteblocks body blocksize blockremainder left nf s) := by
  induction left generalizing n nf s with
  | zero => exact h
  | succ left ih =>
    rw [forByteblocks, Nat.add_succ, ← Nat.succ_add]
    exact ih (hbody _ _ _ _ h) _

end

/-! The range of the exponents -/

section
variable {α : Type} [LinearOrder α]

theorem le_foldl_min_iff {l : List α} {a c : α} :
    c ≤ l.foldl min a ↔ c ≤ a ∧ ∀ x ∈ l, c ≤ x := by
  induction l generalizing a with
  | nil => simp
  | cons x l ih => rw [List.foldl_cons, ih, le_min_iff, List.forall_mem_cons, and_assoc]

theorem foldl_max_le_iff {l : List α} {a c : α} :
    l.foldl max a ≤ c ↔ a ≤ c ∧ ∀ x ∈ l, x ≤ c := by
  induction l generalizing a with
  | nil => simp
  | cons x l ih => rw [List.foldl_cons, ih, max_le_iff, List.forall_mem_cons, and_assoc]

end

/-- The exponents of the first `m` blocks of a file. -/
def exponentsOf (blocksize : ℕ) (file : List UInt8) (m : ℕ) : List ℕ :=
  (List.range m).map fun i => calcExponent (ofBE (fileBlock blocksize file i))

theorem exponentsOf_succ (blocksize : ℕ) (file : List UInt8) (m : ℕ) :
    exponentsOf blocksize file (m + 1) =
      exponentsOf blocksize file m ++ [calcExponent (ofBE (fileBlock blocksize file m))] := by
  simp [exponentsOf, List.range_succ]

/-- The least exponent before the last block, or 255 when there is none. -/
def leastExponent (exponents : List ℕ) : ℤ := (exponents.dropLast.map Nat.cast).foldl min 255

/-- The largest exponent. -/
def largestExponent (exponents : List ℕ) : ℤ := (exponents.map Nat.cast).foldl max 0

def spread (exponents : List ℕ) : ℤ := largestExponent exponents - leastExponent exponents

/-- The spreads that have a format of their own. -/
def HasFormat (diffExponent : ℤ) : Prop :=
  diffExponent ≤ 63 ∧ diffExponent ≠ 8 ∧ diffExponent ≠ 16 ∧ diffExponent ≠ 32

namespace MdBitstream

theorem updateMinMax_eq (last : Bool) (byteblock : List UInt8) (mb : MdBitstream) :
    updateMinMax last byteblock mb =
      { mb with
        minExponent := min mb.minExponent (calcExponent (ofBE byteblock))
        minExponentMinusLastBlock :=
          if last then mb.minExponentMinusLastBlock
          else min mb.minExponentMinusLastBlock (calcExponent (ofBE byteblock))
        maxExponent := max mb.maxExponent (calcExponent (ofBE byteblock)) } := by
  set e : ℤ := ((calcExponent (ofBE byteblock) : ℕ) : ℤ) with he
  have hmin (mb : MdBitstream) : (if e < mb.minExponent then { mb with minExponent := e } else mb) =
      { mb with minExponent := min mb.minExponent e } := by
    split_ifs with h
    · rw [min_eq_right h.le]
    · rw [min_eq_left (not_lt.mp h)]
  have hminus (mb : MdBitstream) : (if e < mb.minExponentMinusLastBlock ∧ last = false then
      { mb with minExponentMinusLastBlock := e } else mb) =
      { mb with minExponentMinusLastBlock :=
          if last then mb.minExponentMinusLastBlock else min mb.minExponentMinusLastBlock e } := by
    cases last with
    | true => simp
    | false =>
      split_ifs with h h'
      · cases h'
      · rw [min_eq_right h.1.le]
      · contradiction
      · rw [min_eq_left (not_lt.mp fun hlt => h ⟨hlt, rfl⟩)]
  have hmax (mb : MdBitstream) : (if e > mb.maxExponent then { mb with maxExponent := e } else mb) =
      { mb with maxExponent := max mb.maxExponent e } := by
    split_ifs with h
    · rw [max_eq_right h.le]
    · rw [max_eq_left (not_lt.mp h)]
  rw [updateMinMax, mpzImport, ← he, hmin, hminus, hmax]

/-- The pass over the blocks before the last. -/
theorem foldl_updateMinMax (blocksize : ℕ) (nf : List UInt8) (m : ℕ) (mb : MdBitstream) :
    (List.range m).foldl (fun mb i => updateMinMax false (fileBlock blocksize nf i) mb) mb =
      { mb with
        minExponent := ((exponentsOf blocksize nf m).map Nat.cast).foldl min mb.minExponent
        minExponentMinusLastBlock :=
          ((exponentsOf blocksize nf m).map Nat.cast).foldl min mb.minExponentMinusLastBlock
        maxExponent := ((exponentsOf blocksize nf m).map Nat.cast).foldl max mb.maxExponent } := by
  induction m with
  | zero => rfl
  | succ m ih =>
    rw [List.range_succ, List.foldl_append, ih, exponentsOf_succ, List.foldl_cons, List.foldl_nil,
      updateMinMax_eq]
    simp

theorem setDiffFormat_eq (mb : MdBitstream) :
    ∃ f : ℕ, mb.setDiffFormat = { mb with bitformat := f } ∧ 2 ≤ f ∧ f ≤ 7 ∧
      (f < 7 ↔ HasFormat mb.diffExponent) ∧ (f < 7 → mb.diffExponent < 2 ^ f) := by
  set d := mb.diffExponent with hd
  have hchosen {f : ℕ} (h : mb.setDiffFormat.bitformat = f) :
      mb.setDiffFormat = { mb with bitformat := f } := by
    rw [← h]
    rfl
  have hcases : (∃ f : ℕ, mb.setDiffFormat.bitformat = f ∧ 2 ≤ f ∧ f < 7 ∧ d < 2 ^ f) ∧
      HasFormat d ∨ mb.setDiffFormat.bitformat = (7 : ℕ) ∧ ¬ HasFormat d := by
    simp only [setDiffFormat, ← hd, HasFormat]
    split_ifs
    all_goals first
      | exact .inr ⟨rfl, by omega⟩
      | exact .inl ⟨⟨2, rfl, by norm_num, by norm_num, by omega⟩, by omega⟩
      | exact .inl ⟨⟨3, rfl, by norm_num, by norm_num, by omega⟩, by omega⟩
      | exact .inl ⟨⟨4, rfl, by norm_num, by norm_num, by omega⟩, by omega⟩
      | exact .inl ⟨⟨5, rfl, by norm_num, by norm_num, by omega⟩, by omega⟩
      | exact .inl ⟨⟨6, rfl, by norm_num, by norm_num, by omega⟩, by omega⟩
  rcases hcases with ⟨⟨f, hf, h2, h7, hlt⟩, hformat⟩ | ⟨h7, hformat⟩
  · exact ⟨f, hchosen hf, h2, h7.le, iff_of_true h7 hformat, fun _ => hlt⟩
  · exact ⟨7, hchosen h7, by norm_num, le_rfl, iff_of_false (lt_irrefl _) hformat,
      fun h => absurd h (lt_irrefl _)⟩

/-- The object after the first pass over a file of `m + 1` blocks, before the
table is made. -/
structure Measured (blocksize blockremainder m : ℕ) (exponents : List ℕ) (f : ℕ)
    (mb : MdBitstream) : Prop where
  blocksize : mb.blocksize = blocksize
  blockremainder : mb.blockremainder = blockremainder
  blockcount : mb.blockcount = (m + 1 : ℕ)
  bitformat : mb.bitformat = f
  least : mb.minExponentMinusLastBlock = leastExponent exponents
  unassigned : mb.modExpBlock = none

/-- What the first pass leaves before the format is chosen. -/
theorem calcMinMaxExponent_eq {blocksize blockremainder m : ℕ}
    (hrem : blockremainder ≤ blocksize) {nf : List UInt8}
    (hlen : nf.length = m * blocksize + blockremainder) :
    let exponents := exponentsOf blocksize nf (m + 1)
    let mb := ({} : MdBitstream).mdInitBitstream blocksize (m + 1 : ℕ) blockremainder
    mb.calcMinMaxExponent nf = { mb with
      minExponent := (exponents.map Nat.cast).foldl min 255
      minExponentMinusLastBlock := leastExponent exponents
      maxExponent := largestExponent exponents
      diffExponent := spread exponents }.setDiffFormat := by
  intro exponents mb
  have hpass : mb.forBlocks updateMinMax nf mb = { mb with
      minExponent := (exponents.map Nat.cast).foldl min 255
      minExponentMinusLastBlock := leastExponent exponents
      maxExponent := largestExponent exponents } := by
    simp only [mb, forBlocks, mdInitBitstream]
    rw [Int.toNat_natCast, Int.toNat_natCast, Int.toNat_natCast, forByteblocks_eq hrem hlen,
      foldl_updateMinMax, updateMinMax_eq]
    simp [exponents, leastExponent, largestExponent, exponentsOf_succ]
  rw [calcMinMaxExponent, hpass]
  rfl

theorem calcMinMaxExponent_measured {blocksize blockremainder m : ℕ}
    (hrem : blockremainder ≤ blocksize) {nf : List UInt8}
    (hlen : nf.length = m * blocksize + blockremainder) :
    let exponents := exponentsOf blocksize nf (m + 1)
    ∃ f, Measured blocksize blockremainder m exponents f
        ((({} : MdBitstream).mdInitBitstream blocksize (m + 1 : ℕ)
          blockremainder).calcMinMaxExponent nf) ∧
      2 ≤ f ∧ f ≤ 7 ∧ (f < 7 ↔ HasFormat (spread exponents)) ∧
      (f < 7 → spread exponents < 2 ^ f) := by
  intro exponents
  obtain ⟨f, hf, hspec⟩ := setDiffFormat_eq
    { ({} : MdBitstream).mdInitBitstream blocksize (m + 1 : ℕ) blockremainder with
      minExponent := (exponents.map Nat.cast).foldl min 255
      minExponentMinusLastBlock := leastExponent exponents
      maxExponent := largestExponent exponents
      diffExponent := spread exponents }
  refine ⟨f, ?_, hspec⟩
  rw [calcMinMaxExponent_eq hrem hlen, hf]
  exact ⟨rfl, rfl, rfl, rfl, rfl, rfl⟩

/-! The size of the table -/

/-- The bits that a table for `count` blocks is given. -/
def tableBitSize (f count : ℕ) : ℕ := count * f + if f < 7 then 14 else 0

def tableBytes (f count : ℕ) : ℕ := (tableBitSize f count + 7) / 8

/-- It is no overflow where the blocks can be counted by an int. -/
theorem tableBitSize_lt {f count : ℕ} (hcount : count < 2 ^ 31) (hf : f ≤ 7) :
    tableBitSize f count < 2 ^ 63 := by
  have hmul : count * f ≤ 2 ^ 31 * 7 := Nat.mul_le_mul hcount.le hf
  rw [tableBitSize]
  split_ifs <;> omega

theorem calcBitstreamSize_eq {mb : MdBitstream} {f count : ℕ} (hcount : mb.blockcount = count)
    (hf : mb.bitformat = f) :
    mb.calcBitstreamSize =
      if tableBitSize f count < 2 ^ 63 then
        .ok { mb with modByteBlockSize := tableBytes f count }
      else .error .signedOverflow := by
  have hbytes (n : ℕ) : (if (n : ℤ).tmod 8 > 0 then (n : ℤ).tdiv 8 + 1 else (n : ℤ).tdiv 8) =
      ((n + 7) / 8 : ℕ) := by
    have hmod : (n : ℤ).tmod 8 = (n % 8 : ℕ) := (Int.ofNat_tmod n 8).symm
    have hdiv : (n : ℤ).tdiv 8 = (n / 8 : ℕ) := (Int.ofNat_tdiv n 8).symm
    rw [hmod, hdiv]
    split_ifs <;> omega
  have hextra : (count * f : ℕ) + 14 = ((count * f + 14 : ℕ) : ℤ) := by push_cast; rfl
  rw [calcBitstreamSize, hcount, hf, ← Nat.cast_mul, int64_natCast, tableBytes, tableBitSize]
  by_cases hlt : count * f < 2 ^ 63
  · rw [if_pos hlt, ok_bind]
    by_cases hf7 : f < 7
    · rw [if_pos (by omega), if_pos hf7, hextra, int64_natCast]
      split_ifs
      · rw [ok_bind]
        dsimp only
        rw [hbytes]
      · rfl
    · rw [if_neg (by omega), if_neg hf7, if_pos (by omega), ok_bind]
      dsimp only
      rw [hbytes, Nat.add_zero]
  · rw [if_neg hlt, if_neg (by omega)]
    rfl

/-- The size a reader gives a table of format `f`. -/
theorem calcBitstreamSize_setFormat (blocksize blockremainder : ℤ) (f count : ℕ) :
    ((({} : MdBitstream).mdInitBitstream blocksize count blockremainder).setFormat
        f).calcBitstreamSize =
      if tableBitSize f count < 2 ^ 63 then
        .ok { ((({} : MdBitstream).mdInitBitstream blocksize count blockremainder).setFormat f) with
          modByteBlockSize := tableBytes f count }
      else .error .signedOverflow :=
  calcBitstreamSize_eq rfl rfl

/-- The bits of a table fit its bytes. -/
theorem bits_le_tableBytes (f m : ℕ) :
    (if f < 7 then 7 else 0) + (m * f + 7) ≤ 8 * tableBytes f (m + 1) := by
  have : m * f + f = (m + 1) * f := by ring
  unfold tableBytes tableBitSize
  split_ifs <;> omega

/-! The table -/

theorem put_natCast (n v : ℕ) (bsw : BitstreamWriter) :
    bsw.put n v = { bsw with bits := bsw.bits ++ toBits n v } := by
  have hmod : ((v : ℤ) % 2 ^ n).toNat = v % 2 ^ n := by
    exact_mod_cast Int.toNat_natCast (v % 2 ^ n)
  rw [BitstreamWriter.put, hmod, toBits_mod]

/-- The bits of the exponents of some blocks and a last one. -/
def tableBits (f base : ℕ) (exponents : List ℕ) (last : ℕ) : List Bool :=
  exponents.flatMap (fun e => toBits f (e - base)) ++ toBits 7 last

theorem length_tableBits (f base : ℕ) (exponents : List ℕ) (last : ℕ) :
    (tableBits f base exponents last).length = exponents.length * f + 7 := by
  simp [tableBits, List.length_flatMap]

section
variable {blocksize blockremainder m f base : ℕ} {nf : List UInt8} {mb : MdBitstream}

/-- The blocks before the last, put in a table of format `f`. -/
theorem foldl_putExponent26 (hf : mb.bitformat = f) (h2 : 2 ≤ f) (h6 : f ≤ 6)
    (hbase : mb.minExponentMinusLastBlock = base)
    (hle : ∀ e ∈ exponentsOf blocksize nf m, base ≤ e) (bsw : BitstreamWriter) :
    (List.range m).foldl (fun bsw i => mb.putExponent26 false (fileBlock blocksize nf i) bsw) bsw =
      { bsw with bits := bsw.bits ++
          (exponentsOf blocksize nf m).flatMap fun e => toBits f (e - base) } := by
  induction m with
  | zero => simp [exponentsOf]
  | succ m ih =>
    rw [exponentsOf_succ] at hle ⊢
    have hlast := hle (calcExponent (ofBE (fileBlock blocksize nf m))) (by simp)
    rw [List.range_succ, List.foldl_append, ih fun e he => hle e (List.mem_append_left _ he),
      List.foldl_cons, List.foldl_nil, putExponent26, mpzImport, if_pos rfl, hf, hbase,
      if_pos ⟨by omega, by omega⟩, Int.toNat_natCast, ← Nat.cast_sub hlast, put_natCast]
    simp [List.append_assoc]

/-- The table of a format below 7 ends up in the member. -/
theorem mdzipModExponentBitstream26_eq (hrem : blockremainder ≤ blocksize)
    (hlen : nf.length = m * blocksize + blockremainder)
    (h : Measured blocksize blockremainder m (exponentsOf blocksize nf (m + 1)) f mb)
    (h2 : 2 ≤ f) (h6 : f ≤ 6) (hbase : leastExponent (exponentsOf blocksize nf (m + 1)) = base)
    (hle : ∀ e ∈ exponentsOf blocksize nf m, base ≤ e) (hsize : tableBitSize f (m + 1) < 2 ^ 63) :
    ∃ mb', mb.mdzipModExponentBitstream26 nf = .ok mb' ∧
      mb'.modByteBlockSize = tableBytes f (m + 1) ∧
      mb'.modExpBlock = some (pack (tableBytes f (m + 1)) (toBits 7 base ++ tableBits f base
        (exponentsOf blocksize nf m) (calcExponent (ofBE (fileBlock blocksize nf m))))) := by
  rw [mdzipModExponentBitstream26, calcBitstreamSize_eq h.blockcount h.bitformat,
    if_pos hsize, ok_bind]
  obtain ⟨sized, hsized⟩ : ∃ sized : MdBitstream,
      sized = { mb with modByteBlockSize := tableBytes f (m + 1) } := ⟨_, rfl⟩
  have hm : Measured blocksize blockremainder m (exponentsOf blocksize nf (m + 1)) f sized := by
    rw [hsized]
    exact ⟨h.blocksize, h.blockremainder, h.blockcount, h.bitformat, h.least, h.unassigned⟩
  have hbytes : sized.modByteBlockSize = tableBytes f (m + 1) := by rw [hsized]
  rw [← hsized]
  refine ⟨_, rfl, hbytes, ?_⟩
  dsimp only
  rw [forBlocks, hm.blocksize, hm.blockremainder, hm.blockcount, hbytes, Int.toNat_natCast,
    Int.toNat_natCast, Int.toNat_natCast, Int.toNat_natCast, forByteblocks_eq hrem hlen,
    foldl_putExponent26 hm.bitformat h2 h6 (hm.least.trans hbase) hle, hm.least, hbase,
    put_natCast, putExponent26, mpzImport, if_neg (by simp), put_natCast]
  simp [BitstreamWriter.data, BitstreamWriter.new, tableBits]

/-- The table of format 7 ends up elsewhere. -/
theorem mdzipModExponentBitstream_eq
    (h : Measured blocksize blockremainder m (exponentsOf blocksize nf (m + 1)) 7 mb)
    (hsize : tableBitSize 7 (m + 1) < 2 ^ 63) :
    ∃ mb', mb.mdzipModExponentBitstream nf = .ok mb' ∧
      mb'.modByteBlockSize = tableBytes 7 (m + 1) ∧ mb'.modExpBlock = none := by
  rw [mdzipModExponentBitstream, calcBitstreamSize_eq h.blockcount h.bitformat,
    if_pos hsize, ok_bind]
  exact ⟨_, rfl, rfl, h.unassigned⟩

end

end MdBitstream

/-! The table, read back -/

namespace MdUnzip47

/-- The exponents in order; the counter is of those that are left. -/
def readExponents (mformat modexponentbase : ℕ) : ℕ → BitstreamReader → List ℕ
  | 0, _ => []
  | left + 1, bsr =>
    let (modexponent, bsr) := readExponent mformat modexponentbase (left = 0) bsr
    modexponent :: readExponents mformat modexponentbase left bsr

/-- The exponents of the records are those of the table. -/
theorem modexponents_readRecords (incKey : IncrementKey) (mformat modexponentbase : ℕ)
    (blocksize blockremainder : ℤ) (left : ℕ) (r : Reader) :
    (readRecords (readRecord incKey mformat modexponentbase) blocksize blockremainder left r).map
        BlockRecord.modexponent = readExponents mformat modexponentbase left r.bsr := by
  induction left generalizing r with
  | zero => rfl
  | succ left ih =>
    rw [readRecords, List.map_cons, ih]
    rfl

theorem get_append {n : ℕ} {bits : List Bool} (h : bits.length = n) (rest : List Bool) :
    (BitstreamReader.mk (bits ++ rest)).get n = (ofBits bits, ⟨rest⟩) := by
  subst h
  simp [BitstreamReader.get]

theorem readExponents_tableBits {f base : ℕ} (h2 : 2 ≤ f) (h6 : f ≤ 6) {exponents : List ℕ}
    (hfit : ∀ e ∈ exponents, base ≤ e ∧ e - base < 2 ^ f) {last : ℕ} (hlast : last < 2 ^ 7)
    (rest : List Bool) :
    readExponents f base (exponents.length + 1)
        ⟨MdBitstream.tableBits f base exponents last ++ rest⟩ = exponents ++ [last] := by
  induction exponents with
  | nil =>
    have hget : (BitstreamReader.mk (toBits 7 last ++ rest)).get 7 = (last, ⟨rest⟩) := by
      rw [get_append (length_toBits 7 last), ofBits_toBits_of_lt hlast]
    simp [readExponents, readExponent, MdBitstream.tableBits, hget]
  | cons e exponents ih =>
    obtain ⟨hbase, hwidth⟩ := hfit e (by simp)
    have hget : (BitstreamReader.mk
        (MdBitstream.tableBits f base (e :: exponents) last ++ rest)).get f =
          (e - base, ⟨MdBitstream.tableBits f base exponents last ++ rest⟩) := by
      rw [MdBitstream.tableBits, List.flatMap_cons, List.append_assoc, List.append_assoc,
        get_append (length_toBits f _), ofBits_toBits_of_lt hwidth, MdBitstream.tableBits,
        List.append_assoc]
    rw [List.length_cons, readExponents, readExponent, if_pos (by simp), if_pos ⟨h2, h6⟩, hget]
    dsimp only
    rw [ih fun e he => hfit e (List.mem_cons_of_mem _ he), Nat.sub_add_cancel hbase,
      List.cons_append]

end MdUnzip47

end Mdencode.Cpp
