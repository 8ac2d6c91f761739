import Mdencode.Lib.Bytes

/-! The shared arithmetic of `mdCommon.h`: the bigint export and its padding,
the block count and last block size, the modulus and the exponent of a block.
A C++ `int` is an integer that wraps at 32 bits, a bigint is a natural number,
and a division the machine would trap on is an error. -/

namespace Mdencode.Cpp

open Mdencode.Bytes

/-- What stops a computation that C++ leaves undefined. -/
inductive Trap
  | divideByZero
  | badArrayLength
  | signedOverflow
  | bigintOverflow
  deriving DecidableEq, Repr

@[simp] theorem ok_bind {α β : Type} (a : α) (f : α → Except Trap β) :
    (Except.ok a >>= f) = f a := rfl

theorem exists_of_bind_eq_ok {α β : Type} {x : Except Trap α} {f : α → Except Trap β} {b : β}
    (h : (x >>= f) = .ok b) : ∃ a, x = .ok a ∧ f a = .ok b := by
  cases x with
  | error trap => cases h
  | ok a => exact ⟨a, rfl, h⟩

def toInt32 (x : ℤ) : ℤ := x.bmod (2 ^ 32)

theorem toInt32_of_range {x : ℤ} (h₁ : -2 ^ 31 ≤ x) (h₂ : x < 2 ^ 31) : toInt32 x = x := by
  unfold toInt32
  rw [Int.bmod_eq_of_le] <;> norm_num <;> omega

/-- The value of a `long` expression. -/
def int64 (x : ℤ) : Except Trap ℤ :=
  if -2 ^ 63 ≤ x ∧ x < 2 ^ 63 then .ok x else .error .signedOverflow

theorem int64_natCast (x : ℕ) :
    int64 x = if x < 2 ^ 63 then .ok (x : ℤ) else .error .signedOverflow :=
  if_congr (by omega) rfl rfl

theorem int64_isOk_iff {x : ℤ} : (∃ y, int64 x = .ok y) ↔ -2 ^ 63 ≤ x ∧ x < 2 ^ 63 := by
  unfold int64
  split_ifs with hrange
  · exact iff_of_true ⟨x, rfl⟩ hrange
  · exact iff_of_false (fun ⟨y, hy⟩ => by cases hy) hrange

/-- The value of an `int` expression. -/
def int32 (x : ℤ) : Except Trap ℤ :=
  if -2 ^ 31 ≤ x ∧ x < 2 ^ 31 then .ok x else .error .signedOverflow

theorem int32_eq_ok_iff {x y : ℤ} : int32 x = .ok y ↔ (-2 ^ 31 ≤ x ∧ x < 2 ^ 31) ∧ x = y := by
  unfold int32
  split_ifs with hrange
  · exact ⟨fun h => ⟨hrange, by cases h; rfl⟩, fun h => by rw [h.2]⟩
  · exact iff_of_false (fun h => by cases h) fun h => hrange h.1

/-- What follows the last point of a name, unless the name starts with it. -/
def fileExtension (file : List UInt8) : List UInt8 :=
  match file.reverse.findIdx? (· = 46) with
  | some back =>
    let pos := file.length - 1 - back
    if pos ≠ 0 then file.drop (pos + 1) else []
  | none => []

theorem fileExtension_append {name ext : List UInt8} (hname : name ≠ []) (hext : 46 ∉ ext) :
    fileExtension (name ++ 46 :: ext) = ext := by
  have hback : (name ++ 46 :: ext).reverse.findIdx? (· = 46) = some ext.length := by
    rw [List.reverse_append, List.reverse_cons, List.append_assoc, List.findIdx?_append,
      List.findIdx?_eq_none_iff.mpr]
    · simp [List.findIdx?_cons]
    · intro b hb
      have hne : b ≠ 46 := by
        rintro rfl
        exact hext (List.mem_reverse.mp hb)
      simpa using hne
  have hpos : (name ++ 46 :: ext).length - 1 - ext.length = name.length := by
    simp
  rw [fileExtension, hback]
  dsimp only
  rw [hpos, if_pos (List.length_pos_iff.mpr hname).ne']
  simp

theorem fileExtension_mdz {name : List UInt8} (hname : name ≠ []) :
    fileExtension (name ++ ascii ".mdz") = ascii "mdz" :=
  fileExtension_append hname (by decide)

/-- `mpz_export` into a buffer: the shortest big-endian form from the buffer's
start, and its length. Bytes past the end of the buffer are dropped. -/
def mpzExport (v : ℕ) (byteblock : List UInt8) : List UInt8 × ℕ :=
  ((magBE v).take byteblock.length ++ byteblock.drop (byteLen v), byteLen v)

def mpzImport (bytes : List UInt8) : ℕ := ofBE bytes

/-- `for (n = top; n >= 0; n--) byteblock[n + diff] = byteblock[n];` -/
def shiftBlockBytes (diff : ℕ) : ℕ → List UInt8 → List UInt8
  | 0, byteblock => byteblock.set diff (byteblock.getD 0 0)
  | top + 1, byteblock =>
    shiftBlockBytes diff top (byteblock.set (top + 1 + diff) (byteblock.getD (top + 1) 0))

/-- `for (n = 0; n < diff; n++) byteblock[n] = 0;` -/
def zeroBlockBytes (diff : ℕ) (byteblock : List UInt8) : List UInt8 :=
  (List.range diff).foldl (fun block n => block.set n 0) byteblock

def padBlockBytes (count blocksize : ℕ) (byteblock : List UInt8) : List UInt8 :=
  if count < blocksize then
    let diff := blocksize - count
    zeroBlockBytes diff (shiftBlockBytes diff (blocksize - diff) byteblock)
  else byteblock

def calcModulusBytes (modsize : ℤ) : ℤ :=
  if modsize.tmod 8 = 0 then modsize.tdiv 8
  else if modsize < 8 then 1
  else modsize.tdiv 8 + 1

/-- One quotient is no `long`; neither the division nor the remainder has a value then. -/
def calcFileBlocks (filesize blocksize : ℤ) : Except Trap ℤ :=
  if blocksize = 0 then .error .divideByZero
  else if blocksize = -1 ∧ filesize = -2 ^ 63 then .error .signedOverflow
  else if filesize.tmod blocksize = 0 then .ok (filesize.tdiv blocksize)
  else .ok (filesize.tdiv blocksize + 1)

def calcFileBlocksRemainder (filesize blocksize : ℤ) : Except Trap ℤ :=
  if blocksize = 0 then .error .divideByZero
  else if blocksize = -1 ∧ filesize = -2 ^ 63 then .error .signedOverflow
  else if filesize.tmod blocksize = 0 then .ok blocksize
  else .ok (filesize.tmod blocksize)

def calcModulusInt (modsize : ℕ) : ℕ := 2 ^ modsize - 1

/-- The `do … while` loop of `calcExponent`; the first argument bounds the
iterations. -/
def calcExponentLoop (blockint : ℕ) : ℕ → ℕ → ℕ → ℕ
  | 0, _, exponent => exponent
  | fuel + 1, exponentInt, exponent =>
    let exponentInt := exponentInt * 2
    let exponent := exponent + 1
    if exponentInt - 1 ≤ blockint then calcExponentLoop blockint fuel exponentInt exponent
    else exponent

def calcExponent (blockint : ℕ) : ℕ := calcExponentLoop blockint (blockint.log2 + 1) 2 0

/-! The export and its padding -/

theorem length_shiftBlockBytes (diff top : ℕ) (byteblock : List UInt8) :
    (shiftBlockBytes diff top byteblock).length = byteblock.length := by
  induction top generalizing byteblock with
  | zero => simp [shiftBlockBytes]
  | succ top ih => rw [shiftBlockBytes, ih, List.length_set]

/-- The downward loop reads each byte before it writes over it. -/
theorem getElem?_shiftBlockBytes {diff : ℕ} (hdiff : 0 < diff) (top : ℕ) (byteblock : List UInt8)
    (j : ℕ) (hj : j < byteblock.length) :
    (shiftBlockBytes diff top byteblock)[j]? =
      if diff ≤ j ∧ j ≤ top + diff then byteblock[j - diff]? else byteblock[j]? := by
  induction top generalizing byteblock with
  | zero =>
    rw [shiftBlockBytes, List.getElem?_set]
    by_cases h : diff = j
    · subst h
      have h0 : 0 < byteblock.length := by omega
      simp [hj, h0]
    · rw [if_neg h, if_neg (by omega)]
  | succ top ih =>
    rw [shiftBlockBytes, ih _ (by simpa using hj), List.getElem?_set, List.getElem?_set]
    by_cases htop : top + 1 + diff = j
    · have hsub : j - diff = top + 1 := by omega
      have hread : top + 1 < byteblock.length := by omega
      rw [if_neg (by omega), if_pos htop, if_pos (by omega), if_pos (by omega), hsub]
      simp [hread]
    · by_cases hin : diff ≤ j ∧ j ≤ top + diff
      · rw [if_pos hin, if_neg (by omega), if_pos (by omega)]
      · rw [if_neg hin, if_neg htop, if_neg (by omega)]

theorem length_zeroBlockBytes (diff : ℕ) (byteblock : List UInt8) :
    (zeroBlockBytes diff byteblock).length = byteblock.length := by
  induction diff with
  | zero => rfl
  | succ diff ih =>
    rw [zeroBlockBytes, List.range_succ, List.foldl_append, List.foldl_cons, List.foldl_nil,
      List.length_set]
    exact ih

theorem getElem?_zeroBlockBytes (diff : ℕ) (byteblock : List UInt8) (j : ℕ)
    (hj : j < byteblock.length) :
    (zeroBlockBytes diff byteblock)[j]? = if j < diff then some 0 else byteblock[j]? := by
  induction diff with
  | zero => rfl
  | succ diff ih =>
    have hlen := length_zeroBlockBytes diff byteblock
    rw [zeroBlockBytes] at ih hlen ⊢
    rw [List.range_succ, List.foldl_append, List.foldl_cons, List.foldl_nil, List.getElem?_set, ih]
    by_cases h : diff = j
    · rw [if_pos h, hlen, if_pos (by omega), if_pos (by omega)]
    · rw [if_neg h]
      by_cases h' : j < diff
      · rw [if_pos h', if_pos (by omega)]
      · rw [if_neg h', if_neg (by omega)]

theorem length_padBlockBytes (count blocksize : ℕ) (byteblock : List UInt8) :
    (padBlockBytes count blocksize byteblock).length = byteblock.length := by
  unfold padBlockBytes
  split_ifs
  · rw [length_zeroBlockBytes, length_shiftBlockBytes]
  · rfl

theorem padBlockBytes_of_le {count blocksize : ℕ} (h : blocksize ≤ count)
    (byteblock : List UInt8) : padBlockBytes count blocksize byteblock = byteblock :=
  if_neg (by omega)

/-- Padding moves the first `count` bytes of a full buffer behind zeros. -/
theorem padBlockBytes_eq {count : ℕ} {byteblock : List UInt8} (h : count ≤ byteblock.length) :
    padBlockBytes count byteblock.length byteblock =
      List.replicate (byteblock.length - count) 0 ++ byteblock.take count := by
  unfold padBlockBytes
  split_ifs with hlt
  · apply List.ext_getElem?
    intro j
    rcases lt_or_ge j byteblock.length with hj | hj
    · have hj' := hj
      rw [← length_shiftBlockBytes (byteblock.length - count)
        (byteblock.length - (byteblock.length - count)) byteblock] at hj'
      rw [getElem?_zeroBlockBytes _ _ j hj', getElem?_shiftBlockBytes (by omega) _ _ j hj]
      by_cases hz : j < byteblock.length - count
      · rw [if_pos hz, List.getElem?_append_left (by simpa using hz)]
        simp [hz]
      · rw [if_neg hz, if_pos (by omega), List.getElem?_append_right (by simpa using hz),
          List.length_replicate, List.getElem?_take, if_pos (by omega)]
    · rw [List.getElem?_eq_none, List.getElem?_eq_none]
      · simp; omega
      · rw [length_zeroBlockBytes, length_shiftBlockBytes]; exact hj
  · have : count = byteblock.length := by omega
    subst this
    simp

theorem length_mpzExport (v : ℕ) (byteblock : List UInt8) :
    (mpzExport v byteblock).1.length = byteblock.length := by
  simp only [mpzExport, List.length_append, List.length_take, length_magBE, List.length_drop]
  omega

/-- A value that fits is exported and padded to its fixed-width form. -/
theorem padBlockBytes_mpzExport {v : ℕ} {byteblock : List UInt8}
    (h : v < 256 ^ byteblock.length) :
    padBlockBytes (mpzExport v byteblock).2 byteblock.length (mpzExport v byteblock).1 =
      toBE byteblock.length v := by
  have hle : byteLen v ≤ byteblock.length := (byteLen_le_iff v _).mpr h
  have hlen := length_mpzExport v byteblock
  have hpad := padBlockBytes_eq (hle.trans_eq hlen.symm)
  rw [hlen] at hpad
  rw [show (mpzExport v byteblock).2 = byteLen v from rfl, hpad, ← zeros_append_magBE h]
  congr 1
  simp [mpzExport, List.take_of_length_le, hle]

/-! Block counts and modulus widths at the encoder's arguments -/

theorem calcModulusBytes_natCast (modsize : ℕ) :
    calcModulusBytes modsize = ((modsize + 7) / 8 : ℕ) := by
  have hmod : (modsize : ℤ).tmod 8 = (modsize % 8 : ℕ) := (Int.ofNat_tmod modsize 8).symm
  have hdiv : (modsize : ℤ).tdiv 8 = (modsize / 8 : ℕ) := (Int.ofNat_tdiv modsize 8).symm
  rw [calcModulusBytes, hmod, hdiv]
  split_ifs <;> omega

theorem calcModulusBytes_range {modsize : ℤ} (hlo : -2 ^ 31 ≤ modsize) (hhi : modsize < 2 ^ 31) :
    -2 ^ 29 ≤ calcModulusBytes modsize ∧ calcModulusBytes modsize ≤ 2 ^ 29 := by
  have hdiv := Int.mul_tdiv_add_tmod modsize 8
  have hlt := Int.tmod_lt_of_pos modsize (show (0 : ℤ) < 8 by norm_num)
  have hgt := Int.lt_tmod_of_pos modsize (show (0 : ℤ) < 8 by norm_num)
  unfold calcModulusBytes
  split_ifs <;> omega

theorem calcFileBlocks_eq_ok_iff {filesize blocksize blockcount : ℤ} :
    calcFileBlocks filesize blocksize = .ok blockcount ↔
      blocksize ≠ 0 ∧ ¬ (blocksize = -1 ∧ filesize = -2 ^ 63) ∧
      filesize.tdiv blocksize + (if filesize.tmod blocksize = 0 then 0 else 1) = blockcount := by
  unfold calcFileBlocks
  split_ifs <;> simp_all

theorem exists_calcFileBlocksRemainder {filesize blocksize : ℤ} (hzero : blocksize ≠ 0)
    (hquotient : ¬ (blocksize = -1 ∧ filesize = -2 ^ 63)) :
    ∃ blockremainder, calcFileBlocksRemainder filesize blocksize = .ok blockremainder := by
  rw [calcFileBlocksRemainder, if_neg hzero, if_neg hquotient]
  split_ifs
  · exact ⟨_, rfl⟩
  · exact ⟨_, rfl⟩

theorem calcFileBlocks_natCast {filesize blocksize : ℕ} (h : 0 < blocksize) :
    calcFileBlocks filesize blocksize = .ok ((filesize + blocksize - 1) / blocksize : ℕ) := by
  have hmod : (filesize : ℤ).tmod blocksize = (filesize % blocksize : ℕ) :=
    (Int.ofNat_tmod filesize blocksize).symm
  have hdiv : (filesize : ℤ).tdiv blocksize = (filesize / blocksize : ℕ) :=
    (Int.ofNat_tdiv filesize blocksize).symm
  have hsplit := Nat.div_add_mod filesize blocksize
  have hlt := Nat.mod_lt filesize h
  have hceil : (filesize + blocksize - 1) / blocksize =
      filesize / blocksize + (filesize % blocksize + blocksize - 1) / blocksize := by
    rw [← Nat.mul_add_div h]
    congr 1
    omega
  rw [calcFileBlocks, if_neg (by omega), if_neg (by omega), hmod, hdiv, hceil]
  split_ifs with h0
  · rw [Nat.div_eq_of_lt (by omega : filesize % blocksize + blocksize - 1 < blocksize), add_zero]
  · rw [Nat.div_eq_of_lt_le (m := filesize % blocksize + blocksize - 1) (k := 1) (by omega)
      (by omega)]
    push_cast
    rfl

/-- The last block holds what is left over, or is full. -/
theorem calcFileBlocksRemainder_natCast {filesize blocksize : ℕ} (h : 0 < blocksize) :
    calcFileBlocksRemainder filesize blocksize =
      .ok (if filesize % blocksize = 0 then blocksize else filesize % blocksize : ℕ) := by
  have hmod : (filesize : ℤ).tmod blocksize = (filesize % blocksize : ℕ) :=
    (Int.ofNat_tmod filesize blocksize).symm
  rw [calcFileBlocksRemainder, if_neg (by omega), if_neg (by omega), hmod]
  split_ifs <;> first | rfl | omega

/-- The full blocks and the last one make up the file. -/
theorem length_eq_blocks {length size : ℕ} (hlength : 0 < length) (hsize : 0 < size) :
    0 < (length + size - 1) / size ∧
      length = ((length + size - 1) / size - 1) * size +
        if length % size = 0 then size else length % size := by
  obtain ⟨last, rfl⟩ : ∃ last, length = last + 1 := Nat.exists_eq_succ_of_ne_zero hlength.ne'
  have hlt := Nat.mod_lt last hsize
  have hsplit := Nat.div_add_mod' last size
  have hcount : (last + 1 + size - 1) / size = last / size + 1 := by
    rw [show last + 1 + size - 1 = last + size by omega, Nat.add_div_right _ hsize]
  have hrem : (if (last + 1) % size = 0 then size else (last + 1) % size) = last % size + 1 := by
    rw [← Nat.mod_add_mod]
    rcases Nat.lt_or_ge (last % size + 1) size with h | h
    · rw [Nat.mod_eq_of_lt h, if_neg (Nat.succ_ne_zero _)]
    · rw [show last % size + 1 = size by omega, Nat.mod_self, if_pos rfl]
  rw [hcount, hrem]
  exact ⟨Nat.succ_pos _, by rw [Nat.add_sub_cancel, ← Nat.add_assoc, hsplit]⟩

/-! The exponent -/

/-- From `exponent = k` the loop goes on to the first `e > k` with
`blockint < 2 ^ (e + 1) - 1`. -/
theorem calcExponentLoop_spec (blockint : ℕ) {fuel k : ℕ} (hfuel : blockint.log2 + 1 ≤ k + fuel)
    (hpos : 0 < fuel) (hk : k = 0 ∨ 2 ^ (k + 1) - 1 ≤ blockint) :
    ∃ e, calcExponentLoop blockint fuel (2 ^ (k + 1)) k = e ∧ 1 ≤ e ∧
      blockint < 2 ^ (e + 1) - 1 ∧ (e = 1 ∨ 2 ^ e - 1 ≤ blockint) := by
  induction fuel generalizing k with
  | zero => omega
  | succ fuel ih =>
    have hpow : 2 ^ (k + 1) * 2 = 2 ^ (k + 1 + 1) := (pow_succ 2 (k + 1)).symm
    simp only [calcExponentLoop, hpow]
    split_ifs with hle
    · have hlog : blockint < 2 ^ (blockint.log2 + 1) := Nat.lt_log2_self
      have hfuel' : 0 < fuel := by
        by_contra hzero
        have := Nat.pow_le_pow_right (n := 2) (by norm_num)
          (show blockint.log2 + 1 ≤ k + 1 by omega)
        have := Nat.one_le_two_pow (n := k + 1)
        omega
      exact ih (by omega) hfuel' (.inr hle)
    · refine ⟨k + 1, rfl, by omega, by omega, ?_⟩
      rcases hk with rfl | hk
      · exact .inl rfl
      · exact .inr hk

theorem calcExponent_spec (blockint : ℕ) :
    1 ≤ calcExponent blockint ∧ blockint < 2 ^ (calcExponent blockint + 1) - 1 ∧
      (calcExponent blockint = 1 ∨ 2 ^ calcExponent blockint - 1 ≤ blockint) := by
  obtain ⟨e, he, h⟩ := calcExponentLoop_spec blockint (k := 0)
    (Nat.zero_add _).ge (Nat.succ_pos _) (.inl rfl)
  have hcalc : calcExponent blockint = e := he
  rwa [hcalc]

/-- The exponent is the least `e ≥ 1` with `blockint < 2 ^ (e + 1) - 1`. -/
theorem calcExponent_eq_iff {blockint e : ℕ} (he : 1 ≤ e) :
    calcExponent blockint = e ↔
      blockint < 2 ^ (e + 1) - 1 ∧ (e = 1 ∨ 2 ^ e - 1 ≤ blockint) := by
  constructor
  · rintro rfl
    exact (calcExponent_spec blockint).2
  · rintro ⟨hlt, hle⟩
    obtain ⟨hpos, hlt', hle'⟩ := calcExponent_spec blockint
    set c := calcExponent blockint
    rcases lt_trichotomy c e with h | h | h
    · have := Nat.pow_le_pow_right (n := 2) (by norm_num) (show c + 1 ≤ e by omega)
      omega
    · exact h
    · have := Nat.pow_le_pow_right (n := 2) (by norm_num) (show e + 1 ≤ c by omega)
      omega

theorem calcExponent_isLeast (blockint : ℕ) :
    IsLeast {e | 1 ≤ e ∧ blockint < 2 ^ (e + 1) - 1} (calcExponent blockint) := by
  obtain ⟨hpos, hlt, hle⟩ := calcExponent_spec blockint
  refine ⟨⟨hpos, hlt⟩, ?_⟩
  rintro e ⟨he, hblock⟩
  rcases hle with hone | hle
  · exact hone.trans_le he
  · by_contra hlow
    have := Nat.pow_le_pow_right (n := 2) (by norm_num)
      (show e + 1 ≤ calcExponent blockint by omega)
    omega

theorem le_of_calcExponent (blockint : ℕ) :
    blockint = 0 ∨ 2 ^ calcExponent blockint - 1 ≤ blockint := by
  rcases (calcExponent_spec blockint).2.2 with hone | hle
  · rw [hone]
    omega
  · exact .inr hle

theorem calcExponent_mono : Monotone calcExponent := by
  intro v w hvw
  obtain ⟨⟨hpos, hlt⟩, -⟩ := calcExponent_isLeast w
  exact (calcExponent_isLeast v).2 ⟨hpos, hvw.trans_lt hlt⟩

/-- Any bound on the iterations that lets the loop come to its own end will do. -/
theorem calcExponentLoop_eq {blockint fuel : ℕ} (h : blockint.log2 < fuel) :
    calcExponentLoop blockint fuel 2 0 = calcExponent blockint := by
  obtain ⟨e, he, hpos, hchar⟩ := calcExponentLoop_spec blockint (k := 0) (by omega)
    (Nat.zero_lt_of_lt h) (.inl rfl)
  have hloop : calcExponentLoop blockint fuel 2 0 = e := he
  rw [hloop]
  exact ((calcExponent_eq_iff hpos).mpr hchar).symm

section
variable {block : List UInt8} (hpos : 0 < block.length)
include hpos

theorem calcExponent_le : calcExponent (ofBE block) ≤ 8 * block.length := by
  have hval : ofBE block < 2 ^ (8 * block.length) := by
    rw [pow_mul]
    exact ofBE_lt block
  refine (calcExponent_isLeast _).2 ⟨by omega, ?_⟩
  rw [pow_succ]
  omega

/-- Only a block of ones has the exponent of its length. -/
theorem calcExponent_eq_length_iff :
    calcExponent (ofBE block) = 8 * block.length ↔ ∀ byte ∈ block, byte = 255 := by
  have hpow : 2 ^ (8 * block.length) = 256 ^ block.length := by
    rw [pow_mul]
    norm_num
  have hlt := ofBE_lt block
  rw [calcExponent_eq_iff (by omega), ← ofBE_add_one_eq_iff, pow_succ, hpow]
  omega

end

/-- The exponent of a number and of a block. -/
theorem calcExponent_law :
    (∀ blockint fuel, blockint.log2 < fuel →
      calcExponentLoop blockint fuel 2 0 = calcExponent blockint) ∧
    (∀ blockint, IsLeast {e | 1 ≤ e ∧ blockint < 2 ^ (e + 1) - 1} (calcExponent blockint) ∧
      (blockint = 0 ∨ 2 ^ calcExponent blockint - 1 ≤ blockint)) ∧
    Monotone calcExponent ∧
    ∀ block : List UInt8, 0 < block.length → calcExponent (mpzImport block) ≤ 8 * block.length ∧
      (calcExponent (mpzImport block) = 8 * block.length ↔ ∀ byte ∈ block, byte = 255) :=
  ⟨fun _ _ => calcExponentLoop_eq, fun blockint => ⟨calcExponent_isLeast blockint,
    le_of_calcExponent blockint⟩, calcExponent_mono,
    fun _ hpos => ⟨calcExponent_le hpos, calcExponent_eq_length_iff hpos⟩⟩

theorem calcExponent_law_ones : calcExponent (mpzImport [255]) = 8 :=
  (calcExponent_law.2.2.2 [255] Nat.one_pos).2.mpr (by simp)

end Mdencode.Cpp
