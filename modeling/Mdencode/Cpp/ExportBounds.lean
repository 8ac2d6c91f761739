import Mdencode.Lib.Buffer
import Mdencode.Cpp.SipKeys

/-! The exports of a bigint into a buffer of fixed size with every access
checked. The padding loop starts one place too high: it moves the byte behind
the exported ones too, and that one goes past the end of the buffer. -/

namespace Mdencode.Cpp

open Mdencode.Bytes Mdencode.Buffer

/-- `mpz_export` writes as many bytes as the value has. -/
def mpzExportIn (v : ℕ) (byteblock : List UInt8) : Option (List UInt8 × ℕ) :=
  if byteLen v ≤ byteblock.length then some (mpzExport v byteblock) else none

def padBlockBytesIn (count blocksize : ℕ) (byteblock : List UInt8) : Option (List UInt8) :=
  if count < blocksize then
    let diff := blocksize - count
    (moveUp diff (blocksize - diff) byteblock).bind (fill 0 diff)
  else some byteblock

/-- An export and its padding, as `mdzipfile` makes them of a remainder. -/
def exportPadded (v : ℕ) (byteblock : List UInt8) : Option (List UInt8) :=
  (mpzExportIn v byteblock).bind fun (bytes, count) =>
    padBlockBytesIn count byteblock.length bytes

/-- The export and the copy of the padding in `decode`. -/
def Modscan.exportBlockIn {ρ : Type} (ms : Modscan ρ) : Option (List UInt8) :=
  (mpzExportIn ms.blockInt ms.byteblock).bind fun (byteblock, count) =>
    if count < ms.blocksize then
      let diff := ms.blocksize - count
      (moveUp diff (ms.blocksize - diff) byteblock).bind (fill 0 diff)
    else some byteblock

def incrementByteblockIn (byteblock : List UInt8) (blocknumber : ℕ) (incrementKey : IncrementKey) :
    Option (List UInt8) :=
  let keyblockInt : ℤ := mpzImport byteblock
  let keyblockInt :=
    match incrementKey with
    | .noinc => keyblockInt
    | .dec => keyblockInt - blocknumber
    | .inc => keyblockInt + blocknumber
  (mpzExportIn keyblockInt.natAbs byteblock).bind fun (bytes, count) =>
    padBlockBytesIn count byteblock.length bytes

/-! What the checked runs do -/

section
variable {diff top count blocksize : ℕ} {byteblock out : List UInt8}

theorem shiftBlockBytes_of_moveUp (h : moveUp diff top byteblock = some out) :
    out = shiftBlockBytes diff top byteblock := by
  induction top generalizing byteblock with
  | zero =>
    obtain ⟨a, ha, hset⟩ := Option.bind_eq_some_iff.mp h
    rw [eq_of_set hset, shiftBlockBytes, List.getD_eq_getElem?_getD,
      show byteblock[0]? = some a from ha]
    rfl
  | succ top ih =>
    obtain ⟨a, ha, hset⟩ := Option.bind_eq_some_iff.mp h
    obtain ⟨buf, hbuf, hrest⟩ := Option.bind_eq_some_iff.mp hset
    rw [ih hrest, eq_of_set hbuf, shiftBlockBytes, List.getD_eq_getElem?_getD,
      show byteblock[top + 1]? = some a from ha]
    rfl

theorem zeroBlockBytes_of_fill (h : fill 0 count byteblock = some out) :
    out = zeroBlockBytes count byteblock := by
  induction count generalizing out with
  | zero =>
    obtain rfl := Option.some.inj h
    rfl
  | succ count ih =>
    obtain ⟨buf, hbuf, hset⟩ := Option.bind_eq_some_iff.mp h
    rw [eq_of_set hset, ih hbuf, zeroBlockBytes, zeroBlockBytes, List.range_succ, List.foldl_append]
    rfl

/-- A padding that stays in the buffer is the padding. -/
theorem padBlockBytes_of_in (h : padBlockBytesIn count blocksize byteblock = some out) :
    out = padBlockBytes count blocksize byteblock := by
  unfold padBlockBytesIn at h
  unfold padBlockBytes
  split_ifs at h ⊢ with hlt
  · obtain ⟨buf, hmove, hfill⟩ := Option.bind_eq_some_iff.mp h
    rw [zeroBlockBytes_of_fill hfill, shiftBlockBytes_of_moveUp hmove]
  · exact (Option.some.inj h).symm

/-- It takes a buffer one byte longer than the block. -/
theorem padBlockBytesIn_isSome_iff :
    (padBlockBytesIn count blocksize byteblock).isSome ↔
      blocksize ≤ count ∨ blocksize < byteblock.length := by
  unfold padBlockBytesIn
  split_ifs with hlt
  · dsimp only
    rcases Nat.lt_or_ge blocksize byteblock.length with hlen | hlen
    · have htop :
          blocksize - (blocksize - count) + (blocksize - count) < byteblock.length := by omega
      obtain ⟨buf, hmove, hbuf⟩ := exists_moveUp htop
      have hcount : blocksize - count ≤ buf.length := by omega
      obtain ⟨out, hfill, -⟩ := exists_fill (a := (0 : UInt8)) hcount
      rw [hmove, Option.bind_some, hfill]
      simp [hlen]
    · rw [moveUp_of_le (by omega)]
      simp [hlt, hlen]
  · simp [Nat.le_of_not_lt hlt]

end

/-- Into a buffer of its own size a value is exported in bounds when it has no
leading zero byte. -/
theorem exportPadded_eq (v : ℕ) (byteblock : List UInt8) :
    exportPadded v byteblock =
      if byteLen v = byteblock.length then some (toBE byteblock.length v) else none := by
  unfold exportPadded mpzExportIn
  split_ifs with hle heq heq
  · change padBlockBytesIn (mpzExport v byteblock).2 byteblock.length (mpzExport v byteblock).1 = _
    have hcount : byteblock.length ≤ (mpzExport v byteblock).2 := heq.ge
    obtain ⟨out, hout⟩ := Option.isSome_iff_exists.mp
      (padBlockBytesIn_isSome_iff.mpr (.inl hcount))
    rw [hout, padBlockBytes_of_in hout, padBlockBytes_mpzExport ((byteLen_le_iff _ _).mp hle)]
  · change padBlockBytesIn (mpzExport v byteblock).2 byteblock.length (mpzExport v byteblock).1 = _
    have hcount : ¬ byteblock.length ≤ (mpzExport v byteblock).2 := by
      change ¬ byteblock.length ≤ byteLen v
      omega
    rw [← Option.not_isSome_iff_eq_none, padBlockBytesIn_isSome_iff, length_mpzExport]
    simp [hcount]
  · omega
  · rfl

theorem byteLen_eq_iff {v n : ℕ} (hn : 1 ≤ n) :
    byteLen v = n ↔ 256 ^ (n - 1) ≤ v ∧ v < 256 ^ n := by
  rw [← byteLen_le_iff, ← not_lt, ← byteLen_le_iff]
  omega

/-- `decode` has the padding written out again. -/
theorem Modscan.exportBlockIn_eq {ρ : Type} {ms : Modscan ρ}
    (h : ms.blocksize = ms.byteblock.length) :
    ms.exportBlockIn = exportPadded ms.blockInt ms.byteblock := by
  unfold exportBlockIn exportPadded padBlockBytesIn
  rw [h]

/-! Exports of fixed width -/

/-- The run stays in bounds and leaves the big-endian form, which is read back. -/
def HoldsBigEndian (n v : ℕ) (run : Option (List UInt8)) : Prop :=
  ∃ out, run = some out ∧ out = toBE n v ∧ mpzImport out = v

/-- Both copies of the padding do their work in any buffer of `n` bytes. -/
def ExportsInBounds (n v : ℕ) : Prop :=
  (∀ byteblock : List UInt8, byteblock.length = n → HoldsBigEndian n v (exportPadded v byteblock)) ∧
    ∀ (ρ : Type) (ms : Modscan ρ), ms.byteblock.length = n → ms.blocksize = n → ms.blockInt = v →
      HoldsBigEndian n v ms.exportBlockIn

/-- Only a value that fills the buffer is padded in bounds, since it is not padded. -/
theorem exportsInBounds_iff {n v : ℕ} (hn : 1 ≤ n) (hv : v < 256 ^ n) :
    ExportsInBounds n v ↔ 256 ^ (n - 1) ≤ v := by
  have hlen := byteLen_eq_iff (v := v) hn
  have hexport : ∀ byteblock : List UInt8, byteblock.length = n →
      (HoldsBigEndian n v (exportPadded v byteblock) ↔ byteLen v = n) := by
    rintro byteblock rfl
    rw [exportPadded_eq]
    split_ifs with heq
    · exact iff_of_true ⟨_, rfl, rfl, ofBE_toBE_of_lt hv⟩ heq
    · exact iff_of_false (fun ⟨out, hout, _⟩ => by cases hout) heq
  constructor
  · rintro ⟨hpad, -⟩
    have := (hexport _ List.length_replicate).mp (hpad (List.replicate n 0) List.length_replicate)
    exact (hlen.mp this).1
  · intro hle
    have hfull := hlen.mpr ⟨hle, hv⟩
    refine ⟨fun byteblock hblock => (hexport byteblock hblock).mpr hfull, ?_⟩
    rintro ρ ms hblock hsize rfl
    rw [Modscan.exportBlockIn_eq (hsize.trans hblock.symm)]
    exact (hexport _ hblock).mpr hfull

theorem exportsInBounds_iff_byte : ExportsInBounds 1 7 ↔ 256 ^ (1 - 1) ≤ 7 :=
  exportsInBounds_iff (by norm_num) (by norm_num)

/-- A zero in a buffer of one byte. -/
theorem zero_export_out_of_bounds :
    exportPadded 0 [0] = none ∧ ¬ ∀ n v, 1 ≤ n → v < 256 ^ n → ExportsInBounds n v := by
  have hnone : exportPadded 0 [0] = none := by decide
  refine ⟨hnone, fun h => ?_⟩
  obtain ⟨out, hout, -⟩ := (h 1 0 (by norm_num) (by norm_num)).1 [0] rfl
  rw [hnone] at hout
  cases hout

/-! A key moved up and down again -/

theorem incrementByteblockIn_eq (byteblock : List UInt8) (n : ℕ) (incKey : IncrementKey) :
    incrementByteblockIn byteblock n incKey =
      exportPadded (keyblockInt byteblock n incKey).natAbs byteblock := by
  cases incKey <;> rfl

/-- A call that stays in the key is the call. -/
theorem incrementByteblock_of_in {byteblock out : List UInt8} {n : ℕ} {incKey : IncrementKey}
    (h : incrementByteblockIn byteblock n incKey = some out) :
    out = incrementByteblock byteblock n incKey := by
  rw [incrementByteblockIn_eq, exportPadded_eq] at h
  split_ifs at h with hlen
  rw [incrementByteblock_eq ((byteLen_le_iff _ _).mp hlen.le)]
  exact (Option.some.inj h).symm

/-- Up and down by `n`, and down and up, each call within the sixteen bytes. -/
structure StepsInvert (key : List UInt8) (n : ℕ) : Prop where
  inc_dec : (incrementByteblockIn key n .inc).bind (fun up => incrementByteblockIn up n .dec) =
    some key
  dec_inc : (incrementByteblockIn key n .dec).bind (fun down => incrementByteblockIn down n .inc) =
    some key

section
variable {key : List UInt8} (hkey : key.length = 16) (n : ℕ) (incKey : IncrementKey)
include hkey

theorem incrementByteblockIn_eq_ite :
    incrementByteblockIn key n incKey =
      if 2 ^ 120 ≤ (keyblockInt key n incKey).natAbs ∧ (keyblockInt key n incKey).natAbs < 2 ^ 128
      then some (toBE 16 (keyblockInt key n incKey).natAbs) else none := by
  rw [incrementByteblockIn_eq, exportPadded_eq, hkey]
  refine if_congr ?_ rfl rfl
  rw [byteLen_eq_iff (by norm_num)]
  norm_num

/-- A second call that undoes the first one. -/
theorem bind_incrementByteblockIn (back : IncrementKey) :
    (incrementByteblockIn key n incKey).bind (fun moved => incrementByteblockIn moved n back) =
        some key ↔
      (2 ^ 120 ≤ (keyblockInt key n incKey).natAbs ∧
        (keyblockInt key n incKey).natAbs < 2 ^ 128) ∧
      2 ^ 120 ≤ ofBE key ∧
      (keyblockInt (toBE 16 (keyblockInt key n incKey).natAbs) n back).natAbs = ofBE key := by
  have hlt := ofBE_lt key
  rw [hkey] at hlt
  rw [incrementByteblockIn_eq_ite hkey]
  split_ifs with hmoved
  · rw [Option.bind_some, incrementByteblockIn_eq_ite (length_toBE _ _)]
    set v := (keyblockInt (toBE 16 (keyblockInt key n incKey).natAbs) n back).natAbs
    have hval : toBE 16 v = key ↔ v % 256 ^ 16 = ofBE key := by
      rw [← ofBE_toBE]
      exact ⟨congrArg ofBE, ofBE_inj (by rw [length_toBE, hkey])⟩
    split_ifs with hv
    · rw [Option.some.injEq, hval, Nat.mod_eq_of_lt (hv.2.trans_eq (by norm_num))]
      refine ⟨fun heq => ⟨hmoved, heq ▸ hv.1, heq⟩, fun h => h.2.2⟩
    · apply iff_of_false (by simp)
      rintro ⟨-, hle, heq⟩
      rw [heq] at hv
      exact hv ⟨hle, hlt.trans_eq (by norm_num)⟩
  · exact iff_of_false (by simp) fun h => hmoved h.1

/-- The moved keys have to keep a first byte that is not zero. -/
theorem stepsInvert_iff : StepsInvert key n ↔ 2 ^ 120 + n ≤ ofBE key ∧ ofBE key + n < 2 ^ 128 := by
  have hvalue (v : ℕ) (hv : v < 2 ^ 128) : ofBE (toBE 16 v) = v :=
    ofBE_toBE_of_lt (hv.trans_eq (by norm_num))
  constructor
  · rintro ⟨hup, hdown⟩
    rw [bind_incrementByteblockIn hkey] at hup hdown
    simp only [keyblockInt, mpzImport] at hup hdown
    obtain ⟨⟨-, hlt⟩, -, -⟩ := hup
    obtain ⟨⟨hle, hlt'⟩, -, hback⟩ := hdown
    rw [hvalue _ hlt'] at hback
    omega
  · rintro ⟨hle, hlt⟩
    constructor
    · rw [bind_incrementByteblockIn hkey]
      simp only [keyblockInt, mpzImport]
      rw [hvalue _ (by omega)]
      omega
    · rw [bind_incrementByteblockIn hkey]
      simp only [keyblockInt, mpzImport]
      rw [hvalue _ (by omega)]
      omega

end

theorem stepsInvert_iff_ones : StepsInvert (List.replicate 16 1) 1 ↔
    2 ^ 120 + 1 ≤ ofBE (List.replicate 16 1) ∧ ofBE (List.replicate 16 1) + 1 < 2 ^ 128 :=
  stepsInvert_iff List.length_replicate 1

/-- The default key starts with a zero byte, and is written past. -/
theorem default_key_overrun :
    incrementByteblockIn (List.ofFn fun k : Fin 16 => UInt8.ofNat k) 1 .inc = none ∧
      ¬ ∀ key n, key.length = 16 → StepsInvert key n := by
  have hnone : incrementByteblockIn (List.ofFn fun k : Fin 16 => UInt8.ofNat k) 1 .inc = none := by
    decide
  refine ⟨hnone, fun h => ?_⟩
  have hstep := (h (List.ofFn fun k : Fin 16 => UInt8.ofNat k) 1 List.length_ofFn).inc_dec
  rw [hnone] at hstep
  cases hstep

end Mdencode.Cpp
