import Mdencode.Lib.Bytes

/-! What the Go encoder and decoder both compute about the blocks of a file.
A `big.Int` is a natural number, and an integer division by zero is a panic. -/

namespace Mdencode.Go

open Mdencode.Bytes

/-- One `Read` of an `os.File` returns at most this many bytes. -/
@[irreducible] def maxRW : ℕ := 2 ^ 30

/-- The buffer after one `Read` from what is left of a file. -/
def fileRead (buf file : List UInt8) : List UInt8 :=
  let bytes := file.take (min buf.length maxRW)
  bytes ++ buf.drop bytes.length

/-- The `for` loop of `logN`; the first argument bounds the iterations. -/
def logNLoop (base : ℕ) : ℕ → ℕ → ℕ → ℕ
  | 0, _, exponent => exponent
  | fuel + 1, fileblockint, exponent =>
    let fileblockint := fileblockint / base
    if fileblockint < base then exponent else logNLoop base fuel fileblockint (exponent + 1)

def logN (fileblockint base : ℕ) : ℕ :=
  if fileblockint < base then 0 else logNLoop base fileblockint.log2 fileblockint 1

/-- The exponent and the remainder of a block. -/
def calculateFileBlockModulus (blockBigInt modulusBigInt : ℕ) : ℕ × ℕ :=
  (logN blockBigInt 2, blockBigInt % modulusBigInt)

/-- The number of blocks and the size of the last one. -/
def calculateFileBlocks (fileSize blockSize : ℕ) : Option (ℕ × ℕ) :=
  if blockSize = 0 then none
  else if fileSize % blockSize = 0 then some (fileSize / blockSize, blockSize)
  else some (fileSize / blockSize + 1, fileSize % blockSize)

/-- The width of a remainder, as the writer and the reader each compute it. -/
def modByteSize (modSize : ℕ) : ℕ :=
  if modSize % 8 = 0 then modSize / 8
  else if modSize ≤ 8 then 1
  else modSize / 8 + 1

/-- What the record of a block holds, the size of the block, and the offset of
the end of the record. -/
structure BlockEntry where
  hashBytes : List UInt8
  modExp : ℕ
  modremainder : ℕ
  blocksize : ℕ
  offset : ℕ
  deriving DecidableEq

theorem logNLoop_two {fuel blockint exponent : ℕ} (h : 2 ≤ blockint)
    (hfuel : blockint.log2 ≤ fuel) :
    logNLoop 2 fuel blockint exponent = exponent + (blockint.log2 - 1) := by
  induction fuel generalizing blockint exponent with
  | zero =>
    have hlog : blockint.log2 = (blockint / 2).log2 + 1 := by
      rw [Nat.log2_def, if_pos h]
    omega
  | succ fuel ih =>
    have hlog : blockint.log2 = (blockint / 2).log2 + 1 := by
      rw [Nat.log2_def, if_pos h]
    rw [logNLoop]
    split_ifs with hlt
    · have hone : blockint / 2 = 1 := by omega
      have hzero : (blockint / 2).log2 = 0 := by rw [hone]; decide
      omega
    · have hle : 2 ≤ blockint / 2 := by omega
      have hpos : (blockint / 2).log2 = (blockint / 2 / 2).log2 + 1 := by
        rw [Nat.log2_def, if_pos hle]
      rw [ih hle (by omega)]
      omega

theorem logN_two (blockint : ℕ) : logN blockint 2 = blockint.log2 := by
  unfold logN
  split_ifs with hlt
  · rw [Nat.log2_def, if_neg (by omega)]
  · have hlog : blockint.log2 = (blockint / 2).log2 + 1 := by
      rw [Nat.log2_def, if_pos (by omega)]
    rw [logNLoop_two (by omega) le_rfl]
    omega

theorem lt_two_pow_logN (blockint : ℕ) : blockint < 2 ^ (logN blockint 2 + 1) := by
  rw [logN_two]
  exact Nat.lt_log2_self

theorem two_pow_logN_le {blockint : ℕ} (h : blockint ≠ 0) : 2 ^ logN blockint 2 ≤ blockint := by
  rw [logN_two]
  exact Nat.log2_self_le h

theorem logN_zero : logN 0 2 = 0 := rfl

theorem le_maxRW {n : ℕ} (h : n ≤ 2 ^ 30) : n ≤ maxRW := by rwa [maxRW]

theorem length_fileRead (buf file : List UInt8) : (fileRead buf file).length = buf.length := by
  simp only [fileRead, List.length_append, List.length_take, List.length_drop]
  omega

theorem fileRead_eq {buf file : List UInt8} (h : buf.length ≤ maxRW) :
    fileRead buf file = file.take buf.length ++ buf.drop (file.take buf.length).length := by
  rw [fileRead, Nat.min_eq_left h]

/-- A read for all of a file, as `bufio.Reader` makes it. -/
def bufrRead (file : List UInt8) : List UInt8 := fileRead (List.replicate file.length 0) file

theorem length_bufrRead (file : List UInt8) : (bufrRead file).length = file.length := by
  rw [bufrRead, length_fileRead, List.length_replicate]

/-- Behind what one read returns the buffer is still zero. -/
theorem bufrRead_eq (file : List UInt8) :
    bufrRead file = file.take maxRW ++ List.replicate (file.length - maxRW) 0 := by
  have htake : file.take (min file.length maxRW) = file.take maxRW := by
    rw [List.take_eq_take_iff]
    omega
  rw [bufrRead, fileRead, List.length_replicate, htake, List.drop_replicate, List.length_take]
  congr 2
  omega

/-- Nothing is lost of a file that is zero behind what one read returns. -/
theorem bufrRead_eq_self_iff {file : List UInt8} :
    bufrRead file = file ↔ ∀ byte ∈ file.drop maxRW, byte = 0 := by
  have hsplit : bufrRead file = file ↔
      List.replicate (file.length - maxRW) 0 = file.drop maxRW := by
    rw [bufrRead_eq]
    conv_lhs => rhs; rw [← List.take_append_drop maxRW file]
    rw [List.append_cancel_left_eq]
  rw [hsplit, eq_comm, List.eq_replicate_iff, List.length_drop]
  simp

/-- The first bytes are always read. -/
theorem take_bufrRead {n : ℕ} (h : n ≤ maxRW) (file : List UInt8) :
    (bufrRead file).take n = file.take n := by
  rcases le_total file.length maxRW with hle | hge
  · rw [bufrRead_eq, Nat.sub_eq_zero_of_le hle, List.replicate_zero, List.append_nil,
      List.take_of_length_le hle]
  · rw [bufrRead_eq, List.take_append_of_le_length (by rw [List.length_take]; omega),
      List.take_take, Nat.min_eq_left h]

end Mdencode.Go
