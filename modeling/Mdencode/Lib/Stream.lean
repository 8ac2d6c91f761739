import Mdencode.Lib.Bytes

/-! An input stream over a byte string. A read fills a buffer from its start;
when the bytes run out the rest of the buffer keeps its contents, the stream
fails, and later reads leave their buffers alone. -/

namespace Mdencode

open Mdencode.Bytes

structure IStream where
  rest : List UInt8
  good : Bool
  deriving DecidableEq

namespace IStream

def ofBytes (bytes : List UInt8) : IStream := { rest := bytes, good := true }

/-- Reads over `buf`, which is also what is wanted of the stream. -/
def read (buf : List UInt8) (s : IStream) : List UInt8 × IStream :=
  if s.good then
    (s.rest.take buf.length ++ buf.drop s.rest.length,
      { rest := s.rest.drop buf.length, good := decide (buf.length ≤ s.rest.length) })
  else (buf, s)

/-- A read of what was written next. -/
theorem read_append {buf bytes : List UInt8} (h : bytes.length = buf.length) (rest : List UInt8) :
    (ofBytes (bytes ++ rest)).read buf = (bytes, ofBytes rest) := by
  have hdrop : buf.drop (bytes ++ rest).length = [] := by
    rw [List.drop_eq_nil_iff, List.length_append]
    omega
  simp only [read, ofBytes, if_true, hdrop, List.append_nil, ← h, List.take_left, List.drop_left]
  simp

/-- A read of bytes that are there. -/
theorem read_of_le {buf bytes : List UInt8} (h : buf.length ≤ bytes.length) :
    (ofBytes bytes).read buf = (bytes.take buf.length, ofBytes (bytes.drop buf.length)) := by
  have hlen : (bytes.take buf.length).length = buf.length := List.length_take_of_le h
  have hread := read_append hlen (bytes.drop buf.length)
  rwa [List.take_append_drop] at hread

end IStream

/-- A signed integer in two's complement, least significant byte first. -/
def intBytes (n : ℕ) (v : ℤ) : List UInt8 := toLE n (v % 256 ^ n).toNat

def intOfBytes (bytes : List UInt8) : ℤ := (ofLE bytes : ℤ).bmod (256 ^ bytes.length)

@[simp] theorem length_intBytes (n : ℕ) (v : ℤ) : (intBytes n v).length = n := length_toLE _ _

theorem intOfBytes_intBytes {n : ℕ} (v : ℤ) :
    intOfBytes (intBytes n v) = v.bmod (256 ^ n) := by
  have hpos : (0 : ℤ) < 256 ^ n := by positivity
  have hval : (ofLE (intBytes n v) : ℤ) = v % 256 ^ n := by
    have hlt : (v % 256 ^ n).toNat < 256 ^ n := by
      zify
      rw [Int.toNat_of_nonneg (Int.emod_nonneg _ hpos.ne')]
      exact Int.emod_lt_of_pos _ hpos
    rw [intBytes, ofLE_toLE, Nat.mod_eq_of_lt hlt, Int.toNat_of_nonneg (Int.emod_nonneg _ hpos.ne')]
  rw [intOfBytes, hval, length_intBytes]
  have := Int.emod_bmod v (256 ^ n)
  push_cast at this
  exact this

/-- A value in range comes back from its bytes. -/
theorem intOfBytes_intBytes_of_range {n : ℕ} {v : ℤ} (h₁ : -256 ^ n ≤ v * 2)
    (h₂ : v * 2 < 256 ^ n) : intOfBytes (intBytes n v) = v := by
  rw [intOfBytes_intBytes, Int.bmod_eq_of_le_mul_two]
  · push_cast; omega
  · push_cast; omega

end Mdencode
