import Mdencode.Lib.Bytes

/-! Bit strings, the most significant bit first, and the byte strings they are
packed into. A stream that does not fill its last byte is padded with zeros. -/

namespace Mdencode.Bits

/-- The low `n` bits of a number. -/
def toBits : ℕ → ℕ → List Bool
  | 0, _ => []
  | n + 1, v => v.testBit n :: toBits n v

def ofBits : List Bool → ℕ
  | [] => 0
  | b :: rest => b.toNat * 2 ^ rest.length + ofBits rest

def unpack (bytes : List UInt8) : List Bool := bytes.flatMap fun b => toBits 8 b.toNat

def padTo (n : ℕ) (bits : List Bool) : List Bool :=
  bits ++ List.replicate (n - bits.length) false

/-- The first `n` bytes of a stream. -/
def pack : ℕ → List Bool → List UInt8
  | 0, _ => []
  | n + 1, bits => UInt8.ofNat (ofBits (padTo 8 (bits.take 8))) :: pack n (bits.drop 8)

@[simp] theorem length_toBits (n v : ℕ) : (toBits n v).length = n := by
  induction n with
  | zero => rfl
  | succ n ih => rw [toBits, List.length_cons, ih]

theorem ofBits_lt (bits : List Bool) : ofBits bits < 2 ^ bits.length := by
  induction bits with
  | nil => simp [ofBits]
  | cons b bits ih =>
    have hb : b.toNat ≤ 1 := Bool.toNat_le b
    have hmul : b.toNat * 2 ^ bits.length ≤ 1 * 2 ^ bits.length := Nat.mul_le_mul_right _ hb
    rw [ofBits, List.length_cons, pow_succ]
    omega

/-- `n` bits keep a number modulo `2 ^ n`. -/
theorem ofBits_toBits (n v : ℕ) : ofBits (toBits n v) = v % 2 ^ n := by
  induction n with
  | zero => simp [toBits, ofBits, Nat.mod_one]
  | succ n ih =>
    have hbit : (v.testBit n).toNat = v / 2 ^ n % 2 := by
      rw [Nat.testBit_eq_decide_div_mod_eq]
      rcases Nat.mod_two_eq_zero_or_one (v / 2 ^ n) with h | h <;> simp [h]
    rw [toBits, ofBits, length_toBits, ih, hbit, Nat.mod_pow_succ]
    ring

theorem ofBits_toBits_of_lt {n v : ℕ} (h : v < 2 ^ n) : ofBits (toBits n v) = v := by
  rw [ofBits_toBits, Nat.mod_eq_of_lt h]

/-- Two streams of one length with one value are one stream. -/
theorem ofBits_inj {xs ys : List Bool} (hlen : xs.length = ys.length)
    (h : ofBits xs = ofBits ys) : xs = ys := by
  induction xs generalizing ys with
  | nil => exact (List.length_eq_zero_iff.mp hlen.symm).symm
  | cons x xs ih =>
    cases ys with
    | nil => simp at hlen
    | cons y ys =>
      have hlen' : xs.length = ys.length := by simpa using hlen
      have hx := ofBits_lt xs
      have hy := ofBits_lt ys
      rw [hlen'] at hx
      rw [ofBits, ofBits, hlen'] at h
      have hhead : x = y := by
        cases x <;> cases y <;> simp at h <;> first | rfl | omega
      subst hhead
      rw [ih hlen' (by omega)]

theorem toBits_ofBits (bits : List Bool) : toBits bits.length (ofBits bits) = bits :=
  ofBits_inj (length_toBits _ _) (ofBits_toBits_of_lt (ofBits_lt bits))

theorem toBits_mod (n v : ℕ) : toBits n (v % 2 ^ n) = toBits n v :=
  ofBits_inj (by simp) (by simp [ofBits_toBits])

theorem length_padTo (n : ℕ) (bits : List Bool) : (padTo n bits).length = max n bits.length := by
  rw [padTo, List.length_append, List.length_replicate]
  omega

@[simp] theorem length_pack (n : ℕ) (bits : List Bool) : (pack n bits).length = n := by
  induction n generalizing bits with
  | zero => rfl
  | succ n ih => rw [pack, List.length_cons, ih]

theorem unpack_cons (b : UInt8) (bytes : List UInt8) :
    unpack (b :: bytes) = toBits 8 b.toNat ++ unpack bytes := rfl

/-- One byte holds the next eight bits of a stream, or what is left of it and zeros. -/
theorem toBits_packed (bits : List Bool) (h : bits.length ≤ 8) :
    toBits 8 (UInt8.ofNat (ofBits (padTo 8 bits))).toNat = padTo 8 bits := by
  have hlen : (padTo 8 bits).length = 8 := by
    rw [length_padTo]
    omega
  have hlt := ofBits_lt (padTo 8 bits)
  have hself := toBits_ofBits (padTo 8 bits)
  rw [hlen] at hlt hself
  rw [UInt8.toNat_ofNat_of_lt' hlt, hself]

/-- What was packed comes back, with zeros up to the last byte. -/
theorem unpack_pack {n : ℕ} {bits : List Bool} (h : bits.length ≤ 8 * n) :
    unpack (pack n bits) = padTo (8 * n) bits := by
  induction n generalizing bits with
  | zero =>
    obtain rfl := List.length_eq_zero_iff.mp (Nat.le_zero.mp h)
    rfl
  | succ n ih =>
    have htake : (bits.take 8).length ≤ 8 := List.length_take_le 8 bits
    have hdrop : (bits.drop 8).length ≤ 8 * n := by
      rw [List.length_drop]
      omega
    rw [pack, unpack_cons, toBits_packed _ htake, ih hdrop]
    rcases le_total bits.length 8 with hle | hge
    · rw [List.take_of_length_le hle, List.drop_of_length_le hle, padTo, padTo, padTo,
        List.nil_append, List.append_assoc, List.replicate_append_replicate]
      congr 2
      simp only [List.length_nil]
      omega
    · have hfull : (bits.take 8).length = 8 := by
        rw [List.length_take]
        omega
      rw [padTo, hfull, Nat.sub_self, List.replicate_zero, List.append_nil, padTo,
        ← List.append_assoc, List.take_append_drop, padTo]
      congr 2
      rw [List.length_drop]
      omega

end Mdencode.Bits
