import Mathlib.Tactic
import Mathlib.Data.Nat.Log

/-! Byte strings as numbers. `ofBE` reads a base-256 numeral most significant
byte first, `toBE n` writes one in exactly `n` bytes, and `magBE` writes one in
as few bytes as it needs, which is none for zero. The little-endian forms are
the reversals. -/

namespace Mdencode.Bytes

def ofBE : List UInt8 → ℕ
  | [] => 0
  | b :: rest => b.toNat * 256 ^ rest.length + ofBE rest

def toBE : ℕ → ℕ → List UInt8
  | 0, _ => []
  | n + 1, v => UInt8.ofNat (v / 256 ^ n) :: toBE n v

/-- The number of base-256 digits of `v`, zero for `v = 0`. -/
def byteLen (v : ℕ) : ℕ := if v = 0 then 0 else v.log2 / 8 + 1

def magBE (v : ℕ) : List UInt8 := toBE (byteLen v) v

def ofLE (bytes : List UInt8) : ℕ := ofBE bytes.reverse

def toLE (n v : ℕ) : List UInt8 := (toBE n v).reverse

/-- The bytes of a string of ASCII characters. -/
def ascii (s : String) : List UInt8 := s.toList.map fun c => UInt8.ofNat c.toNat

theorem ofBE_append (xs ys : List UInt8) :
    ofBE (xs ++ ys) = ofBE xs * 256 ^ ys.length + ofBE ys := by
  induction xs with
  | nil => simp [ofBE]
  | cons x xs ih =>
    simp only [List.cons_append, ofBE, ih, List.length_append, pow_add]
    ring

theorem ofBE_lt : ∀ bytes : List UInt8, ofBE bytes < 256 ^ bytes.length
  | [] => by simp [ofBE]
  | b :: rest => by
    have hrest := ofBE_lt rest
    have hb : b.toNat + 1 ≤ 256 := b.toNat_lt
    calc
      ofBE (b :: rest) < (b.toNat + 1) * 256 ^ rest.length := by
        rw [ofBE, Nat.succ_mul]
        omega
      _ ≤ 256 ^ (b :: rest).length := by
        rw [List.length_cons, pow_succ, Nat.mul_comm (256 ^ rest.length)]
        exact Nat.mul_le_mul_right _ hb

@[simp] theorem length_toBE (n v : ℕ) : (toBE n v).length = n := by
  induction n with
  | zero => rfl
  | succ n ih => simp [toBE, ih]

@[simp] theorem length_toLE (n v : ℕ) : (toLE n v).length = n := by simp [toLE]

/-- `n` bytes keep a number modulo `256 ^ n`. -/
theorem ofBE_toBE (n v : ℕ) : ofBE (toBE n v) = v % 256 ^ n := by
  induction n with
  | zero => simp [toBE, ofBE, Nat.mod_one]
  | succ n ih =>
    have hbyte : (UInt8.ofNat (v / 256 ^ n)).toNat = v / 256 ^ n % 256 := UInt8.toNat_ofNat'
    rw [toBE, ofBE, length_toBE, ih, hbyte, Nat.mod_pow_succ]
    ring

theorem ofLE_toLE (n v : ℕ) : ofLE (toLE n v) = v % 256 ^ n := by
  rw [ofLE, toLE, List.reverse_reverse, ofBE_toBE]

theorem ofBE_toBE_of_lt {n v : ℕ} (h : v < 256 ^ n) : ofBE (toBE n v) = v := by
  rw [ofBE_toBE, Nat.mod_eq_of_lt h]

theorem toLE_inj {n v v' : ℕ} (hv : v < 256 ^ n) (hv' : v' < 256 ^ n) (h : toLE n v = toLE n v') :
    v = v' := by
  rw [← Nat.mod_eq_of_lt hv, ← ofLE_toLE, h, ofLE_toLE, Nat.mod_eq_of_lt hv']

/-- Two byte strings of one length with one value are one byte string. -/
theorem ofBE_inj {xs ys : List UInt8} (hl : xs.length = ys.length) (h : ofBE xs = ofBE ys) :
    xs = ys := by
  induction xs generalizing ys with
  | nil => exact (List.length_eq_zero_iff.mp hl.symm).symm
  | cons x xs ih =>
    cases ys with
    | nil => simp at hl
    | cons y ys =>
      have hl' : xs.length = ys.length := by simpa using hl
      rw [ofBE, ofBE, hl'] at h
      have hx := ofBE_lt xs
      have hy := ofBE_lt ys
      rw [hl'] at hx
      have hxy : x.toNat = y.toNat := by
        have := congrArg (· / 256 ^ ys.length) h
        simpa [Nat.add_div_of_dvd_right, Nat.mul_add_div, Nat.div_eq_of_lt hx, Nat.div_eq_of_lt hy,
          Nat.mul_comm _ (256 ^ ys.length)] using this
      have hrest : ofBE xs = ofBE ys := by rw [hxy] at h; omega
      rw [UInt8.toNat_inj.mp hxy, ih hl' hrest]

/-- The largest value of a length has no byte below 255. -/
theorem ofBE_add_one_eq_iff (bytes : List UInt8) :
    ofBE bytes + 1 = 256 ^ bytes.length ↔ ∀ b ∈ bytes, b = 255 := by
  induction bytes with
  | nil => simp [ofBE]
  | cons b rest ih =>
    have hrest := ofBE_lt rest
    have hb : b.toNat ≤ 255 := Nat.le_of_lt_succ b.toNat_lt
    have hval : b = 255 ↔ b.toNat = 255 := by
      rw [← UInt8.toNat_inj]
      rfl
    rw [List.forall_mem_cons, ← ih, hval, ofBE, List.length_cons, pow_succ]
    constructor
    · intro h
      have hbyte : b.toNat = 255 := by
        by_contra hne
        have := Nat.mul_le_mul_right (256 ^ rest.length) (show b.toNat ≤ 254 by omega)
        omega
      rw [hbyte] at h
      exact ⟨hbyte, by omega⟩
    · rintro ⟨hbyte, h⟩
      rw [hbyte]
      omega

/-- A byte string is the fixed-width form of its own value. -/
theorem toBE_ofBE (bytes : List UInt8) : toBE bytes.length (ofBE bytes) = bytes :=
  ofBE_inj (by simp) (ofBE_toBE_of_lt (ofBE_lt bytes))

@[simp] theorem byteLen_zero : byteLen 0 = 0 := rfl

@[simp] theorem length_magBE (v : ℕ) : (magBE v).length = byteLen v := length_toBE _ _

theorem byteLen_le_iff (v n : ℕ) : byteLen v ≤ n ↔ v < 256 ^ n := by
  rcases Nat.eq_zero_or_pos v with rfl | hv
  · simp
  · have h256 : (256 : ℕ) ^ n = 2 ^ (8 * n) := by rw [pow_mul]; norm_num
    have hlog : v.log2 < 8 * n ↔ v < 2 ^ (8 * n) := Nat.log2_lt hv.ne'
    rw [byteLen, if_neg hv.ne', h256, ← hlog]
    omega

theorem lt_pow_byteLen (v : ℕ) : v < 256 ^ byteLen v := (byteLen_le_iff v _).mp le_rfl

theorem ofBE_magBE (v : ℕ) : ofBE (magBE v) = v := ofBE_toBE_of_lt (lt_pow_byteLen v)

theorem byteLen_mono {v w : ℕ} (h : v ≤ w) : byteLen v ≤ byteLen w :=
  (byteLen_le_iff v _).mpr (h.trans_lt (lt_pow_byteLen w))

/-- The shortest form of a number does not start with a zero byte. -/
theorem exists_magBE_eq_cons {v : ℕ} (hv : 0 < v) : ∃ b rest, magBE v = b :: rest ∧ b ≠ 0 := by
  cases hmag : magBE v with
  | nil =>
    have hzero := ofBE_magBE v
    rw [hmag, ofBE] at hzero
    omega
  | cons b rest =>
    refine ⟨b, rest, rfl, ?_⟩
    rintro rfl
    have hlen : byteLen v = rest.length + 1 := by rw [← length_magBE, hmag, List.length_cons]
    have hlt : v < 256 ^ rest.length := by
      rw [← ofBE_magBE v, hmag, ofBE]
      simpa using ofBE_lt rest
    have := (byteLen_le_iff v rest.length).mpr hlt
    omega

/-- Zero bytes in front of the shortest form give the fixed-width form. -/
theorem zeros_append_magBE {n v : ℕ} (h : v < 256 ^ n) :
    List.replicate (n - byteLen v) 0 ++ magBE v = toBE n v := by
  have hle : byteLen v ≤ n := (byteLen_le_iff v n).mpr h
  have hz (k : ℕ) : ofBE (List.replicate k 0) = 0 := by
    induction k with
    | zero => rfl
    | succ k ih => rw [List.replicate_succ, ofBE, ih]; simp
  apply ofBE_inj
  · simp [hle]
  · rw [ofBE_append, hz, ofBE_magBE, ofBE_toBE_of_lt h]
    simp

end Mdencode.Bytes
