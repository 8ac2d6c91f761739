import Mathlib.Tactic

/-! Bytes and numbers as text: hexadecimal in lower case, read in either case up
to the first pair that is not two digits, and decimal. -/

namespace Mdencode.Numerals

def hexDigit (v : ℕ) : UInt8 := UInt8.ofNat (if v < 10 then 48 + v else 87 + v)

def hexValue (c : UInt8) : Option ℕ :=
  if 48 ≤ c.toNat ∧ c.toNat ≤ 57 then some (c.toNat - 48)
  else if 97 ≤ c.toNat ∧ c.toNat ≤ 102 then some (c.toNat - 87)
  else if 65 ≤ c.toNat ∧ c.toNat ≤ 70 then some (c.toNat - 55)
  else none

def hexEncode (bytes : List UInt8) : List UInt8 :=
  bytes.flatMap fun b => [hexDigit (b.toNat / 16), hexDigit (b.toNat % 16)]

/-- The bytes before the first error; a last odd digit is one. -/
def hexDecode : List UInt8 → List UInt8
  | c :: d :: rest =>
    match hexValue c, hexValue d with
    | some high, some low => UInt8.ofNat (16 * high + low) :: hexDecode rest
    | _, _ => []
  | _ => []

def decimal (n : ℕ) : List UInt8 := (Nat.toDigits 10 n).map fun c => UInt8.ofNat c.toNat

def ofDecimal (text : List UInt8) : ℕ := text.foldl (fun v c => 10 * v + (c.toNat - 48)) 0

theorem hexValue_hexDigit : ∀ v < 16, hexValue (hexDigit v) = some v := by decide

theorem hexDigit_ne_colon : ∀ v < 16, hexDigit v ≠ 58 := by decide

theorem hexEncode_cons (b : UInt8) (bytes : List UInt8) :
    hexEncode (b :: bytes) =
      hexDigit (b.toNat / 16) :: hexDigit (b.toNat % 16) :: hexEncode bytes :=
  rfl

theorem hexEncode_append (xs ys : List UInt8) :
    hexEncode (xs ++ ys) = hexEncode xs ++ hexEncode ys :=
  List.flatMap_append

theorem length_hexEncode (bytes : List UInt8) : (hexEncode bytes).length = 2 * bytes.length := by
  induction bytes with
  | nil => rfl
  | cons b bytes ih =>
    rw [← List.singleton_append, hexEncode_append, List.length_append, ih, List.length_append]
    exact (Nat.mul_add 2 1 bytes.length).symm

theorem hexEncode_flatten (parts : List (List UInt8)) :
    hexEncode parts.flatten = (parts.map hexEncode).flatten := by
  induction parts with
  | nil => rfl
  | cons bytes parts ih => rw [List.flatten_cons, hexEncode_append, ih, List.map_cons,
      List.flatten_cons]

/-- Written bytes are read back, and the reading goes on behind them. -/
theorem hexDecode_append (bytes rest : List UInt8) :
    hexDecode (hexEncode bytes ++ rest) = bytes ++ hexDecode rest := by
  induction bytes with
  | nil => rfl
  | cons b bytes ih =>
    have hlt : b.toNat < 256 := b.toNat_lt
    rw [hexEncode_cons, List.cons_append, List.cons_append, hexDecode,
      hexValue_hexDigit _ (by omega), hexValue_hexDigit _ (Nat.mod_lt _ (by norm_num))]
    dsimp only
    rw [ih, Nat.div_add_mod, UInt8.ofNat_toNat, List.cons_append]

@[simp] theorem hexDecode_hexEncode (bytes : List UInt8) : hexDecode (hexEncode bytes) = bytes := by
  have happend := hexDecode_append bytes []
  rwa [List.append_nil, show hexDecode [] = [] from rfl, List.append_nil] at happend

theorem hexEncode_injective : Function.Injective hexEncode :=
  fun xs ys h => by rw [← hexDecode_hexEncode xs, h, hexDecode_hexEncode]

/-- Nothing is read from a colon on. -/
theorem hexDecode_colon (rest : List UInt8) : hexDecode (58 :: rest) = [] := by
  cases rest with
  | nil => rfl
  | cons d rest => rfl

theorem colon_notMem_hexEncode (bytes : List UInt8) : 58 ∉ hexEncode bytes := by
  intro hmem
  obtain ⟨b, -, hdigit⟩ := List.mem_flatMap.mp hmem
  have hlt : b.toNat < 256 := b.toNat_lt
  rcases List.mem_cons.mp hdigit with heq | hdigit
  · exact hexDigit_ne_colon _ (by omega) heq.symm
  · exact hexDigit_ne_colon _ (Nat.mod_lt _ (by norm_num)) (List.mem_singleton.mp hdigit).symm

theorem isDigit_bounds {n : ℕ} {c : Char} (h : c ∈ Nat.toDigits 10 n) :
    48 ≤ c.toNat ∧ c.toNat ≤ 57 := by
  have hdigit := Nat.isDigit_of_mem_toDigits (by norm_num) le_rfl h
  rw [Char.isDigit, Bool.and_eq_true, decide_eq_true_iff, decide_eq_true_iff] at hdigit
  exact hdigit

theorem decimal_bounds {n : ℕ} {c : UInt8} (h : c ∈ decimal n) : 48 ≤ c.toNat ∧ c.toNat ≤ 57 := by
  obtain ⟨d, hd, rfl⟩ := List.mem_map.mp h
  have hbounds := isDigit_bounds hd
  rw [UInt8.toNat_ofNat']
  omega

theorem colon_notMem_decimal (n : ℕ) : 58 ∉ decimal n := by
  intro hmem
  have hbounds := decimal_bounds hmem
  have : (58 : UInt8).toNat = 58 := rfl
  omega

theorem ofDecimal_decimal (n : ℕ) : ofDecimal (decimal n) = n := by
  have hbytes : ∀ c ∈ Nat.toDigits 10 n, (UInt8.ofNat c.toNat).toNat = c.toNat := by
    intro c hc
    have := isDigit_bounds hc
    rw [UInt8.toNat_ofNat']
    omega
  calc
    ofDecimal (decimal n) = (Nat.toDigits 10 n).foldl
        (fun v c => 10 * v + ((UInt8.ofNat c.toNat).toNat - 48)) 0 := by
      rw [ofDecimal, decimal, List.foldl_map]
    _ = (Nat.toDigits 10 n).foldl (fun v c => 10 * v + (c.toNat - 48)) 0 :=
      List.foldl_ext _ _ _ fun v c hc => by rw [hbytes c hc]
    _ = Nat.ofDigitChars 10 (Nat.toDigits 10 n) 0 := rfl
    _ = n := Nat.ofDigitChars_toDigits (by norm_num) le_rfl

/-! Signed numbers -/

def intText (n : ℤ) : List UInt8 :=
  if n < 0 then 45 :: decimal n.natAbs else decimal n.natAbs

def ofIntText : List UInt8 → ℤ
  | 45 :: digits => -ofDecimal digits
  | digits => ofDecimal digits

theorem ofIntText_intText (n : ℤ) : ofIntText (intText n) = n := by
  have hdigits : ∀ k : ℕ, ofIntText (decimal k) = k := by
    intro k
    unfold ofIntText
    split
    · rename_i digits heq
      have hmem : (45 : UInt8) ∈ decimal k := heq ▸ List.mem_cons_self
      have hbounds := decimal_bounds hmem
      have : (45 : UInt8).toNat = 45 := rfl
      omega
    · rw [ofDecimal_decimal]
  unfold intText
  split_ifs with hneg
  · rw [ofIntText, ofDecimal_decimal]
    omega
  · rw [hdigits]
    omega

theorem intText_injective : Function.Injective intText :=
  fun m n h => by rw [← ofIntText_intText m, h, ofIntText_intText]

theorem decimal_injective : Function.Injective decimal :=
  fun m n h => by rw [← ofDecimal_decimal m, h, ofDecimal_decimal]

/-! The digits of one number in two bases -/

/-- Digits with the most significant first, behind those of `n`. -/
def numeral (base n : ℕ) (digits : List ℕ) : ℕ := digits.foldl (fun n d => n * base + d) n

@[simp] theorem numeral_nil (base n : ℕ) : numeral base n [] = n := rfl

@[simp] theorem numeral_cons (base n d : ℕ) (digits : List ℕ) :
    numeral base n (d :: digits) = numeral base (n * base + d) digits := rfl

theorem numeral_concat (base n : ℕ) (digits : List ℕ) (d : ℕ) :
    numeral base n (digits ++ [d]) = numeral base n digits * base + d := by
  simp [numeral]

theorem numeral_mono {base base' n n' : ℕ} (hbase : base ≤ base') (hn : n ≤ n')
    (digits : List ℕ) : numeral base n digits ≤ numeral base' n' digits := by
  induction digits generalizing n n' with
  | nil => exact hn
  | cons d digits ih => exact ih (Nat.add_le_add_right (Nat.mul_le_mul hn hbase) d)

theorem le_numeral {base n : ℕ} (hbase : 0 < base) (digits : List ℕ) :
    n ≤ numeral base n digits := by
  induction digits generalizing n with
  | nil => exact le_rfl
  | cons d digits ih =>
    calc
      n ≤ n * base := Nat.le_mul_of_pos_right n hbase
      _ ≤ n * base + d := Nat.le_add_right _ d
      _ ≤ numeral base (n * base + d) digits := ih

/-- No digit is larger than the number. -/
theorem le_numeral_of_mem {base n d : ℕ} (hbase : 0 < base) {digits : List ℕ} (h : d ∈ digits) :
    d ≤ numeral base n digits := by
  induction digits generalizing n with
  | nil => cases h
  | cons e digits ih =>
    rcases List.mem_cons.mp h with rfl | h
    · exact (Nat.le_add_left d (n * base)).trans (le_numeral hbase digits)
    · exact ih h

/-- Digits mean the same in a smaller base only when there is just one of them,
with zeros before it. -/
theorem numeral_eq_numeral_iff {base base' : ℕ} (hzero : 0 < base) (hbase : base < base')
    {digits : List ℕ} (hdigits : ∀ d ∈ digits, d < base) :
    numeral base 0 digits = numeral base' 0 digits ↔ numeral base' 0 digits < base := by
  rcases digits.eq_nil_or_concat with rfl | ⟨init, d, rfl⟩
  · simp [hzero]
  · have hd : d < base := hdigits d (by simp)
    have hle := numeral_mono hbase.le (le_refl 0) init
    rw [List.concat_eq_append, numeral_concat, numeral_concat]
    rcases Nat.eq_zero_or_pos (numeral base' 0 init) with hinit | hinit
    · rw [hinit] at hle ⊢
      rw [Nat.le_zero.mp hle]
      simp [hd]
    · have hlt : numeral base 0 init * base < numeral base' 0 init * base' := by
        calc
          numeral base 0 init * base ≤ numeral base' 0 init * base := Nat.mul_le_mul_right _ hle
          _ < numeral base' 0 init * base' := Nat.mul_lt_mul_of_pos_left hbase hinit
      have hlarge : base' ≤ numeral base' 0 init * base' := Nat.le_mul_of_pos_left _ hinit
      constructor
      · intro heq
        omega
      · intro hsmall
        omega

example : hexDecode (hexEncode [0, 171] ++ 48 :: 58 :: []) = [0, 171] ∧ decimal 40 = [52, 48] := by
  decide

end Mdencode.Numerals
