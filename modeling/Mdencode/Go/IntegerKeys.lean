import Mdencode.Go.KeyList

/-! The integer seeds that `CreateHashListMap` of `mdHashContextList.go` makes of
keys. `ConvertString2Int` of `sigRand.go` reads a key as a Go integer, whose
prefix gives its base, and takes the value whether or not there was an error. -/

namespace Mdencode.Go

open Mdencode.Bytes Mdencode.Numerals

inductive NumError
  | errSyntax
  | errRange
  deriving DecidableEq

/-- `c | ('x' - 'X')`. -/
def lower (c : UInt8) : UInt8 := c ||| 32

def digitVal (c : UInt8) : Option ℕ :=
  if 48 ≤ c.toNat ∧ c.toNat ≤ 57 then some (c.toNat - 48)
  else if 97 ≤ (lower c).toNat ∧ (lower c).toNat ≤ 122 then some ((lower c).toNat - 97 + 10)
  else none

/-- The loop of `strconv.ParseUint` with 64 bits. -/
def parseDigits (base : ℕ) : ℕ → List UInt8 → ℕ × Option NumError
  | n, [] => (n, none)
  | n, c :: rest =>
    match digitVal c with
    | none => (0, some .errSyntax)
    | some d =>
      if base ≤ d then (0, some .errSyntax)
      else if (2 ^ 64 - 1) / base + 1 ≤ n then (2 ^ 64 - 1, some .errRange)
      else if 2 ^ 64 ≤ n * base + d then (2 ^ 64 - 1, some .errRange)
      else parseDigits base (n * base + d) rest

/-- `strconv.ParseUint(s, 0, 64)`. A key has no underscores, which base 0 would
allow between the digits. -/
def parseUint : List UInt8 → ℕ × Option NumError
  | [] => (0, some .errSyntax)
  | 48 :: c :: d :: rest =>
    if lower c = 98 then parseDigits 2 0 (d :: rest)
    else if lower c = 111 then parseDigits 8 0 (d :: rest)
    else if lower c = 120 then parseDigits 16 0 (d :: rest)
    else parseDigits 8 0 (c :: d :: rest)
  | 48 :: rest => parseDigits 8 0 rest
  | c :: rest => parseDigits 10 0 (c :: rest)

def convertString2Int (decString : List UInt8) : ℕ := (parseUint decString).1

/-- The hashes that `CreateHashListMap` seeds with `ConvertString2Int`, and the
keys it reads for each. -/
def seedKeys : List (String × List String) :=
  [("aes8", ["aes8"]), ("ax", ["ax1", "ax2"]), ("ct64", ["ct64"]), ("fh32", ["fh32"]),
    ("fh64", ["fh64"]), ("jn64", ["jn64"]), ("mar32", ["mar32"]), ("me32", ["me32"]),
    ("me64", ["me64"]), ("me128", ["me128"]), ("met64", ["met64"]), ("murmur3", ["murmur3"]),
    ("spk32", ["spk32"]), ("spk64", ["spk64"]), ("t1ha", ["t1ha"]), ("xxhash", ["xxhash"]),
    ("wy", ["wy"])]

/-- The seeds of a hash; a key that is not in the map is an empty string. -/
def createSeeds (keylist : KeyMap) (keys : List String) : List ℕ :=
  keys.map fun key => convertString2Int ((keylist (ascii key)).getD [])

/-! What a key is meant to be -/

def hexDigits (value : List UInt8) : List ℕ := value.map fun c => (hexValue c).getD 0

/-- The number that hexadecimal digits denote. -/
def hexNumber (value : List UInt8) : ℕ := numeral 16 0 (hexDigits value)

/-- The value that a key list gives for a name, which is the last one. -/
def givenKey (keylist name : List UInt8) : Option (List UInt8) :=
  ((keylist.splitOn 44).filterMap fun val =>
    match val.splitOn 58 with
    | [sig, sigkey] => if sig = name then some sigkey else none
    | _ => none).getLast?

/-! What the parser makes of hexadecimal digits -/

theorem digitVal_of_isXdigit {c : UInt8} (h : isXdigit c = true) :
    digitVal c = some ((hexValue c).getD 0) := by
  have hall : ∀ n < 256, isXdigit (UInt8.ofNat n) = true →
      digitVal (UInt8.ofNat n) = some ((hexValue (UInt8.ofNat n)).getD 0) := by
    decide +kernel
  rw [← UInt8.ofNat_toNat (x := c)] at h ⊢
  exact hall c.toNat c.toNat_lt h

/-- A number that fits 64 bits in base 16 is read in a smaller base if its digits
are digits there, and is 0 otherwise. -/
theorem parseDigits_eq {base : ℕ} (hpos : 0 < base) (hbase : base ≤ 16) {text : List UInt8}
    (hdigits : text.all isXdigit = true) {n : ℕ} (hlt : numeral 16 n (hexDigits text) < 2 ^ 64) :
    (parseDigits base n text).1 =
      if ∀ d ∈ hexDigits text, d < base then numeral base n (hexDigits text) else 0 := by
  induction text generalizing n with
  | nil => simp [parseDigits, hexDigits]
  | cons c text ih =>
    rw [List.all_cons, Bool.and_eq_true] at hdigits
    set d := (hexValue c).getD 0 with hd
    have hcons : hexDigits (c :: text) = d :: hexDigits text := rfl
    rw [hcons, numeral_cons] at hlt
    rw [parseDigits, digitVal_of_isXdigit hdigits.1, ← hd, hcons]
    dsimp only
    have hstep : n * base + d ≤ n * 16 + d := Nat.add_le_add_right (Nat.mul_le_mul_left n hbase) d
    have hnumeral := numeral_mono (le_refl 16) hstep (hexDigits text)
    have hfit := le_numeral (n := n * 16 + d) (by norm_num : 0 < 16) (hexDigits text)
    have hquotient : n ≤ (2 ^ 64 - 1) / base := by
      rw [Nat.le_div_iff_mul_le hpos]
      omega
    split_ifs with hlarge hall hover hall hover' hall hall
    · exact absurd (hall d List.mem_cons_self) (not_lt.mpr hlarge)
    · rfl
    · omega
    · omega
    · omega
    · omega
    · rw [ih hdigits.2 (hnumeral.trans_lt hlt),
        if_pos fun e he => hall e (List.mem_cons_of_mem _ he), numeral_cons]
    · rw [ih hdigits.2 (hnumeral.trans_lt hlt), if_neg]
      intro hrest
      apply hall
      intro e he
      rcases List.mem_cons.mp he with rfl | he
      · exact not_le.mp hlarge
      · exact hrest e he

theorem parseDigits_le {base : ℕ} (hpos : 0 < base) (hbase : base ≤ 16) {text : List UInt8}
    (hdigits : text.all isXdigit = true) (hlt : hexNumber text < 2 ^ 64) :
    (parseDigits base 0 text).1 ≤ hexNumber text := by
  rw [parseDigits_eq hpos hbase hdigits hlt]
  split_ifs
  · exact numeral_mono hbase le_rfl _
  · exact Nat.zero_le _

/-- A smaller base gives the number only when it is a single digit there. -/
theorem parseDigits_eq_iff {base : ℕ} (hpos : 0 < base) (hbase : base < 16) {text : List UInt8}
    (hdigits : text.all isXdigit = true) (hlt : hexNumber text < 2 ^ 64) :
    (parseDigits base 0 text).1 = hexNumber text ↔ hexNumber text < base := by
  rw [parseDigits_eq hpos hbase.le hdigits hlt]
  split_ifs with hall
  · exact numeral_eq_numeral_iff hpos hbase hall
  · constructor
    · intro hzero
      omega
    · intro hsmall
      refine absurd (fun d hd => ?_) hall
      exact (le_numeral_of_mem (by norm_num) hd).trans_lt hsmall

theorem hexNumber_cons (c : UInt8) (text : List UInt8) :
    hexNumber (c :: text) = numeral 16 ((hexValue c).getD 0) (hexDigits text) := by
  rw [hexNumber, hexDigits, List.map_cons, numeral_cons, Nat.zero_mul, Nat.zero_add]
  rfl

/-- The prefix `0b` is two hexadecimal digits. -/
theorem hexNumber_lt_binary {c : UInt8} (hc : lower c = 98) (hdigit : isXdigit c = true)
    (text : List UInt8) : hexNumber text + 11 ≤ hexNumber (48 :: c :: text) := by
  have hvalue : (hexValue c).getD 0 = 11 := by
    have hall : ∀ n < 256, isXdigit (UInt8.ofNat n) = true → lower (UInt8.ofNat n) = 98 →
        (hexValue (UInt8.ofNat n)).getD 0 = 11 := by
      decide +kernel
    rw [← UInt8.ofNat_toNat (x := c)] at hc hdigit ⊢
    exact hall c.toNat c.toNat_lt hdigit hc
  have hsum (n k : ℕ) (digits : List ℕ) :
      numeral 16 n digits + k ≤ numeral 16 (n + k) digits := by
    induction digits generalizing n k with
    | nil => exact le_rfl
    | cons d digits ih =>
      calc
        numeral 16 (n * 16 + d) digits + k ≤ numeral 16 (n * 16 + d) digits + 16 * k := by omega
        _ ≤ numeral 16 (n * 16 + d + 16 * k) digits := ih _ _
        _ = numeral 16 ((n + k) * 16 + d) digits := by congr 1; ring
  have hbinary : hexNumber (48 :: c :: text) = numeral 16 (0 + 11) (hexDigits text) := by
    rw [hexNumber_cons, hexDigits, List.map_cons, numeral_cons, hvalue]
    rfl
  rw [hbinary]
  exact hsum 0 11 (hexDigits text)

/-- No other prefix is made of hexadecimal digits. -/
theorem lower_of_isXdigit {c : UInt8} (h : isXdigit c = true) : lower c ≠ 111 ∧ lower c ≠ 120 := by
  have hall : ∀ n < 256, isXdigit (UInt8.ofNat n) = true →
      lower (UInt8.ofNat n) ≠ 111 ∧ lower (UInt8.ofNat n) ≠ 120 := by
    decide +kernel
  rw [← UInt8.ofNat_toNat (x := c)] at h ⊢
  exact hall c.toNat c.toNat_lt h

/-- A key is read as the hexadecimal number it is only below 8, or below 10 when
no zero stands before the digit. -/
theorem convertString2Int_eq_iff {value : List UInt8} (hne : value ≠ [])
    (hdigits : value.all isXdigit = true) (hlt : hexNumber value < 2 ^ 64) :
    convertString2Int value = hexNumber value ↔
      hexNumber value < 8 ∨ hexNumber value < 10 ∧ value.head? ≠ some 48 := by
  have hoctal {text : List UInt8} (hzero : value = 48 :: text) :
      (parseDigits 8 0 text).1 = hexNumber value ↔
        hexNumber value < 8 ∨ hexNumber value < 10 ∧ value.head? ≠ some 48 := by
    subst hzero
    have hsame : hexNumber (48 :: text) = hexNumber text := hexNumber_cons 48 text
    rw [hsame] at hlt ⊢
    rw [List.all_cons, Bool.and_eq_true] at hdigits
    rw [parseDigits_eq_iff (by norm_num) (by norm_num) hdigits.2 hlt]
    simp
  unfold convertString2Int parseUint
  split
  · exact absurd rfl hne
  · rename_i c d rest
    simp only [List.all_cons, Bool.and_eq_true] at hdigits
    obtain ⟨-, hc, hd, hrest⟩ := hdigits
    obtain ⟨ho, hx⟩ := lower_of_isXdigit hc
    rw [if_neg ho, if_neg hx]
    split_ifs with hb
    · have hlarge := hexNumber_lt_binary hb hc (d :: rest)
      have hle : (parseDigits 2 0 (d :: rest)).1 ≤ hexNumber (d :: rest) := by
        apply parseDigits_le (by norm_num) (by norm_num)
        · simp [hd, hrest]
        · omega
      constructor
      · intro heq
        omega
      · rintro (hsmall | ⟨hsmall, -⟩) <;> omega
    · exact hoctal rfl
  · exact hoctal rfl
  · rename_i c rest hzero hzero'
    have hhead : c ≠ 48 := fun heq => hzero' heq
    rw [parseDigits_eq_iff (by norm_num) (by norm_num) hdigits hlt]
    simp only [List.head?_cons, ne_eq, Option.some.injEq, hhead, not_false_eq_true, and_true]
    omega

/-! The keys that reach the hashes -/

/-- A plain key is the one that was given. -/
theorem setHashListKey_given {keylist name value : List UInt8} (hrule : keyRule name = some .plain)
    (hgiven : givenKey keylist name = some value) :
    (setHashListKey keylist).1 name = some value := by
  unfold givenKey at hgiven
  rw [setHashListKey_foldl]
  generalize keylist.splitOn 44 = vals at hgiven ⊢
  induction vals using List.reverseRecOn with
  | nil => cases hgiven
  | append_singleton vals val ih =>
    rw [List.foldl_append, List.foldl_cons, List.foldl_nil]
    rw [List.filterMap_append, List.filterMap_cons, List.filterMap_nil] at hgiven
    by_cases hval : ∃ sigkey, val.splitOn 58 = [name, sigkey]
    · obtain ⟨sigkey, hsplit⟩ := hval
      rw [hsplit] at hgiven
      dsimp only at hgiven
      rw [if_pos rfl, List.getLast?_concat, Option.some.injEq] at hgiven
      subst hgiven
      rw [setKey, hsplit]
      dsimp only
      rw [hrule]
      exact Function.update_self _ _ _
    · rw [setKey_of_ne (not_exists.mp hval)]
      apply ih
      split at hgiven
      · simpa using hgiven
      · rename_i sigkey hmatch
        split at hmatch
        · rename_i sig key hsplit
          split_ifs at hmatch with hsig
          exact absurd ⟨key, hsig ▸ hsplit⟩ hval
        · cases hmatch

/-- What the pattern lets through. -/
theorem givenKey_xdigits {keylist name value : List UInt8} (h : keylistMatches keylist = true)
    (hgiven : givenKey keylist name = some value) :
    value ≠ [] ∧ value.all isXdigit = true := by
  have hmem := List.mem_of_getLast? hgiven
  obtain ⟨val, hval, hmatch⟩ := List.mem_filterMap.mp hmem
  split at hmatch
  · rename_i sig sigkey hsplit
    split_ifs at hmatch
    obtain rfl := Option.some.inj hmatch
    rcases keyMatches_of_mem h hval with rfl | hkey
    · rw [List.splitOn_nil] at hsplit
      cases hsplit
    · rw [keyMatches, hsplit] at hkey
      simp only [Bool.and_eq_true, decide_eq_true_iff] at hkey
      exact ⟨hkey.1.2, hkey.2⟩
  · cases hmatch

theorem keyRule_seedKeys : ∀ row ∈ seedKeys, ∀ key ∈ row.2,
    if key = "met64" then keyRule (ascii key) = none else keyRule (ascii key) = some .plain := by
  decide +kernel

theorem setKey_of_unruled {name : List UInt8} (hrule : keyRule name = none)
    (s : KeyMap × List UInt8) (val : List UInt8) : (setKey s val).1 name = s.1 name := by
  rw [setKey]
  split
  · rename_i sig sigkey hsplit
    split
    · rename_i rule hrule'
      have hne : name ≠ sig := by
        rintro rfl
        rw [hrule] at hrule'
        cases hrule'
      rw [KeyRule.assign]
      split
      · exact Function.update_of_ne hne _ _
      · rfl
    · rfl
  · rfl

/-- A name without a case in the `switch` keeps its default. -/
theorem setHashListKey_unruled {keylist name : List UInt8} (hrule : keyRule name = none) :
    (setHashListKey keylist).1 name = defaultKeylist name := by
  have hrun (vals : List (List UInt8)) (s : KeyMap × List UInt8) :
      (vals.foldl setKey s).1 name = s.1 name := by
    induction vals generalizing s with
    | nil => rfl
    | cons val vals ih => rw [List.foldl_cons, ih, setKey_of_unruled hrule]
  exact hrun _ _

/-- A given key is the number that its digits denote only when it is a single
octal digit, or a decimal one without a zero before it. The key of `met64` is
never taken from the list. -/
theorem seed_eq_iff {keylist value : List UInt8} (h : keylistMatches keylist = true)
    {row : String × List String} (hrow : row ∈ seedKeys) {i : ℕ} {key : String}
    (hkey : row.2[i]? = some key) (hgiven : givenKey keylist (ascii key) = some value)
    (hlt : hexNumber value < 2 ^ 64) :
    (createSeeds (setHashListKey keylist).1 row.2)[i]? = some (hexNumber value) ↔
      if key = "met64" then hexNumber value = 7319920322
      else hexNumber value < 8 ∨ hexNumber value < 10 ∧ value.head? ≠ some 48 := by
  have hrule := keyRule_seedKeys row hrow key (List.mem_of_getElem? hkey)
  obtain ⟨hne, hdigits⟩ := givenKey_xdigits h hgiven
  rw [createSeeds, List.getElem?_map, hkey, Option.map_some, Option.some.injEq]
  split_ifs at hrule ⊢ with hmet
  · subst hmet
    have hdefault : convertString2Int ((defaultKeylist (ascii "met64")).getD []) = 7319920322 := by
      decide +kernel
    rw [setHashListKey_unruled hrule, hdefault, eq_comm]
  · rw [setHashListKey_given hrule hgiven, Option.getD_some]
    exact convertString2Int_eq_iff hne hdigits hlt

theorem seed_eq_iff_nine : keylistMatches (ascii "aes8:9") = true ∧
    ("aes8", ["aes8"]) ∈ seedKeys ∧ givenKey (ascii "aes8:9") (ascii "aes8") = some (ascii "9") ∧
    hexNumber (ascii "9") < 2 ^ 64 ∧
    (createSeeds (setHashListKey (ascii "aes8:9")).1 ["aes8"])[0]? = some (hexNumber (ascii "9")) :=
  have hmatches : keylistMatches (ascii "aes8:9") = true := by decide +kernel
  have hrow : ("aes8", ["aes8"]) ∈ seedKeys := by decide
  have hgiven : givenKey (ascii "aes8:9") (ascii "aes8") = some (ascii "9") := by decide +kernel
  have hlt : hexNumber (ascii "9") < 2 ^ 64 := by decide +kernel
  have hcondition : if "aes8" = "met64" then hexNumber (ascii "9") = 7319920322
      else hexNumber (ascii "9") < 8 ∨ hexNumber (ascii "9") < 10 ∧
        (ascii "9").head? ≠ some 48 := by decide +kernel
  ⟨hmatches, hrow, hgiven, hlt,
    (seed_eq_iff (i := 0) hmatches hrow (by decide) hgiven hlt).mpr hcondition⟩

/-- The keys `fe` and `ff` both give the seed 0. -/
theorem letters_give_zero :
    keylistMatches (ascii "aes8:ff") = true ∧ keylistMatches (ascii "aes8:fe") = true ∧
    givenKey (ascii "aes8:ff") (ascii "aes8") = some (ascii "ff") ∧
    hexNumber (ascii "ff") = 255 ∧ hexNumber (ascii "fe") = 254 ∧
    createSeeds (setHashListKey (ascii "aes8:ff")).1 ["aes8"] = [0] ∧
    createSeeds (setHashListKey (ascii "aes8:fe")).1 ["aes8"] = [0] := by
  decide +kernel

end Mdencode.Go
