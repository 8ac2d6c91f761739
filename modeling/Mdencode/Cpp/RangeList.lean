import Mdencode.Cpp.SetRange

/-! `splitRange` of `setRange.h` against its grammar, with the loops and the
`int`s they count with. The loop over an ascending range counts one past its
end, which the largest `int` has nothing behind. -/

namespace Mdencode.Cpp.SetRange

open Mdencode.Bytes Mdencode.Separated

/-- `for (number = start; number <= end; number++) intvals.push_back(number);` -/
def pushAscending (stop number : ℤ) (intvals : List ℤ) : Except Trap (List ℤ) :=
  if number ≤ stop then
    if number = 2 ^ 31 - 1 then .error .signedOverflow
    else pushAscending stop (number + 1) (intvals ++ [number])
  else .ok intvals
termination_by (stop + 1 - number).toNat

/-- `for (number = start; number >= end; number--) intvals.push_back(number);`
The end is not negative, so that `number` stays an `int`. -/
def pushDescending (stop number : ℤ) (intvals : List ℤ) : List ℤ :=
  if stop ≤ number then pushDescending stop (number - 1) (intvals ++ [number]) else intvals
termination_by (number + 1 - stop).toNat

/-- The body of the loop over the tokens. False when it has returned false. -/
def splitToken (signum : ℤ) (pnum : List UInt8) (intvals : List ℤ) :
    Except Trap (Bool × List ℤ) :=
  if isNumber pnum then
    match stoi pnum with
    | none => .ok (false, intvals)
    | some number =>
      if number > signum then .ok (false, intvals) else .ok (true, intvals ++ [number])
  else if isNumberRange pnum then
    match fields 45 pnum with
    | [first, second] =>
      match stoi first, stoi second with
      | some start, some stop =>
        if start > signum ∨ stop > signum then .ok (false, intvals)
        else if start < stop then do
          let intvals ← pushAscending stop start intvals
          .ok (true, intvals)
        else if start > stop then .ok (true, pushDescending stop start intvals)
        else .ok (true, intvals ++ [start])
      | _, _ => .ok (false, intvals)
    | _ => .ok (true, intvals)
  else .ok (false, intvals)

/-- The loop over the tokens from `tk` on, which is an `int` too. -/
def splitRange (signum : ℤ) : ℕ → List (List UInt8) → List ℤ → Except Trap (Bool × List ℤ)
  | _, [], intvals => .ok (true, intvals)
  | tk, pnum :: tokenlist, intvals => do
    let (accepted, intvals) ← splitToken signum pnum intvals
    if accepted = false then .ok (false, intvals)
    else if tk = 2 ^ 31 - 1 then .error .signedOverflow
    else splitRange signum (tk + 1) tokenlist intvals

/-! The grammar -/

/-- `a..b`, downwards when `a` is the larger. -/
def expansion (a b : ℕ) : List ℕ :=
  if a ≤ b then List.range' a (b + 1 - a) else (List.range' b (a + 1 - b)).reverse

/-- A numeral of an `int` that is in bounds. -/
structure InBounds (signum : ℤ) (digits : List UInt8) : Prop where
  isNumber : isNumber digits = true
  lt : numberOf digits < 2 ^ 31
  le : (numberOf digits : ℤ) ≤ signum

/-- The tokens and what they stand for. -/
inductive Conforms (signum : ℤ) : List UInt8 → List ℕ → Prop
  | number {digits : List UInt8} :
      InBounds signum digits → Conforms signum digits [numberOf digits]
  | range {first second : List UInt8} :
      InBounds signum first → InBounds signum second →
        Conforms signum (first ++ 45 :: second) (expansion (numberOf first) (numberOf second))

/-- An ascending range that ends with the largest `int`. -/
inductive Overruns (signum : ℤ) : List UInt8 → Prop
  | range {first second : List UInt8} :
      InBounds signum first → InBounds signum second → numberOf first < numberOf second →
        numberOf second = 2 ^ 31 - 1 → Overruns signum (first ++ 45 :: second)

/-- The whole list conforms exactly when true is returned, and then its
expansion is behind what the vector held. -/
def Parses (signum : ℤ) (tokenlist : List (List UInt8)) (intvals : List ℤ) : Prop :=
  ∃ accepted out, splitRange signum 0 tokenlist intvals = .ok (accepted, out) ∧
    (accepted = true ↔ ∃ values, List.Forall₂ (Conforms signum) tokenlist values) ∧
    ∀ values, List.Forall₂ (Conforms signum) tokenlist values →
      out = intvals ++ values.flatten.map (↑)

/-- Behind tokens that conform there is none that overruns, and they are not too
many to count. -/
def Within (signum : ℤ) (tk : ℕ) (tokenlist : List (List UInt8)) : Prop :=
  ∀ before after values, tokenlist = before ++ after →
    List.Forall₂ (Conforms signum) before values →
      tk + before.length < 2 ^ 31 ∧ ∀ pnum ∈ after.head?, ¬ Overruns signum pnum

/-! The loops over a range -/

theorem pushAscending_eq {a b : ℕ} (hb : b < 2 ^ 31 - 1) (intvals : List ℤ) :
    pushAscending b a intvals = .ok (intvals ++ (List.range' a (b + 1 - a)).map (↑)) := by
  induction hk : b + 1 - a generalizing a intvals with
  | zero =>
    rw [pushAscending, if_neg (by omega)]
    simp
  | succ k ih =>
    have hnext := @ih (a + 1) (intvals ++ [(a : ℤ)]) (by omega)
    push_cast at hnext
    rw [pushAscending, if_pos (by omega), if_neg (by omega), hnext, List.range'_succ]
    simp

theorem pushAscending_max {a : ℕ} (ha : a ≤ 2 ^ 31 - 1) (intvals : List ℤ) :
    pushAscending (2 ^ 31 - 1) a intvals = .error .signedOverflow := by
  induction hk : 2 ^ 31 - 1 - a generalizing a intvals with
  | zero => rw [pushAscending, if_pos (by omega), if_pos (by omega)]
  | succ k ih =>
    have hnext := @ih (a + 1) (by omega) (intvals ++ [(a : ℤ)]) (by omega)
    rw [Nat.cast_succ] at hnext
    rw [pushAscending, if_pos (by omega), if_neg (by omega), hnext]

/-- From the other end, `k` numbers down to `b`. -/
theorem pushDescending_eq (b k : ℕ) (intvals : List ℤ) :
    pushDescending b (b + k - 1) intvals =
      intvals ++ (List.range' b k).reverse.map (↑) := by
  induction k generalizing intvals with
  | zero =>
    rw [pushDescending, if_neg (by omega)]
    simp
  | succ k ih =>
    have hnumber : (b : ℤ) + (k + 1 : ℕ) - 1 = b + k := by omega
    rw [pushDescending, if_pos (by omega), hnumber, ih, List.range'_1_concat, List.reverse_append]
    simp

/-! One token -/

section
variable {signum : ℤ} {pnum first second : List UInt8} {values : List ℕ}

theorem stoi_of_lt {digits : List UInt8} (h : numberOf digits < 2 ^ 31) :
    stoi digits = some (numberOf digits : ℤ) := if_pos h

theorem not_mem_of_isNumber {digits : List UInt8} (h : isNumber digits = true) : 45 ∉ digits :=
  fun hmem => absurd ((isNumber_iff.mp h).2 45 hmem).1 (by decide)

/-- A pair of numbers is read as one. -/
theorem isNumberRange_append (hfirst : isNumber first = true) (hsecond : isNumber second = true) :
    isNumber (first ++ 45 :: second) = false ∧ isNumberRange (first ++ 45 :: second) = true ∧
      fields 45 (first ++ 45 :: second) = [first, second] := by
  have hnot := not_mem_of_isNumber hfirst
  refine ⟨?_, ?_, ?_⟩
  · rw [← Bool.not_eq_true]
    exact fun h => not_mem_of_isNumber h (by simp)
  · have hall : ∀ c ∈ first, decide (c ≠ 45) = true := fun c hc =>
      decide_eq_true fun heq => hnot (heq ▸ hc)
    rw [isNumberRange, List.takeWhile_append_of_pos hall, List.dropWhile_append_of_pos hall]
    simp [hfirst, hsecond]
  · rw [fields_append_delim hnot, fields_eq_singleton (not_mem_of_isNumber hsecond)
      (isNumber_iff.mp hsecond).1]

theorem splitToken_of_overruns (h : Overruns signum pnum) (intvals : List ℤ) :
    splitToken signum pnum intvals = .error .signedOverflow := by
  obtain ⟨hfirst, hsecond, hlt, hmax⟩ := h
  rename_i first second
  obtain ⟨hnumber, hrange, hfields⟩ := isNumberRange_append hfirst.isNumber hsecond.isNumber
  have hend : (numberOf second : ℤ) = 2 ^ 31 - 1 := by omega
  have hle := hsecond.le
  rw [splitToken, if_neg (by simp [hnumber]), if_pos hrange, hfields]
  dsimp only
  rw [stoi_of_lt hfirst.lt, stoi_of_lt hsecond.lt]
  dsimp only
  rw [if_neg (by omega), if_pos (by omega), hend, pushAscending_max (by omega)]
  rfl

theorem splitToken_of_conforms (h : Conforms signum pnum values) (hover : ¬ Overruns signum pnum)
    (intvals : List ℤ) :
    splitToken signum pnum intvals = .ok (true, intvals ++ values.map (↑)) := by
  cases h with
  | number hdigits =>
    rw [splitToken, if_pos hdigits.isNumber, stoi_of_lt hdigits.lt]
    dsimp only
    rw [if_neg (Int.not_lt.mpr hdigits.le)]
    rfl
  | @range first second hfirst hsecond =>
    obtain ⟨hnumber, hrange, hfields⟩ := isNumberRange_append hfirst.isNumber hsecond.isNumber
    have hle := hfirst.le
    have hle' := hsecond.le
    have hlt := hsecond.lt
    rw [splitToken, if_neg (by simp [hnumber]), if_pos hrange, hfields]
    dsimp only
    rw [stoi_of_lt hfirst.lt, stoi_of_lt hsecond.lt]
    dsimp only
    rw [if_neg (by omega), expansion]
    rcases lt_trichotomy (numberOf first) (numberOf second) with hcmp | hcmp | hcmp
    · have hend : numberOf second < 2 ^ 31 - 1 := by
        by_contra hge
        exact hover (.range hfirst hsecond hcmp (by omega))
      rw [if_pos (by omega), pushAscending_eq hend, if_pos hcmp.le]
      rfl
    · rw [if_neg (by omega), if_neg (by omega), if_pos hcmp.le, hcmp]
      simp
    · have hcount : (numberOf first : ℤ) =
          numberOf second + (numberOf first + 1 - numberOf second : ℕ) - 1 := by omega
      rw [if_neg (by omega), if_pos (by omega), if_neg (by omega)]
      nth_rewrite 1 [hcount]
      rw [pushDescending_eq]

theorem stoi_eq_none {digits : List UInt8} (h : ¬ numberOf digits < 2 ^ 31) :
    stoi digits = none := if_neg h

theorem splitToken_of_not_conforms (h : ∀ values, ¬ Conforms signum pnum values)
    (intvals : List ℤ) : splitToken signum pnum intvals = .ok (false, intvals) := by
  unfold splitToken
  split_ifs with hnumber hrange
  · by_cases hlt : numberOf pnum < 2 ^ 31
    · rw [stoi_of_lt hlt]
      exact if_pos (Int.not_le.mp fun hle => h _ (.number ⟨hnumber, hlt, hle⟩))
    · rw [stoi_eq_none hlt]
  · obtain ⟨first, second, rfl, hfields, hfirst, hsecond⟩ := exists_of_isNumberRange hrange
    rw [hfields]
    dsimp only
    by_cases hlt : numberOf first < 2 ^ 31
    · by_cases hlt' : numberOf second < 2 ^ 31
      · rw [stoi_of_lt hlt, stoi_of_lt hlt']
        apply if_pos
        by_contra hle
        exact h _ (.range ⟨hfirst, hlt, by omega⟩ ⟨hsecond, hlt', by omega⟩)
      · rw [stoi_of_lt hlt, stoi_eq_none hlt']
    · rw [stoi_eq_none hlt]
  · rfl

/-- A token that overruns is one of the grammar. -/
theorem Overruns.conforms (h : Overruns signum pnum) : ∃ values, Conforms signum pnum values := by
  obtain ⟨hfirst, hsecond, -, -⟩ := h
  exact ⟨_, .range hfirst hsecond⟩

end

/-! The list -/

section
variable {signum : ℤ} {pnum : List UInt8} {tokenlist : List (List UInt8)} {tk : ℕ}

theorem within_nil (htk : tk < 2 ^ 31) : Within signum tk [] := by
  intro before after values hsplit _
  obtain ⟨rfl, rfl⟩ := List.append_eq_nil_iff.mp hsplit.symm
  exact ⟨htk, by simp⟩

theorem within_cons_iff (htk : tk < 2 ^ 31) :
    Within signum tk (pnum :: tokenlist) ↔
      ¬ Overruns signum pnum ∧
        ((∃ values, Conforms signum pnum values) → Within signum (tk + 1) tokenlist) := by
  constructor
  · intro h
    refine ⟨(h [] (pnum :: tokenlist) [] rfl .nil).2 pnum rfl, ?_⟩
    rintro ⟨first, hfirst⟩ before after values rfl hbefore
    obtain ⟨hlt, hhead⟩ := h (pnum :: before) after (first :: values) rfl (.cons hfirst hbefore)
    rw [List.length_cons] at hlt
    exact ⟨by omega, hhead⟩
  · rintro ⟨hover, hrest⟩ before after values hsplit hbefore
    cases hbefore with
    | nil =>
      rw [List.nil_append] at hsplit
      subst hsplit
      refine ⟨htk, fun other hother => ?_⟩
      obtain rfl := Option.some.inj hother
      exact hover
    | cons hfirst hbefore =>
      obtain ⟨rfl, rfl⟩ := List.cons.inj hsplit
      obtain ⟨hlt, hhead⟩ := hrest ⟨_, hfirst⟩ _ after _ rfl hbefore
      rw [List.length_cons]
      exact ⟨by omega, hhead⟩

/-- The loop comes to its end over the lists within. -/
theorem splitRange_isOk_iff (htk : tk < 2 ^ 31) (intvals : List ℤ) :
    (∃ result, splitRange signum tk tokenlist intvals = .ok result) ↔
      Within signum tk tokenlist := by
  induction tokenlist generalizing tk intvals with
  | nil => exact iff_of_true ⟨_, rfl⟩ (within_nil htk)
  | cons pnum tokenlist ih =>
    rw [within_cons_iff htk, splitRange]
    by_cases hover : Overruns signum pnum
    · rw [splitToken_of_overruns hover]
      exact iff_of_false (fun ⟨_, h⟩ => by cases h) fun h => h.1 hover
    · by_cases hconforms : ∃ values, Conforms signum pnum values
      · obtain ⟨values, hvalues⟩ := hconforms
        rw [splitToken_of_conforms hvalues hover, ok_bind]
        dsimp only
        rw [if_neg (by simp)]
        split_ifs with hlast
        · refine iff_of_false (fun ⟨_, h⟩ => by cases h) fun h => ?_
          have hlt := (h.2 ⟨values, hvalues⟩ [] tokenlist [] rfl .nil).1
          rw [List.length_nil] at hlt
          omega
        · rw [ih (by omega)]
          exact ⟨fun h => ⟨hover, fun _ => h⟩, fun h => h.2 ⟨values, hvalues⟩⟩
      · rw [splitToken_of_not_conforms (not_exists.mp hconforms), ok_bind]
        exact iff_of_true ⟨_, if_pos rfl⟩ ⟨hover, fun h => absurd h hconforms⟩

/-- What comes out at its end. -/
theorem splitRange_spec {intvals out : List ℤ} {accepted : Bool}
    (h : splitRange signum tk tokenlist intvals = .ok (accepted, out)) :
    (accepted = true ↔ ∃ values, List.Forall₂ (Conforms signum) tokenlist values) ∧
      ∀ values, List.Forall₂ (Conforms signum) tokenlist values →
        out = intvals ++ values.flatten.map (↑) := by
  induction tokenlist generalizing tk intvals with
  | nil =>
    obtain ⟨rfl, rfl⟩ := Prod.mk.inj (Except.ok.inj h)
    refine ⟨iff_of_true rfl ⟨[], .nil⟩, ?_⟩
    rintro values ⟨⟩
    simp
  | cons pnum tokenlist ih =>
    rw [splitRange] at h
    by_cases hover : Overruns signum pnum
    · rw [splitToken_of_overruns hover] at h
      cases h
    · by_cases hconforms : ∃ values, Conforms signum pnum values
      · obtain ⟨first, hfirst⟩ := hconforms
        have hstep (values : List ℕ) (hvalues : Conforms signum pnum values) :=
          splitToken_of_conforms hvalues hover intvals
        rw [hstep first hfirst, ok_bind] at h
        dsimp only at h
        rw [if_neg (by simp)] at h
        split_ifs at h
        obtain ⟨haccepted, hout⟩ := ih h
        refine ⟨?_, ?_⟩
        · rw [haccepted]
          constructor
          · rintro ⟨values, hvalues⟩
            exact ⟨first :: values, .cons hfirst hvalues⟩
          · rintro ⟨values, hvalues⟩
            cases hvalues with
            | cons _ hrest => exact ⟨_, hrest⟩
        · intro values hvalues
          cases hvalues with
          | @cons _ other _ values hother hrest =>
            have hsame := (hstep first hfirst).symm.trans (hstep other hother)
            rw [Except.ok.injEq, Prod.mk.injEq] at hsame
            rw [hout values hrest, hsame.2, List.flatten_cons, List.map_append, List.append_assoc]
      · rw [splitToken_of_not_conforms (not_exists.mp hconforms), ok_bind] at h
        dsimp only at h
        rw [if_pos rfl, Except.ok.injEq, Prod.mk.injEq] at h
        obtain ⟨rfl, -⟩ := h
        refine ⟨iff_of_false (by simp) ?_, ?_⟩
        · rintro ⟨values, hvalues⟩
          cases hvalues with
          | cons hfirst _ => exact hconforms ⟨_, hfirst⟩
        · intro values hvalues
          cases hvalues with
          | cons hfirst _ => exact absurd ⟨_, hfirst⟩ hconforms

end

/-! The lists that `main` takes -/

theorem rangeNumbers_natCast (a b : ℕ) : rangeNumbers a b = (expansion a b).map (↑) := by
  unfold rangeNumbers expansion
  rcases lt_trichotomy a b with hcmp | rfl | hcmp
  · have hcount : ((b : ℤ) - a + 1).toNat = b + 1 - a := by omega
    rw [if_pos (by omega), if_pos hcmp.le, List.range'_eq_map_range, List.map_map, hcount]
    exact List.map_congr_left fun k _ => by simp
  · simp
  · have hcount : ((a : ℤ) - b + 1).toNat = a + 1 - b := by omega
    rw [if_neg (by omega), if_pos (by omega), if_neg (by omega), List.reverse_range', List.map_map,
      hcount]
    apply List.map_congr_left
    intro k hk
    rw [List.mem_range] at hk
    dsimp only [Function.comp]
    omega

section
variable {signum : ℤ} {pnum : List UInt8} {values : List ℕ}

theorem Conforms.splitToken_eq (h : Conforms signum pnum values) :
    Cpp.splitToken signum pnum = some (values.map (↑)) := by
  cases h with
  | number hdigits =>
    rw [Cpp.splitToken, if_pos hdigits.isNumber, stoi_of_lt hdigits.lt, Option.bind_some,
      if_neg (Int.not_lt.mpr hdigits.le)]
    rfl
  | range hfirst hsecond =>
    obtain ⟨hnumber, hrange, hfields⟩ := isNumberRange_append hfirst.isNumber hsecond.isNumber
    have hle := hfirst.le
    have hle' := hsecond.le
    rw [Cpp.splitToken, if_neg (by simp [hnumber]), if_pos hrange, hfields]
    dsimp only
    rw [stoi_of_lt hfirst.lt, stoi_of_lt hsecond.lt, Option.bind_some, Option.bind_some,
      if_neg (by omega), rangeNumbers_natCast]

/-- The model without the counters takes the lists of the grammar. -/
theorem splitRange_of_conforms {tokenlist : List (List UInt8)} {values : List (List ℕ)}
    (h : List.Forall₂ (Conforms signum) tokenlist values) (intvals : List ℤ) :
    Cpp.splitRange signum tokenlist intvals = some (intvals ++ values.flatten.map (↑)) := by
  induction h generalizing intvals with
  | nil => simp [Cpp.splitRange]
  | cons hfirst _ ih =>
    rw [Cpp.splitRange, hfirst.splitToken_eq, Option.bind_some, ih]
    simp

/-- Where the loop accepts, both models give one list. -/
theorem splitRange_of_accepted {tokenlist : List (List UInt8)} {tk : ℕ} {intvals out : List ℤ}
    (h : splitRange signum tk tokenlist intvals = .ok (true, out)) :
    Cpp.splitRange signum tokenlist intvals = some out := by
  obtain ⟨haccepted, hout⟩ := splitRange_spec h
  obtain ⟨values, hvalues⟩ := haccepted.mp rfl
  rw [splitRange_of_conforms hvalues, hout values hvalues]

end

/-- The parser meets its grammar on every list but those on which it counts past
the largest `int`. -/
theorem parses_iff (signum : ℤ) (tokenlist : List (List UInt8)) (intvals : List ℤ) :
    Parses signum tokenlist intvals ↔ Within signum 0 tokenlist := by
  rw [← splitRange_isOk_iff (by norm_num) intvals]
  constructor
  · rintro ⟨accepted, out, h, -⟩
    exact ⟨_, h⟩
  · rintro ⟨⟨accepted, out⟩, h⟩
    exact ⟨accepted, out, h, splitRange_spec h⟩

/-- The two largest `int`s as a range. -/
theorem max_range_overflows :
    splitRange (2 ^ 31 - 1) 0 [ascii "2147483646-2147483647"] [] = .error .signedOverflow ∧
      ¬ ∀ signum tokenlist intvals, 0 ≤ signum → Parses signum tokenlist intvals := by
  have hover : Overruns (2 ^ 31 - 1) (ascii "2147483646-2147483647") := by
    have hfirst : InBounds (2 ^ 31 - 1) (ascii "2147483646") :=
      ⟨by decide, by decide, by decide⟩
    have hsecond : InBounds (2 ^ 31 - 1) (ascii "2147483647") :=
      ⟨by decide, by decide, by decide⟩
    exact .range hfirst hsecond (by decide) (by decide)
  have hrun : splitRange (2 ^ 31 - 1) 0 [ascii "2147483646-2147483647"] [] =
      .error .signedOverflow := by
    rw [splitRange, splitToken_of_overruns hover]
    rfl
  refine ⟨hrun, fun h => ?_⟩
  obtain ⟨accepted, out, hok, -⟩ := h (2 ^ 31 - 1) [ascii "2147483646-2147483647"] [] (by norm_num)
  rw [hrun] at hok
  cases hok

end Mdencode.Cpp.SetRange
