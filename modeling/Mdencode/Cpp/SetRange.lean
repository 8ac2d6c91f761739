import Mdencode.Cpp.RoundTrip
import Mdencode.Cpp.ValidateMdZip

/-! The tokens of a signature list on the command line of `mdzip`: what
`splitRange` of `setRange.h` makes of them, and the block hash list that
`main` hands on. -/

namespace Mdencode.Cpp

open Mdencode.Bytes Mdencode.Separated

def isDigit (c : UInt8) : Bool := decide (48 ≤ c.toNat ∧ c.toNat ≤ 57)

/-- `[0-9]+` -/
def isNumber (pnum : List UInt8) : Bool := !pnum.isEmpty && pnum.all isDigit

/-- `[0-9]+\-[0-9]+` -/
def isNumberRange (pnum : List UInt8) : Bool :=
  isNumber (pnum.takeWhile (· ≠ 45)) && isNumber ((pnum.dropWhile (· ≠ 45)).drop 1)

/-- The value of a row of digits. -/
def numberOf (digits : List UInt8) : ℕ :=
  digits.foldl (fun number c => 10 * number + (c.toNat - 48)) 0

/-- Throws when the number is no `int`. -/
def stoi (digits : List UInt8) : Option ℤ :=
  if numberOf digits < 2 ^ 31 then some (numberOf digits) else none

/-- The numbers from one end of a range to the other, in either direction. -/
def rangeNumbers (start stop : ℤ) : List ℤ :=
  if start < stop then (List.range (stop - start + 1).toNat).map fun k : ℕ => start + k
  else if start > stop then (List.range (start - stop + 1).toNat).map fun k : ℕ => start - k
  else [start]

/-- What one token adds to `intvals`. -/
def splitToken (signum : ℤ) (pnum : List UInt8) : Option (List ℤ) :=
  if isNumber pnum then
    (stoi pnum).bind fun number => if number > signum then none else some [number]
  else if isNumberRange pnum then
    match fields 45 pnum with
    | [first, second] =>
      (stoi first).bind fun start => (stoi second).bind fun stop =>
        if start > signum ∨ stop > signum then none else some (rangeNumbers start stop)
    | _ => some []
  else none

def splitRange (signum : ℤ) : List (List UInt8) → List ℤ → Option (List ℤ)
  | [], intvals => some intvals
  | pnum :: tokenlist, intvals =>
    (splitToken signum pnum).bind fun numbers => splitRange signum tokenlist (intvals ++ numbers)

/-- The block hash list that `main` hands to `mdzipfile`. -/
def mainBlockHashList (bhs bh : List (List UInt8)) : Option (List ℤ) :=
  let signum := hashlistsize mdHashlist
  (splitRange signum bhs []).bind fun csvvals => (splitRange signum bh []).bind fun intvals =>
    let csvvals := csvvals ++ intvals
    -- `FAST64`
    some (if csvvals.length = 0 then [6] else csvvals)

/-! The numbers of a token -/

theorem isNumber_iff {pnum : List UInt8} :
    isNumber pnum = true ↔ pnum ≠ [] ∧ ∀ c ∈ pnum, 48 ≤ c.toNat ∧ c.toNat ≤ 57 := by
  simp [isNumber, isDigit]

theorem numberOf_concat (digits : List UInt8) (c : UInt8) :
    numberOf (digits ++ [c]) = 10 * numberOf digits + (c.toNat - 48) := by
  rw [numberOf, List.foldl_append]
  rfl

/-- A number is zero when all its digits are. -/
theorem numberOf_eq_zero_iff {digits : List UInt8} (h : ∀ c ∈ digits, 48 ≤ c.toNat) :
    numberOf digits = 0 ↔ ∀ c ∈ digits, c = 48 := by
  induction digits using List.reverseRecOn with
  | nil => simp [numberOf]
  | append_singleton digits c ih =>
    have hc : 48 ≤ c.toNat := h c (by simp)
    have hzero : c.toNat - 48 = 0 ↔ c = 48 := by
      rw [← UInt8.toNat_inj, show (48 : UInt8).toNat = 48 from rfl]
      omega
    rw [numberOf_concat, Nat.add_eq_zero_iff, hzero, Nat.mul_eq_zero,
      ih fun c hc => h c (List.mem_append_left _ hc)]
    simp [or_imp, forall_and]

theorem stoi_eq_some {digits : List UInt8} {number : ℤ} (h : stoi digits = some number) :
    number = numberOf digits := by
  unfold stoi at h
  split_ifs at h
  exact (Option.some.inj h).symm

theorem mem_rangeNumbers {start stop v : ℤ} :
    v ∈ rangeNumbers start stop ↔ min start stop ≤ v ∧ v ≤ max start stop := by
  unfold rangeNumbers
  split_ifs with h h'
  · rw [List.mem_map]
    refine ⟨?_, fun hv => ⟨(v - start).toNat, by rw [List.mem_range]; omega, by omega⟩⟩
    rintro ⟨k, hk, rfl⟩
    rw [List.mem_range] at hk
    omega
  · rw [List.mem_map]
    refine ⟨?_, fun hv => ⟨(start - v).toNat, by rw [List.mem_range]; omega, by omega⟩⟩
    rintro ⟨k, hk, rfl⟩
    rw [List.mem_range] at hk
    omega
  · rw [List.mem_singleton]
    omega

/-- The two ends of a range. -/
theorem exists_of_isNumberRange {pnum : List UInt8} (h : isNumberRange pnum = true) :
    ∃ first second, pnum = first ++ 45 :: second ∧ fields 45 pnum = [first, second] ∧
      isNumber first = true ∧ isNumber second = true := by
  rw [isNumberRange, Bool.and_eq_true] at h
  obtain ⟨hfirst, hsecond⟩ := h
  have hnot {digits : List UInt8} (h : isNumber digits = true) : 45 ∉ digits := fun hmem =>
    absurd ((isNumber_iff.mp h).2 45 hmem).1 (by decide)
  have hsplit := List.takeWhile_append_dropWhile (p := fun c : UInt8 => decide (c ≠ 45)) (l := pnum)
  set first := pnum.takeWhile fun c => decide (c ≠ 45)
  cases hrest : pnum.dropWhile fun c => decide (c ≠ 45) with
  | nil =>
    rw [hrest] at hsecond
    cases hsecond
  | cons dash second =>
    have hdash := List.head?_dropWhile_not (fun c : UInt8 => decide (c ≠ 45)) pnum
    rw [hrest] at hsplit hsecond hdash
    obtain rfl : dash = 45 := by simpa using hdash
    rw [List.drop_one, List.tail_cons] at hsecond
    refine ⟨first, second, hsplit.symm, ?_, hfirst, hsecond⟩
    rw [← hsplit, fields_append_delim (hnot hfirst),
      fields_eq_singleton (hnot hsecond) (isNumber_iff.mp hsecond).1]

/-- Some character is neither `0` nor `-`. -/
def HasNonzeroDigit (pnum : List UInt8) : Prop := ∃ c ∈ pnum, c ≠ 48 ∧ c ≠ 45

instance (pnum : List UInt8) : Decidable (HasNonzeroDigit pnum) :=
  inferInstanceAs (Decidable (∃ c ∈ pnum, _))

theorem hasNonzeroDigit_iff {digits : List UInt8} (h : isNumber digits = true) :
    HasNonzeroDigit digits ↔ numberOf digits ≠ 0 := by
  obtain ⟨-, hdigits⟩ := isNumber_iff.mp h
  rw [Ne, numberOf_eq_zero_iff fun c hc => (hdigits c hc).1, HasNonzeroDigit]
  push Not
  refine exists_congr fun c => and_congr_right fun hc => and_iff_left ?_
  rintro rfl
  exact absurd (hdigits 45 hc).1 (by decide)

/-- What an accepted token adds: at least one number, none of them above
`signum`, and one that is not zero exactly when a digit of the token is not. -/
theorem splitToken_spec {signum : ℤ} {pnum : List UInt8} {numbers : List ℤ}
    (h : splitToken signum pnum = some numbers) :
    numbers ≠ [] ∧ (∀ v ∈ numbers, 0 ≤ v ∧ v ≤ signum) ∧
      ((∃ v ∈ numbers, v ≠ 0) ↔ HasNonzeroDigit pnum) := by
  unfold splitToken at h
  split_ifs at h with hnumber hrange
  · obtain ⟨number, hstoi, h⟩ := Option.bind_eq_some_iff.mp h
    split_ifs at h with hle
    obtain rfl := Option.some.inj h
    obtain rfl := stoi_eq_some hstoi
    rw [hasNonzeroDigit_iff hnumber]
    refine ⟨by simp, ?_, by simp⟩
    intro v hv
    obtain rfl := List.mem_singleton.mp hv
    omega
  · obtain ⟨first, second, hsplit, hfields, hfirst, hsecond⟩ := exists_of_isNumberRange hrange
    rw [hfields] at h
    obtain ⟨start, hstart, h⟩ := Option.bind_eq_some_iff.mp h
    obtain ⟨stop, hstop, h⟩ := Option.bind_eq_some_iff.mp h
    split_ifs at h with hle
    obtain rfl := Option.some.inj h
    obtain rfl := stoi_eq_some hstart
    obtain rfl := stoi_eq_some hstop
    have hdigit : HasNonzeroDigit pnum ↔ HasNonzeroDigit first ∨ HasNonzeroDigit second := by
      rw [hsplit]
      simp [HasNonzeroDigit, or_and_right, exists_or]
    rw [hdigit, hasNonzeroDigit_iff hfirst, hasNonzeroDigit_iff hsecond]
    refine ⟨List.ne_nil_of_mem (mem_rangeNumbers.mpr ⟨min_le_left _ _, le_max_left _ _⟩),
      fun v hv => ?_, ?_, fun hne => ?_⟩
    · rw [mem_rangeNumbers] at hv
      omega
    · rintro ⟨v, hv, hne⟩
      rw [mem_rangeNumbers] at hv
      omega
    · refine ⟨max (numberOf first : ℤ) (numberOf second), mem_rangeNumbers.mpr ⟨?_, le_rfl⟩, ?_⟩
      · exact (min_le_left _ _).trans (le_max_left _ _)
      · omega

theorem splitRange_spec {signum : ℤ} {tokenlist : List (List UInt8)} {intvals numbers : List ℤ}
    (h : splitRange signum tokenlist intvals = some numbers) :
    ∃ added, numbers = intvals ++ added ∧ (added = [] ↔ tokenlist = []) ∧
      (∀ v ∈ added, 0 ≤ v ∧ v ≤ signum) ∧
      ((∃ v ∈ added, v ≠ 0) ↔ ∃ pnum ∈ tokenlist, HasNonzeroDigit pnum) := by
  induction tokenlist generalizing intvals with
  | nil =>
    obtain rfl := Option.some.inj h
    exact ⟨[], by simp⟩
  | cons pnum tokenlist ih =>
    obtain ⟨some', htoken, h⟩ := Option.bind_eq_some_iff.mp h
    obtain ⟨hne, hbound, hdigit⟩ := splitToken_spec htoken
    obtain ⟨added, rfl, -, hbounds, hdigits⟩ := ih h
    refine ⟨some' ++ added, List.append_assoc _ _ _, by simp [hne], fun v hv => ?_, ?_⟩
    · exact (List.mem_append.mp hv).elim (hbound v) (hbounds v)
    · simp only [List.mem_append, or_and_right, exists_or, List.mem_cons, exists_eq_left, hdigit,
        hdigits]

/-- Some number of the list is that of a row. -/
theorem setVectorHL_ne_nil_iff {v : List ℤ}
    (h : ∀ val ∈ v, 0 ≤ val ∧ val ≤ hashlistsize mdHashlist) :
    setVectorHL mdHashlist v ≠ [] ↔ ∃ val ∈ v, val ≠ 0 := by
  rw [setVectorHL_eq, Ne, List.filterMap_eq_nil_iff]
  push Not
  apply exists_congr
  intro val
  rw [mem_firstOccurrences]
  apply and_congr_right
  intro hval
  obtain ⟨hnonneg, hle⟩ := h val hval
  rw [Option.ne_none_iff_exists']
  refine ⟨?_, fun hne => ?_⟩
  · rintro ⟨hash, hrow⟩ rfl
    cases hrow
  · rw [rowOf, if_pos ⟨hle, by omega⟩]
    refine ⟨_, List.getElem?_eq_getElem (i := (val - 1).toNat) ?_⟩
    rw [show mdHashlist.length = hashlistsize mdHashlist + 1 from rfl]
    omega

/-- The list in force when the blocks are hashed. -/
theorem mainBlockHashList_spec {bhs bh : List (List UInt8)} {bhlist : List ℤ}
    (h : mainBlockHashList bhs bh = some bhlist) :
    setVectorHL mdHashlist bhlist ≠ [] ↔
      bhs ++ bh = [] ∨ ∃ pnum ∈ bhs ++ bh, HasNonzeroDigit pnum := by
  obtain ⟨csvvals, hcsv, h⟩ := Option.bind_eq_some_iff.mp h
  obtain ⟨intvals, hint, h⟩ := Option.bind_eq_some_iff.mp h
  obtain ⟨csv, rfl, hcsvnil, hcsvbound, hcsvdigit⟩ := splitRange_spec hcsv
  obtain ⟨int, rfl, hintnil, hintbound, hintdigit⟩ := splitRange_spec hint
  obtain rfl := Option.some.inj h
  split_ifs with hempty
  · rw [List.length_eq_zero_iff, List.append_eq_nil_iff, hcsvnil, hintnil] at hempty
    simp only [hempty.1, hempty.2, List.append_nil, true_or, iff_true]
    decide
  · rw [setVectorHL_ne_nil_iff fun val hval =>
      (List.mem_append.mp hval).elim (hcsvbound val) (hintbound val)]
    have hsome : bhs ++ bh ≠ [] := by
      rw [Ne, List.append_eq_nil_iff, ← hcsvnil, ← hintnil, ← List.append_eq_nil_iff,
        ← List.length_eq_zero_iff]
      exact hempty
    simp only [hsome, false_or, List.mem_append, or_and_right, exists_or, hcsvdigit, hintdigit]

/-! What the reader compares -/

/-- `compareBlockHashList` over the rows, and how many digests it compares: it
returns at the first that differs. -/
def comparisons (lib : HashLibrary) (hregister : Registers) (byteblock : List UInt8) :
    List Hashlist → Bool × ℕ
  | [] => (true, 0)
  | hash :: hashlistvt =>
    match digest hash.signature with
    | none => comparisons lib hregister byteblock hashlistvt
    | some _ =>
      if compareHash lib hregister byteblock hash then
        let (same, count) := comparisons lib hregister byteblock hashlistvt
        (same, count + 1)
      else (false, 1)

theorem comparisons_fst (lib : HashLibrary) (hregister : Registers) (byteblock : List UInt8)
    (hashlistvt : List Hashlist) :
    (comparisons lib hregister byteblock hashlistvt).1 =
      compareUnder lib hashlistvt hregister byteblock := by
  rw [compareUnder, MdHashContextList.compareBlockHashList]
  dsimp only
  induction hashlistvt with
  | nil => rfl
  | cons hash hashlistvt ih =>
    rw [comparisons, List.all_cons]
    cases hd : digest hash.signature with
    | none =>
      dsimp only
      rw [ih, show compareHash lib hregister byteblock hash = true by rw [compareHash, hd]]
      rfl
    | some d =>
      dsimp only
      split_ifs with hsame
      · rw [hsame, Bool.true_and]
        exact ih
      · rw [Bool.not_eq_true] at hsame
        rw [hsame]
        rfl

/-- A list of registered rows makes at least one comparison. -/
theorem comparisons_pos {registry hashlistvt : List Hashlist} (hreg : Tabled registry)
    (h : Registered registry hashlistvt) (hne : hashlistvt ≠ []) (lib : HashLibrary)
    (hregister : Registers) (byteblock : List UInt8) :
    0 < (comparisons lib hregister byteblock hashlistvt).2 := by
  obtain ⟨hash, rest, rfl⟩ := List.exists_cons_of_ne_nil hne
  obtain ⟨-, -, ⟨d, hd, -⟩, -⟩ := h.consistent hreg hash List.mem_cons_self
  rw [Option.mem_def] at hd
  rw [comparisons, hd]
  dsimp only
  split_ifs
  · exact Nat.succ_pos _
  · exact Nat.one_pos

/-- The reader accepts no candidate of an archive made with these numbers before
it has compared a digest. -/
def NoVacuousMatch (bhlist : List ℤ) : Prop :=
  ∀ (world : ZipWorld) (args : MdzipArgs) (memory : UnzipMemory) (T : ℕ) (archive : List UInt8)
    (header : MdzipHeader) (nf : IStream) (job : UnzipJob Registers),
    args.bhlist = bhlist → mdzipfile world args = .ok (some archive) →
    readHeader memory (IStream.ofBytes archive) = .ok (header, nf) →
    mdunzipfile world.lib memory T args.mdzipname archive = .ok (some job) →
    ∀ hregister byteblock, job.compareBlockHashList hregister byteblock = true →
      0 < (comparisons world.lib hregister byteblock header.hclblock.hashlistvt).2

/-- The reader finds the encoder's list in the header. -/
theorem hashlistvt_of_readHeader {world : ZipWorld} {args : MdzipArgs} {memory : UnzipMemory}
    {archive : List UInt8} {header : MdzipHeader} {nf : IStream}
    (hzip : mdzipfile world args = .ok (some archive))
    (hread : readHeader memory (IStream.ofBytes archive) = .ok (header, nf)) :
    header.hclblock.hashlistvt = args.blockList := by
  have hne := file_ne_nil_of_mdzipfile hzip
  rw [mdzipfile_eq world hne, Except.ok.injEq, Option.some.injEq] at hzip
  obtain ⟨header', hread', -, -, -, -, -, -, -, -, hsame⟩ := readHeader_writeHeader world memory hne
    (chooseVersion args.inc args.dec).1 (mdzipBlocks world.lib (chooseVersion args.inc args.dec).2
      args.zipBlocksize args.modsize args.zipRemainder args.zipBlockcount args.file
      (args.hclblock world))
  rw [hzip, hread, Except.ok.injEq, Prod.mk.injEq] at hread'
  rw [hread'.1, ← hsame.hashlistvt, hashlistvt_hclblock]
  rfl

theorem noVacuousMatch_of_ne_nil {bhlist : List ℤ} (hne : setVectorHL mdHashlist bhlist ≠ []) :
    NoVacuousMatch bhlist := by
  rintro world args memory T archive header nf job rfl hzip hread hjob hregister byteblock -
  rw [hashlistvt_of_readHeader hzip hread]
  exact comparisons_pos mdHashlist_tabled args.registered_blockList hne _ _ _

/-- Without block hashes every candidate is accepted without a comparison. -/
theorem vacuous_of_nil {bhlist : List ℤ} (h : setVectorHL mdHashlist bhlist = []) :
    ¬ NoVacuousMatch bhlist := by
  intro hno
  have hne : (oneByteArgs bhlist).file ≠ [] := by simp [oneByteArgs]
  have hlist : (oneByteArgs bhlist).blockList = [] := h
  have hfile : (oneByteArgs bhlist).fileList = [] := by rfl
  have hsize : (oneByteArgs bhlist).zipBlocksize = 1 := by
    simp [MdzipArgs.zipBlocksize, oneByteArgs]
  have hcount : (oneByteArgs bhlist).zipBlockcount = 1 := by
    rw [MdzipArgs.zipBlockcount, hsize]
    simp [oneByteArgs]
  have hmodsize : (oneByteArgs bhlist).modsize = 64 := rfl
  have hmin : 48 ≤ (oneByteArgs bhlist).headerSize +
      (oneByteArgs bhlist).recordSize * (oneByteArgs bhlist).zipBlockcount := by
    rw [MdzipArgs.headerSize, MdzipArgs.recordSize, hlist, hfile, hcount, hsize, hmodsize,
      calcModulusBytes_natCast]
    simp [calcBlockSize]
    omega
  obtain ⟨archive, job, hzip, hjob, -, -, hcompare, -⟩ :=
    mdunzipfile_mdzipfile zeroWorld zeroMemory 1 hne hmin (by rw [hcount]; norm_num)
  obtain ⟨header, nf, hread, -⟩ := mdunzipfile_eq_some hjob
  have hpos := hno zeroWorld (oneByteArgs bhlist) zeroMemory 1 archive header nf job rfl hzip hread
    hjob (fun _ _ => 0) [] (by rw [hcompare, hlist]; rfl)
  rw [hashlistvt_of_readHeader hzip hread, hlist] at hpos
  exact absurd hpos (by decide)

/-- The list in force is empty, and the archive compares nothing, when tokens
are given and all their digits are zeros. -/
theorem compares_digest_iff {bhs bh : List (List UInt8)} {bhlist : List ℤ}
    (h : mainBlockHashList bhs bh = some bhlist) :
    (setVectorHL mdHashlist bhlist ≠ [] ∧ NoVacuousMatch bhlist) ↔
      bhs ++ bh = [] ∨ ∃ pnum ∈ bhs ++ bh, HasNonzeroDigit pnum := by
  rw [← mainBlockHashList_spec h]
  exact ⟨fun hboth => hboth.1, fun hne => ⟨hne, noVacuousMatch_of_ne_nil hne⟩⟩

theorem compares_digest_iff_range :
    (setVectorHL mdHashlist [1, 2, 3] ≠ [] ∧ NoVacuousMatch [1, 2, 3]) ↔
      [] ++ [ascii "1-3"] = [] ∨ ∃ pnum ∈ [] ++ [ascii "1-3"], HasNonzeroDigit pnum :=
  compares_digest_iff (by decide)

/-- `--bh 0` is accepted, and leaves no block hash at all. -/
theorem zero_token_compares_nothing :
    mainBlockHashList [] [ascii "0"] = some [0] ∧ setVectorHL mdHashlist [0] = [] ∧
      ¬ NoVacuousMatch [0] :=
  ⟨by decide, by decide, vacuous_of_nil (by decide)⟩

end Mdencode.Cpp
