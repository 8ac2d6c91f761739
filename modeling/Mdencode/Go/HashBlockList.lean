import Mdencode.Lib.Numerals
import Mdencode.Lib.InPlace
import Mdencode.Cpp.HashRegistry
import Mdencode.Go.SignatureList

/-! The lists of signatures on the command line, which `CreateHashBlockList`
reads as a string of zeros and ones or as ids and ranges of ids with commas
between them. -/

namespace Mdencode.Go

open Mdencode.Bytes Mdencode.Numerals Mdencode.InPlace

/-- The process exits, or a loop is still running. -/
inductive Stop
  | exit
  | running
  deriving DecidableEq

/-! Text -/

def isDigit (c : UInt8) : Bool := 48 ≤ c.toNat && c.toNat ≤ 57

/-- `^[[:digit:]]+$`. -/
def hashNum (text : List UInt8) : Bool := text ≠ [] && text.all isDigit

/-- `[[:digit:]]+\-[[:digit:]]+` somewhere in the text. -/
def hashRange : List UInt8 → Bool
  | c :: d :: e :: rest => (isDigit c && d = 45 && isDigit e) || hashRange (d :: e :: rest)
  | _ => false

/-- `\d+(\-\d+)?`. -/
def csvToken (text : List UInt8) : Bool :=
  match text.splitOn 45 with
  | [first] => hashNum first
  | [first, last] => hashNum first && hashNum last
  | _ => false

/-- `^(\d+(\-\d+)?[,])+$`: tokens with a comma behind each of them. -/
def csvMatches (text : List UInt8) : Bool :=
  let arr := text.splitOn 44
  2 ≤ arr.length && arr.getLast? = some [] && arr.dropLast.all csvToken

/-- `^([01]+)$`. -/
def binaryMatches (text : List UInt8) : Bool := text ≠ [] && text.all fun c => c = 48 || c = 49

/-- `strings.Replace(text, ",,", ",", 1)`. -/
def replaceComma : List UInt8 → List UInt8
  | 44 :: 44 :: rest => 44 :: rest
  | c :: rest => c :: replaceComma rest
  | [] => []

/-- `strconv.Atoi` of digits, which are all that it is given. A number out of
range is the largest one. -/
def atoi (text : List UInt8) : ℤ := min (ofDecimal text) (2 ^ 63 - 1)

/-- `index++`. -/
def incrementInt (index : ℤ) : ℤ := if index = 2 ^ 63 - 1 then -2 ^ 63 else index + 1

/-! `Uniques` -/

/-- The `for` loop: the range is over the slice as it was passed, and `s` has the
same bytes under it. The counter is of the passes that are left, `i` of those
that are done, and `count` is the length of `s`. -/
def uniquesLoop : ℕ → ℕ → List ℤ → ℕ → List ℤ → List ℤ × ℕ
  | 0, _, buf, count, _ => (buf, count)
  | left + 1, i, buf, count, seen =>
    let n := buf.getD i 0
    let count := if i = 0 then 0 else count
    if n ∈ seen then uniquesLoop left (i + 1) buf count seen
    else uniquesLoop left (i + 1) (buf.set count n) (count + 1) (seen ++ [n])

def uniques (s : List ℤ) : List ℤ :=
  if s = [] then s
  else
    let (buf, count) := uniquesLoop s.length 0 s s.length []
    buf.take count

/-! The two forms of a list -/

def hashNamesSize : ℕ := hlist.length

/-- `AddHashList(hlist[i].HashName, i)`, for each of some positions. -/
def hashNamesAt (positions : List ℕ) : List String :=
  positions.filterMap fun i => hlist[i]?.map HashList.hashName

def createHashBlockListBinary (hashlistBoolean : List UInt8) : List String :=
  let arr := hashlistBoolean.filter fun c => c = 48 || c = 49
  (arr.zip hlist).filterMap fun (vbool, row) => if vbool = 49 then some row.hashName else none

/-- `for index := start; index <= end; index++`. -/
def rangeLoop (last : ℤ) : ℕ → ℤ → List ℤ → Except Stop (List ℤ)
  | 0, _, _ => .error .running
  | passes + 1, index, s =>
    if index ≤ last then
      rangeLoop last passes (incrementInt index)
        (if index < hashNamesSize then s ++ [index] else s)
    else .ok s

/-- What a token adds to the positions. -/
def addToken (passes : ℕ) (s : List ℤ) (hash : List UInt8) : Except Stop (List ℤ) :=
  let s :=
    if hashNum hash then
      let index := atoi hash
      s ++ [if index > 0 then index - 1 else index]
    else s
  if hashRange hash then
    let hr := hash.splitOn 45
    let start := atoi (hr.getD 0 [])
    let last := atoi (hr.getD 1 [])
    let (start, last) := if start > 0 then (start - 1, last - 1) else (start, last)
    if start ≤ last then rangeLoop last passes start s else .ok s
  else .ok s

def createHashBlockListCSV (passes : ℕ) (hashlistCSV : List UInt8) : Except Stop (List String) :=
  let hashlistCSV := replaceComma (hashlistCSV ++ [44])
  if csvMatches hashlistCSV then do
    let s ← (hashlistCSV.splitOn 44).foldlM (addToken passes) []
    let s := s.mergeSort fun a b => a ≤ b
    let s := uniques s
    .ok (hashNamesAt ((s.filter fun index : ℤ => index < hashNamesSize).map Int.toNat))
  else .error .exit

def createHashBlockList (passes : ℕ) (hashlist : List UInt8) : Except Stop (List String) :=
  let csvhashlist := replaceComma (hashlist ++ [44])
  if binaryMatches hashlist then .ok (createHashBlockListBinary hashlist)
  else if csvMatches csvhashlist then createHashBlockListCSV passes hashlist
  else .error .exit

/-! What a list stands for -/

structure Digits where
  text : List UInt8
  text_ne : text ≠ []
  digits : ∀ c ∈ text, isDigit c = true

/-- An id or a range of ids. -/
inductive Token
  | id (n : Digits)
  | range (first last : Digits)

namespace Token

def text : Token → List UInt8
  | id n => n.text
  | range first last => first.text ++ 45 :: last.text

def first : Token → ℕ
  | id n => ofDecimal n.text
  | range first _ => ofDecimal first.text

def last : Token → ℕ
  | id n => ofDecimal n.text
  | range _ last => ofDecimal last.text

end Token

/-- The tokens with a comma between them. -/
def csvList (tokens : List Token) : List UInt8 := [44].intercalate (tokens.map Token.text)

def Listed (tokens : List Token) (id : ℕ) : Prop :=
  ∃ token ∈ tokens, token.first ≤ id ∧ id ≤ token.last

instance (tokens : List Token) (id : ℕ) : Decidable (Listed tokens id) :=
  inferInstanceAs (Decidable (∃ _ ∈ _, _ ∧ _))

/-- The signatures whose ids are listed, by id; the id of a position is one more. -/
def listedSignatures (tokens : List Token) : List String :=
  hashNamesAt ((List.range hashNamesSize).filter fun i => Listed tokens (i + 1))

/-- The signatures at the ones of a string. -/
def markedSignatures (hashlistBoolean : List UInt8) : List String :=
  hashNamesAt ((List.range hashNamesSize).filter fun i => hashlistBoolean[i]? = some 49)

/-- The call returns this list, given time. -/
def ReturnsList (hashlist : List UInt8) (names : List String) : Prop :=
  ∃ steps, ∀ passes ≥ steps, createHashBlockList passes hashlist = .ok names

/-! `Uniques` keeps the first occurrence of each number -/

/-- The accesses of `uniquesLoop`, pass by pass. -/
def uniquesLog : ℕ → ℕ → List ℤ → ℕ → List ℤ → List (Access ℤ)
  | 0, _, _, _, _ => []
  | left + 1, i, buf, count, seen =>
    let n := buf.getD i 0
    let count := if i = 0 then 0 else count
    if n ∈ seen then .read i n :: uniquesLog left (i + 1) buf count seen
    else .read i n :: .write count n ::
      uniquesLog left (i + 1) (buf.set count n) (count + 1) (seen ++ [n])

/-- The first pass empties the slice, whatever its length was. -/
theorem uniquesLoop_progress {left i count : ℕ} {s buf seen : List ℤ} {log : List (Access ℤ)}
    (h : Progress s i buf seen log) (hleft : i + left = s.length)
    (hcount : i = 0 ∧ left ≠ 0 ∨ count = seen.length) :
    ∃ buf' seen', uniquesLoop left i buf count seen = (buf', seen'.length) ∧
      Progress s s.length buf' seen' (log ++ uniquesLog left i buf count seen) := by
  induction left generalizing i count buf seen log with
  | zero =>
    obtain rfl : count = seen.length := hcount.resolve_left fun hfirst => hfirst.2 rfl
    obtain rfl : i = s.length := hleft
    exact ⟨buf, seen, rfl, by rwa [uniquesLog, List.append_nil]⟩
  | succ left ih =>
    have hi : i < s.length := by omega
    have hnow : (if i = 0 then 0 else count) = seen.length := by
      split_ifs with hfirst
      · rw [h.kept_eq, hfirst]
        rfl
      · exact hcount.resolve_left fun hboth => hfirst hboth.1
    rw [uniquesLoop, uniquesLog, h.getD_row hi, hnow]
    split_ifs with hmem
    · have hnext := ih (h.skip hi hmem) (by omega) (.inr rfl)
      rw [List.append_assoc] at hnext
      exact hnext
    · have hcount' : seen.length + 1 = (seen ++ [s[i]]).length := by simp
      have hnext := ih (h.keep hi hmem) (by omega) (.inr hcount')
      rw [List.append_assoc] at hnext
      exact hnext

theorem uniques_run (s : List ℤ) :
    DedupRun s (uniquesLog s.length 0 s s.length []) (uniques s) := by
  unfold uniques
  split_ifs with hnil
  · rw [hnil]
    exact (Progress.start []).run
  · have hfirst : s.length ≠ 0 := fun hlen => hnil (List.length_eq_zero_iff.mp hlen)
    obtain ⟨buf, seen, hloop, hprogress⟩ :=
      uniquesLoop_progress (.start s) (Nat.zero_add s.length) (.inl ⟨rfl, hfirst⟩)
    rw [hloop]
    exact hprogress.run

theorem uniques_eq (s : List ℤ) : uniques s = s.eraseDups :=
  (uniques_run s).deduplicated.eq_eraseDups

theorem pairwise_lt_eraseDups {s : List ℤ} (h : s.Pairwise (· ≤ ·)) :
    s.eraseDups.Pairwise (· < ·) := by
  have hle : s.eraseDups.Pairwise (· ≤ ·) := h.sublist (eraseDups_sublist s)
  exact (hle.and (nodup_eraseDups s)).imp fun hboth => lt_of_le_of_ne hboth.1 hboth.2

/-- Sorting and removing repetitions leaves the positions in the registry in order. -/
theorem positions_eq {s : List ℤ} {p : ℕ → Prop} [DecidablePred p]
    (hs : ∀ v : ℤ, v < hashNamesSize → (v ∈ s ↔ 0 ≤ v ∧ p v.toNat)) :
    ((uniques (s.mergeSort fun a b => a ≤ b)).filter fun index : ℤ => index < hashNamesSize).map
        Int.toNat = (List.range hashNamesSize).filter p := by
  set positions := uniques (s.mergeSort fun a b => a ≤ b) with hpositions
  have hlt : positions.Pairwise (· < ·) := by
    rw [hpositions, uniques_eq]
    apply pairwise_lt_eraseDups
    simpa using @List.pairwise_mergeSort ℤ (fun a b => a ≤ b) (by simp; omega) (by simp; omega) s
  have hmem (v : ℤ) : v ∈ positions ↔ v ∈ s := by
    rw [hpositions, uniques_eq, List.mem_eraseDups, List.mem_mergeSort]
  have hfiltered : positions.filter (fun index : ℤ => index < hashNamesSize) =
      ((List.range hashNamesSize).filter p).map (fun i : ℕ => (i : ℤ)) := by
    refine List.Pairwise.eq_of_mem_iff (hlt.filter _) ?_ fun v => ?_
    · rw [List.pairwise_map]
      exact (List.pairwise_lt_range.filter _).imp fun h => by exact_mod_cast h
    · rw [List.mem_filter, hmem, List.mem_map, decide_eq_true_eq]
      constructor
      · rintro ⟨hv, hsize⟩
        obtain ⟨hpos, hp⟩ := (hs v hsize).mp hv
        refine ⟨v.toNat, List.mem_filter.mpr ⟨?_, by simpa using hp⟩, by omega⟩
        rw [List.mem_range]
        omega
      · rintro ⟨i, hi, rfl⟩
        obtain ⟨hsize, hp⟩ := List.mem_filter.mp hi
        rw [List.mem_range] at hsize
        have hsize' : (i : ℤ) < hashNamesSize := by exact_mod_cast hsize
        exact ⟨(hs i hsize').mpr ⟨by omega, by simpa using hp⟩, hsize'⟩
  rw [hfiltered, List.map_map]
  exact List.map_id'' (fun i => Int.toNat_natCast i) _

/-! The tokens -/

section
variable {passes : ℕ} {s : List ℤ}

/-- A loop that ends before the largest number adds what is in the registry. -/
theorem rangeLoop_eq {last start : ℤ} (hlast : last < 2 ^ 63 - 1) (hpos : 0 < passes)
    (hpasses : last - start + 1 < passes) :
    ∃ out, rangeLoop last passes start s = .ok out ∧
      ∀ v : ℤ, v < hashNamesSize → (v ∈ out ↔ v ∈ s ∨ start ≤ v ∧ v ≤ last) := by
  induction passes generalizing start s with
  | zero => omega
  | succ passes ih =>
    rw [rangeLoop]
    split_ifs with hle hsize
    · obtain ⟨out, hloop, hout⟩ := @ih (s ++ [start]) (start + 1) (by omega) (by omega)
      rw [incrementInt, if_neg (by omega)]
      refine ⟨out, hloop, fun v hv => ?_⟩
      rw [hout v hv, List.mem_append, List.mem_singleton, or_assoc]
      exact or_congr_right (by omega)
    · obtain ⟨out, hloop, hout⟩ := @ih s (start + 1) (by omega) (by omega)
      rw [incrementInt, if_neg (by omega)]
      refine ⟨out, hloop, fun v hv => ?_⟩
      rw [hout v hv]
      exact or_congr_right (by omega)
    · refine ⟨s, rfl, fun v _ => ?_⟩
      rw [or_iff_left (by omega)]

/-- The positions below the size of the registry are those of the listed ids. -/
def Collects (s : List ℤ) (tokens : List Token) : Prop :=
  ∀ v : ℤ, v < hashNamesSize → (v ∈ s ↔ 0 ≤ v ∧ Listed tokens (v.toNat + 1))

theorem notMem_text {c : UInt8} (hc : isDigit c = false) (n : Digits) : c ∉ n.text := by
  intro hmem
  rw [n.digits c hmem] at hc
  cases hc

theorem hashNum_digits (n : Digits) : hashNum n.text = true := by
  simpa [hashNum, n.text_ne] using n.digits

theorem hashRange_of_dash_notMem {text : List UInt8} (h : 45 ∉ text) : hashRange text = false := by
  fun_induction hashRange text with
  | case1 c d e rest ih =>
    obtain ⟨-, htail⟩ := not_or.mp fun hmem => h (List.mem_cons.mpr hmem)
    have hd : d ≠ 45 := fun heq => htail (heq ▸ List.mem_cons_self)
    simp [hd, ih htail]
  | case2 text => rfl

theorem hashRange_cons (c : UInt8) {text : List UInt8} (h : hashRange text = true) :
    hashRange (c :: text) = true := by
  match text, h with
  | d :: e :: rest, h => rw [hashRange, h, Bool.or_true]

theorem hashRange_append {first : List UInt8} (hne : first ≠ [])
    (hfirst : ∀ c ∈ first, isDigit c = true)
    {d : UInt8} (hd : isDigit d = true) (rest : List UInt8) :
    hashRange (first ++ 45 :: d :: rest) = true := by
  induction first with
  | nil => exact absurd rfl hne
  | cons c first ih =>
    cases first with
    | nil => simp [hashRange, hfirst c List.mem_cons_self, hd]
    | cons e first =>
      exact hashRange_cons c (ih (List.cons_ne_nil _ _)
        fun c hc => hfirst c (List.mem_cons_of_mem _ hc))

theorem hashRange_range (first last : Digits) :
    hashRange (first.text ++ 45 :: last.text) = true := by
  obtain ⟨d, rest, hlast⟩ := List.exists_cons_of_ne_nil last.text_ne
  rw [hlast]
  exact hashRange_append first.text_ne first.digits
    (last.digits d (hlast ▸ List.mem_cons_self)) rest

theorem csvToken_text (token : Token) : csvToken token.text = true := by
  cases token with
  | id n =>
    rw [Token.text, csvToken, List.splitOn_eq_singleton (notMem_text rfl n)]
    exact hashNum_digits n
  | range first last =>
    rw [Token.text, csvToken, List.splitOn_append_cons_self_of_not_mem (notMem_text rfl first),
      List.splitOn_eq_singleton (notMem_text rfl last)]
    simp [hashNum_digits]

theorem listed_concat {tokens : List Token} {token : Token} {id : ℕ} :
    Listed (tokens ++ [token]) id ↔ Listed tokens id ∨ token.first ≤ id ∧ id ≤ token.last := by
  simp [Listed, or_and_right, exists_or]

/-- What a token adds is its range, moved down by one. -/
theorem Collects.concat {tokens : List Token} {token : Token} {out : List ℤ}
    (hs : Collects s tokens)
    (hfirst : 1 ≤ token.first)
    (hout : ∀ v : ℤ, v < hashNamesSize →
      (v ∈ out ↔ v ∈ s ∨ token.first - 1 ≤ v ∧ v ≤ (token.last : ℤ) - 1)) :
    Collects out (tokens ++ [token]) := by
  intro v hv
  rw [hout v hv, hs v hv, listed_concat, and_or_left]
  exact or_congr_right (by omega)

theorem hashNamesSize_lt : (hashNamesSize : ℤ) < 2 ^ 32 := by decide

theorem addToken_range {first last : Digits} (hstart : 0 < atoi first.text) :
    addToken passes s (Token.range first last).text =
      if atoi first.text - 1 ≤ atoi last.text - 1 then
        rangeLoop (atoi last.text - 1) passes (atoi first.text - 1) s
      else .ok s := by
  have hnum : hashNum (first.text ++ 45 :: last.text) = false := by
    simp [hashNum, isDigit]
  have hfirst : [first.text, last.text].getD 0 [] = first.text := rfl
  have hlast : [first.text, last.text].getD 1 [] = last.text := rfl
  rw [Token.text, addToken, if_pos (hashRange_range first last),
    if_neg (by rw [hnum]; exact Bool.false_ne_true),
    List.splitOn_append_cons_self_of_not_mem (notMem_text rfl first),
    List.splitOn_eq_singleton (notMem_text rfl last)]
  simp only [hfirst, hlast, gt_iff_lt, if_pos hstart]

theorem addToken_text {token : Token} {tokens : List Token} (hfirst : 1 ≤ token.first)
    (hs : Collects s tokens) (hpasses : 2 ^ 63 ≤ passes) :
    ∃ out, addToken passes s token.text = .ok out ∧ Collects out (tokens ++ [token]) := by
  have hsize := hashNamesSize_lt
  cases token with
  | id n =>
    change 1 ≤ ofDecimal n.text at hfirst
    refine ⟨s ++ [atoi n.text - 1], ?_, hs.concat hfirst fun v hv => ?_⟩
    · rw [Token.text, addToken, if_pos (hashNum_digits n),
        if_neg (by rw [hashRange_of_dash_notMem (notMem_text rfl n)]; exact Bool.false_ne_true)]
      dsimp only
      rw [if_pos (by unfold atoi; omega)]
    · rw [List.mem_append, List.mem_singleton, Token.first, Token.last, atoi]
      exact or_congr_right (by omega)
  | range first last =>
    change 1 ≤ ofDecimal first.text at hfirst
    have hstart : 0 < atoi first.text := by
      unfold atoi
      omega
    have hlast : atoi last.text - 1 < 2 ^ 63 - 1 := by
      unfold atoi
      omega
    rw [addToken_range hstart]
    split_ifs with hle
    · obtain ⟨out, hloop, hout⟩ := @rangeLoop_eq passes s _ (atoi first.text - 1) hlast (by omega)
        (by unfold atoi; omega)
      refine ⟨out, hloop, hs.concat hfirst fun v hv => (hout v hv).trans (or_congr_right ?_)⟩
      rw [Token.first, Token.last, atoi, atoi]
      omega
    · refine ⟨s, rfl, hs.concat hfirst fun v hv => (or_iff_left ?_).symm⟩
      rw [Token.first, Token.last]
      unfold atoi at hle
      omega

theorem foldlM_addToken {tokens rest : List Token} (hfirst : ∀ token ∈ rest, 1 ≤ token.first)
    (hs : Collects s tokens) (hpasses : 2 ^ 63 ≤ passes) :
    ∃ out, (rest.map Token.text).foldlM (addToken passes) s = .ok out ∧
      Collects out (tokens ++ rest) := by
  induction rest generalizing s tokens with
  | nil => exact ⟨s, rfl, by rwa [List.append_nil]⟩
  | cons token rest ih =>
    obtain ⟨added, hadded, hcollects⟩ := addToken_text (hfirst token List.mem_cons_self) hs hpasses
    obtain ⟨out, hout, hall⟩ := ih (fun t ht => hfirst t (List.mem_cons_of_mem _ ht)) hcollects
    refine ⟨out, ?_, by rwa [List.append_assoc] at hall⟩
    rw [List.map_cons, List.foldlM_cons, hadded]
    exact hout

end

/-! The text of a list -/

/-- The tokens with a comma behind each of them. -/
def csvLine (tokens : List Token) : List UInt8 := tokens.flatMap fun token => token.text ++ [44]

theorem comma_notMem_text (token : Token) : 44 ∉ token.text := by
  cases token with
  | id n => exact notMem_text rfl n
  | range first last =>
    have hfirst : 44 ∉ first.text := notMem_text rfl first
    have hlast : 44 ∉ last.text := notMem_text rfl last
    simp [Token.text, hfirst, hlast]

theorem csvLine_cons (token : Token) (tokens : List Token) :
    csvLine (token :: tokens) = token.text ++ 44 :: csvLine tokens := by
  rw [csvLine, List.flatMap_cons, List.append_assoc]
  rfl

theorem csvList_append_comma {tokens : List Token} (hne : tokens ≠ []) :
    csvList tokens ++ [44] = csvLine tokens := by
  induction tokens with
  | nil => exact absurd rfl hne
  | cons token tokens ih =>
    rcases eq_or_ne tokens [] with rfl | htokens
    · simp [csvList, csvLine]
    · rw [csvLine_cons, ← ih htokens, csvList, List.map_cons,
        List.intercalate_cons_of_ne_nil (by simpa using htokens)]
      simp [csvList]

theorem text_ne (token : Token) : token.text ≠ [] := by
  cases token with
  | id n => exact n.text_ne
  | range first last => exact List.append_ne_nil_of_left_ne_nil first.text_ne _

theorem replaceComma_append {text : List UInt8} (h : 44 ∉ text) (rest : List UInt8) :
    replaceComma (text ++ rest) = text ++ replaceComma rest := by
  induction text with
  | nil => rfl
  | cons c text ih =>
    obtain ⟨hc, htext⟩ := not_or.mp fun hmem => h (List.mem_cons.mpr hmem)
    rw [List.cons_append, replaceComma, ih htext, List.cons_append]
    simp [Ne.symm hc]

/-- No two commas stand together. -/
theorem replaceComma_csvLine (tokens : List Token) :
    replaceComma (csvLine tokens) = csvLine tokens := by
  induction tokens with
  | nil => rfl
  | cons token tokens ih =>
    have hhead : ∀ rest, csvLine tokens ≠ 44 :: rest := by
      intro rest heq
      cases tokens with
      | nil => cases heq
      | cons next tokens =>
        obtain ⟨c, text, htext⟩ := List.exists_cons_of_ne_nil (text_ne next)
        rw [csvLine_cons, htext, List.cons_append, List.cons.injEq] at heq
        exact comma_notMem_text next (by rw [htext, heq.1]; exact List.mem_cons_self)
    rw [csvLine_cons, replaceComma_append (comma_notMem_text token), replaceComma, ih]
    simpa using hhead

theorem splitOn_csvLine (tokens : List Token) :
    (csvLine tokens).splitOn 44 = tokens.map Token.text ++ [[]] := by
  induction tokens with
  | nil => exact List.splitOn_nil 44
  | cons token tokens ih =>
    rw [csvLine_cons, List.splitOn_append_cons_self_of_not_mem (comma_notMem_text token), ih,
      List.map_cons, List.cons_append]

theorem csvMatches_csvLine {tokens : List Token} (hne : tokens ≠ []) :
    csvMatches (csvLine tokens) = true := by
  have hlen := List.length_pos_iff.mpr hne
  rw [csvMatches, splitOn_csvLine]
  simp [csvToken_text]
  omega

theorem createHashBlockListCSV_eq {tokens : List Token} {passes : ℕ} (hne : tokens ≠ [])
    (hfirst : ∀ token ∈ tokens, 1 ≤ token.first) (hpasses : 2 ^ 63 ≤ passes) :
    createHashBlockListCSV passes (csvList tokens) = .ok (listedSignatures tokens) := by
  have hnil : Collects [] [] := fun v _ => by simp [Listed]
  obtain ⟨s, hfold, hs⟩ := foldlM_addToken hfirst hnil hpasses
  rw [createHashBlockListCSV, csvList_append_comma hne, replaceComma_csvLine,
    if_pos (csvMatches_csvLine hne), splitOn_csvLine, List.foldlM_append, hfold]
  change Except.ok (hashNamesAt (((uniques (s.mergeSort fun a b => a ≤ b)).filter
    fun index : ℤ => index < hashNamesSize).map Int.toNat)) = _
  rw [List.nil_append] at hs
  rw [positions_eq (p := fun i => Listed tokens (i + 1)) hs]
  rfl

theorem filterMap_zip (marks : List UInt8) (rows : List HashList) :
    ((marks.zip rows).filterMap fun (vbool, row) =>
        if vbool = 49 then some row.hashName else none) =
      ((List.range rows.length).filter fun i => marks[i]? = some 49).filterMap fun i =>
        rows[i]?.map HashList.hashName := by
  induction rows generalizing marks with
  | nil => simp
  | cons row rows ih =>
    cases marks with
    | nil => simp
    | cons mark marks =>
      rw [List.zip_cons_cons, List.length_cons, List.range_succ_eq_map, List.filter_cons,
        List.filter_map, List.filterMap_cons, ih]
      rcases eq_or_ne mark 49 with rfl | hmark
      · simp [Function.comp_def, List.filterMap_map]
      · simp [hmark, Function.comp_def, List.filterMap_map]

theorem createHashBlockListBinary_eq {hashlist : List UInt8} (h : binaryMatches hashlist = true) :
    createHashBlockListBinary hashlist = markedSignatures hashlist := by
  have hall : hashlist.filter (fun c => c = 48 || c = 49) = hashlist := by
    rw [List.filter_eq_self]
    rw [binaryMatches, Bool.and_eq_true, List.all_eq_true] at h
    exact h.2
  rw [createHashBlockListBinary, hall]
  exact filterMap_zip hashlist hlist

/-- A list of ids is read as one unless it is a string of zeros and ones, which is
read as the signatures at its ones. -/
theorem createHashBlockList_csvList {tokens : List Token} (hne : tokens ≠ [])
    (hfirst : ∀ token ∈ tokens, 1 ≤ token.first) :
    ReturnsList (csvList tokens)
      (if binaryMatches (csvList tokens) then markedSignatures (csvList tokens)
        else listedSignatures tokens) := by
  refine ⟨2 ^ 63, fun passes hpasses => ?_⟩
  rw [createHashBlockList]
  split_ifs with hbinary hcsv
  · rw [createHashBlockListBinary_eq hbinary]
  · exact createHashBlockListCSV_eq hne hfirst hpasses
  · rw [csvList_append_comma hne, replaceComma_csvLine] at hcsv
    exact absurd (csvMatches_csvLine hne) hcsv

theorem isDigit_decimal {n : ℕ} {c : UInt8} (h : c ∈ decimal n) : isDigit c = true := by
  obtain ⟨d, hd, rfl⟩ := List.mem_map.mp h
  have hbounds := isDigit_bounds hd
  have hval : (UInt8.ofNat d.toNat).toNat = d.toNat := by
    rw [UInt8.toNat_ofNat']
    omega
  rw [isDigit, hval, Bool.and_eq_true, decide_eq_true_iff, decide_eq_true_iff]
  exact hbounds

/-- A number as it is written. -/
def Digits.ofNat (n : ℕ) : Digits where
  text := decimal n
  text_ne := List.map_eq_nil_iff.not.mpr Nat.toDigits_ne_nil
  digits _ h := isDigit_decimal h

theorem createHashBlockList_csvList_crc32c :
    ReturnsList (csvList [.id (.ofNat 10), .range (.ofNat 12) (.ofNat 13)])
      (if binaryMatches (csvList [.id (.ofNat 10), .range (.ofNat 12) (.ofNat 13)]) then
        markedSignatures (csvList [.id (.ofNat 10), .range (.ofNat 12) (.ofNat 13)])
      else listedSignatures [.id (.ofNat 10), .range (.ofNat 12) (.ofNat 13)]) :=
  createHashBlockList_csvList (by simp) (by decide)

/-- The list of the tenth signature is taken for the mark of the first. -/
theorem ten_read_as_binary :
    ReturnsList (csvList [.id (.ofNat 10)]) ["add32"] ∧
      listedSignatures [.id (.ofNat 10)] = ["crc32c"] ∧
      ¬ ∀ tokens : List Token, tokens ≠ [] → (∀ token ∈ tokens, 1 ≤ token.first) →
        ReturnsList (csvList tokens) (listedSignatures tokens) := by
  have hten : csvList [.id (.ofNat 10)] = [49, 48] := by decide
  have hbinary (passes : ℕ) : createHashBlockList passes [49, 48] = .ok ["add32"] := rfl
  have hlisted : listedSignatures [.id (.ofNat 10)] = ["crc32c"] := by decide +kernel
  refine ⟨⟨0, fun passes _ => by rw [hten, hbinary]⟩, hlisted, fun h => ?_⟩
  obtain ⟨steps, hsteps⟩ := h [.id (.ofNat 10)] (by simp) (by decide)
  have hreturns := hsteps steps le_rfl
  rw [hten, hbinary, hlisted] at hreturns
  exact absurd (Except.ok.inj hreturns) (by decide)

end Mdencode.Go

/-! The same loop in the two programs: `use_std_hash_remove_dup` in front of
`setVectorHL`, and `Uniques` behind the sort of `CreateHashBlockListCSV` -/

namespace Mdencode

open InPlace

/-- Each loop reads every number as it was passed, writes only where it has read,
and leaves each number once, where it first occurs. -/
theorem removeDup_uniques_inPlace (s : List ℤ) :
    DedupRun s (Cpp.removeDupLog s s.length) (Cpp.useStdHashRemoveDup s) ∧
      DedupRun s (Go.uniquesLog s.length 0 s s.length []) (Go.uniques s) :=
  ⟨Cpp.useStdHashRemoveDup_run s, Go.uniques_run s⟩

example : Cpp.useStdHashRemoveDup [1, 2, 3, 3, 11, 4, 5, 11, 16, 11, 20, 19] =
    [1, 2, 3, 11, 4, 5, 16, 20, 19] := by decide

/-- Both programs keep the same numbers of a list, in the same order. -/
theorem useStdHashRemoveDup_eq_uniques (s : List ℤ) :
    Cpp.useStdHashRemoveDup s = Go.uniques s := by
  have hcpp := (Cpp.useStdHashRemoveDup_run s).deduplicated.eq_eraseDups
  have hgo := (Go.uniques_run s).deduplicated.eq_eraseDups
  rw [hcpp, hgo]

end Mdencode
