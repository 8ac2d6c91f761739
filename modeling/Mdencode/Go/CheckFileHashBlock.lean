import Mdencode.Lib.Numerals
import Mdencode.Go.FileSignatures
import Mdencode.Go.ModScanFile

/-! The comparison of a byte block with its stored signatures, as
`CheckFileHashBlock` of `mdHashContextList.go` makes it: with hash objects that
are used again from one candidate to the next, and a running offset into the
stored bytes. `none` is a panic or an exit. -/

namespace Mdencode.Go

open Mdencode.Bytes Mdencode.Numerals

/-- A hash object, with what has been written to it since it was made or reset. -/
structure HashObject where
  row : HashList
  written : List UInt8

/-- The fields of `HashContextList` that are for the blocks. -/
structure BlockContext where
  hashBlockSize : ℕ
  hashBlockSizeList : List ℕ
  blockHashListNames : List (List UInt8)
  hashListBlocks : List UInt8 → Option HashObject
  hashBlockBytes : List UInt8

namespace HashObject

def reset (h : HashObject) : HashObject := { h with written := [] }

def write (h : HashObject) (bytes : List UInt8) : HashObject :=
  { h with written := h.written ++ bytes }

def sum (digest : HashList → List UInt8 → List UInt8) (h : HashObject) : List UInt8 :=
  digest h.row h.written

end HashObject

namespace BlockContext

/-- `CalcHashBlockSize` with the type of the blocks. -/
def calcHashBlockSize (hc : BlockContext) (hashlist : List UInt8) : BlockContext :=
  let blocklistarr := Go.calcHashBlockSize hashlist
  { hc with hashBlockSize := blocklistarr.sum, hashBlockSizeList := blocklistarr }

/-- The case of the `switch` for a name; the cases are the rows of the registry. -/
def newHash (hashname : List UInt8) : Option HashObject :=
  (hlist.find? fun row => ascii row.hashName = hashname).map fun row => { row, written := [] }

/-- `CreateHashListMap` with the type of the blocks; an unknown name exits. -/
def createHashListMap (hc : BlockContext) (hashList : List UInt8) : Option BlockContext :=
  let hashlistArr := hashList.splitOn 58
  if hashList = [] then some hc
  else do
    let hb ← hashlistArr.foldlM (fun hb hashname =>
      (newHash hashname).map fun h => Function.update hb hashname (some h)) fun _ => none
    some { hc with blockHashListNames := hashlistArr, hashListBlocks := hb }

def setBlockHash (hc : BlockContext) (byteblock : List UInt8) : BlockContext :=
  { hc with hashBlockBytes := byteblock }

/-- `bytes[start:end]`. The stored bytes are what the slice may reach. -/
def slice (bytes : List UInt8) (first last : ℕ) : Option (List UInt8) :=
  if first ≤ last ∧ last ≤ bytes.length then some ((bytes.take last).drop first) else none

/-- The loop of `GetFileHashBlockSigBytes` over the sizes. -/
def sigBytesLoop (names : List (List UInt8)) (bytes : List UInt8) :
    ℕ → ℕ → List ℕ → Option (List (List UInt8))
  | _, _, [] => some []
  | position, start, bs :: sizes => do
    let name ← names[position]?
    let part ← slice bytes start (start + bs)
    let strArray ← sigBytesLoop names bytes (position + 1) (start + bs) sizes
    some ((name ++ 32 :: hexEncode part) :: strArray)

def getFileHashBlockSigBytes (hc : BlockContext) : Option (List (List UInt8)) :=
  sigBytesLoop hc.blockHashListNames hc.hashBlockBytes 0 0 hc.hashBlockSizeList

variable (digest : HashList → List UInt8 → List UInt8)

/-- The loop of `CheckFileHashBlock` over the names, with the objects. -/
def checkLoop (sizes : List ℕ) (bytes byteblock : List UInt8) :
    ℕ → ℕ → List (List UInt8) → (List UInt8 → Option HashObject) →
      Option (Bool × (List UInt8 → Option HashObject))
  | _, _, [], hb => some (true, hb)
  | position, start, hashvalue :: names, hb => do
    let h ← hb hashvalue
    let h := h.reset.write byteblock
    let hb := Function.update hb hashvalue (some h)
    let size ← sizes[position]?
    let part ← slice bytes start (start + size)
    if h.sum digest = part then
      checkLoop sizes bytes byteblock (position + 1) (start + size) names hb
    else some (false, hb)

def checkFileHashBlock (hc : BlockContext) (byteblock : List UInt8) :
    Option (Bool × BlockContext) := do
  let _ ← hc.hashBlockSizeList.head?
  let (equal, hb) ← checkLoop digest hc.hashBlockSizeList hc.hashBlockBytes byteblock 0 0
    hc.blockHashListNames hc.hashListBlocks
  let hc := { hc with hashListBlocks := hb }
  if equal = false then some (false, hc)
  else do
    let _ ← hc.getFileHashBlockSigBytes
    some (true, hc)

/-- The same context with anything else written to its objects. -/
def withWritten (hc : BlockContext) (written : List UInt8 → List UInt8) : BlockContext :=
  { hc with hashListBlocks := fun name =>
      (hc.hashListBlocks name).map fun h => { h with written := written name } }

/-! Names and objects -/

/-- The names of rows with colons between them. -/
def rowNames (rows : List HashList) : List UInt8 :=
  [58].intercalate (rows.map fun row => ascii row.hashName)

variable {rows : List HashList}

theorem splitOn_rowNames (hne : rows ≠ []) (hrows : ∀ row ∈ rows, row ∈ hlist) :
    (rowNames rows).splitOn 58 = rows.map fun row => ascii row.hashName := by
  apply List.splitOn_intercalate 58
  · intro name hname
    obtain ⟨row, hrow, rfl⟩ := List.mem_map.mp hname
    exact (hlist_names row (hrows row hrow)).2.1
  · simpa using hne

theorem calcHashBlockSize_rowNames (hne : rows ≠ []) (hrows : ∀ row ∈ rows, row ∈ hlist) :
    Go.calcHashBlockSize (rowNames rows) = rows.map HashList.blockSize := by
  rw [Go.calcHashBlockSize, splitOn_rowNames hne hrows, List.filterMap_map]
  induction rows with
  | nil => rfl
  | cons row rows ih =>
    have hsize := (hlist_names row (hrows row List.mem_cons_self)).2.2
    rw [List.filterMap_cons_some (by exact hsize), List.map_cons]
    rcases eq_or_ne rows [] with rfl | hne
    · rfl
    · rw [ih hne fun row hrow => hrows row (List.mem_cons_of_mem _ hrow)]

theorem hashName_inj {row row' : HashList} (h : row ∈ hlist) (h' : row' ∈ hlist)
    (hname : ascii row.hashName = ascii row'.hashName) : row = row' :=
  List.inj_on_of_nodup_map hlist_nodup h h' hname

theorem newHash_hashName {row : HashList} (h : row ∈ hlist) :
    newHash (ascii row.hashName) = some { row, written := [] } := by
  obtain ⟨row', hfind⟩ : ∃ row', hlist.find?
      (fun row' => ascii row'.hashName = ascii row.hashName) = some row' := by
    rw [← Option.isSome_iff_exists, List.find?_isSome]
    exact ⟨row, h, by simp⟩
  have hname := List.find?_some hfind
  rw [decide_eq_true_iff] at hname
  rw [newHash, hfind, hashName_inj (List.mem_of_find?_eq_some hfind) h hname]
  rfl

/-- Every row of the list has an object of its own. -/
def HasObjects (rows : List HashList) (hb : List UInt8 → Option HashObject) : Prop :=
  ∀ row ∈ rows, ∃ written, hb (ascii row.hashName) = some { row, written }

theorem HasObjects.update {hb : List UInt8 → Option HashObject} (h : HasObjects rows hb)
    (hrows : ∀ row ∈ rows, row ∈ hlist) {row : HashList} (hrow : row ∈ hlist)
    (written : List UInt8) :
    HasObjects rows (Function.update hb (ascii row.hashName) (some { row, written })) := by
  intro row' hrow'
  by_cases hname : ascii row'.hashName = ascii row.hashName
  · obtain rfl := hashName_inj (hrows row' hrow') hrow hname
    exact ⟨written, Function.update_self ..⟩
  · rw [Function.update_of_ne hname]
    exact h row' hrow'

theorem foldlM_newHash {before : List HashList} (hbefore : ∀ row ∈ before, row ∈ hlist)
    (hrows : ∀ row ∈ rows, row ∈ hlist) {hb : List UInt8 → Option HashObject}
    (h : HasObjects before hb) :
    ∃ hb', (rows.map fun row => ascii row.hashName).foldlM (fun hb hashname =>
        (newHash hashname).map fun h => Function.update hb hashname (some h)) hb = some hb' ∧
      HasObjects (before ++ rows) hb' := by
  induction rows generalizing before hb with
  | nil => exact ⟨hb, rfl, by rwa [List.append_nil]⟩
  | cons row rows ih =>
    have hrow := hrows row List.mem_cons_self
    have hupdate : HasObjects (before ++ [row])
        (Function.update hb (ascii row.hashName) (some { row, written := [] })) := by
      intro row' hrow'
      rcases List.mem_append.mp hrow' with hmem | hmem
      · exact h.update hbefore hrow [] row' hmem
      · obtain rfl := List.mem_singleton.mp hmem
        exact ⟨[], Function.update_self ..⟩
    have hall : ∀ row' ∈ before ++ [row], row' ∈ hlist := by
      intro row' hrow'
      rcases List.mem_append.mp hrow' with hmem | hmem
      · exact hbefore row' hmem
      · rwa [List.mem_singleton.mp hmem]
    obtain ⟨hb', hfold, hobjects⟩ :=
      ih hall (fun row' hrow' => hrows row' (List.mem_cons_of_mem _ hrow')) hupdate
    refine ⟨hb', ?_, by simpa using hobjects⟩
    rw [List.map_cons, List.foldlM_cons, newHash_hashName hrow]
    exact hfold

/-- A context prepared for a list of names. -/
theorem prepare_eq (hc : BlockContext) (hne : rows ≠ []) (hrows : ∀ row ∈ rows, row ∈ hlist) :
    ∃ prepared, (hc.calcHashBlockSize (rowNames rows)).createHashListMap (rowNames rows) =
        some prepared ∧
      prepared.hashBlockSize = (rows.map HashList.blockSize).sum ∧
      prepared.hashBlockSizeList = rows.map HashList.blockSize ∧
      prepared.blockHashListNames = (rows.map fun row => ascii row.hashName) ∧
      HasObjects rows prepared.hashListBlocks := by
  have hnames : rowNames rows ≠ [] := by
    intro hnil
    have hsplit := splitOn_rowNames hne hrows
    rw [hnil, List.splitOn_nil] at hsplit
    obtain ⟨row, rest, rfl⟩ := List.exists_cons_of_ne_nil hne
    rw [List.map_cons, List.cons.injEq] at hsplit
    have hsize := (hlist_names row (hrows row List.mem_cons_self)).2.2
    rw [← hsplit.1, hashBlockSize_nil] at hsize
    cases hsize
  obtain ⟨hb, hfold, hobjects⟩ :=
    @foldlM_newHash rows [] (by simp) hrows (fun _ => none) (fun row hrow => by cases hrow)
  refine ⟨{ hc.calcHashBlockSize (rowNames rows) with
    blockHashListNames := rows.map fun row => ascii row.hashName
    hashListBlocks := hb }, ?_, ?_, ?_, rfl, hobjects⟩
  · rw [createHashListMap, if_neg hnames, splitOn_rowNames hne hrows, hfold]
    rfl
  · simp [calcHashBlockSize, calcHashBlockSize_rowNames hne hrows]
  · simp [calcHashBlockSize, calcHashBlockSize_rowNames hne hrows]

/-! The loop -/

/-- A digest of the right size is the next slice exactly when it starts what is
left of the bytes. -/
theorem equal_slice_iff {bytes sum rest : List UInt8} {start : ℕ}
    (hlen : start + sum.length ≤ bytes.length) :
    sum ++ rest = bytes.drop start ↔
      sum = (bytes.take (start + sum.length)).drop start ∧
        rest = bytes.drop (start + sum.length) := by
  have hpart : ((bytes.take (start + sum.length)).drop start).length = sum.length := by
    rw [List.length_drop, List.length_take]
    omega
  have hsplit : bytes.drop start =
      (bytes.take (start + sum.length)).drop start ++ bytes.drop (start + sum.length) := by
    rw [List.drop_take, Nat.add_sub_cancel_left, ← List.drop_drop, List.take_append_drop]
  rw [hsplit]
  constructor
  · intro h
    exact List.append_inj h hpart.symm
  · rintro ⟨hsum, hrest⟩
    rw [← hsum, hrest]

variable {digest : HashList → List UInt8 → List UInt8} {bytes byteblock : List UInt8}

/-- From a position on, the loop ends without a panic, and finds that the digests
that are left are the bytes that are left. -/
theorem checkLoop_eq (hdigest : ∀ row ∈ hlist, ∀ text, (digest row text).length = row.blockSize)
    (hrows : ∀ row ∈ rows, row ∈ hlist) {sizes : List ℕ} {position start : ℕ}
    (hsizes : sizes.drop position = rows.map HashList.blockSize)
    (hlen : bytes.length = start + (rows.map HashList.blockSize).sum)
    {hb : List UInt8 → Option HashObject} (hobjects : HasObjects rows hb) :
    ∃ equal hb', checkLoop digest sizes bytes byteblock position start
        (rows.map fun row => ascii row.hashName) hb = some (equal, hb') ∧
      (equal = true ↔ (rows.flatMap fun row => digest row byteblock) = bytes.drop start) := by
  induction rows generalizing position start hb with
  | nil =>
    refine ⟨true, hb, rfl, ?_⟩
    simp at hlen
    simp [hlen]
  | cons row rows ih =>
    have hrow := hrows row List.mem_cons_self
    have hrest : ∀ row ∈ rows, row ∈ hlist :=
      fun row' hrow' => hrows row' (List.mem_cons_of_mem _ hrow')
    obtain ⟨written, hobject⟩ := hobjects row List.mem_cons_self
    have hsize : sizes[position]? = some row.blockSize := by
      rw [← List.head?_drop, hsizes]
      rfl
    have hsizes' : sizes.drop (position + 1) = rows.map HashList.blockSize := by
      rw [← List.drop_drop, hsizes]
      rfl
    rw [List.map_cons, List.sum_cons] at hlen
    have hslice : slice bytes start (start + row.blockSize) =
        some ((bytes.take (start + row.blockSize)).drop start) :=
      if_pos ⟨Nat.le_add_right _ _, by omega⟩
    have hequal := @equal_slice_iff bytes (digest row byteblock)
      (rows.flatMap fun row => digest row byteblock) start (by rw [hdigest row hrow]; omega)
    rw [hdigest row hrow] at hequal
    have hupdate : HasObjects rows (Function.update hb (ascii row.hashName)
        (some { row, written := byteblock })) :=
      HasObjects.update (fun row' hrow' => hobjects row' (List.mem_cons_of_mem _ hrow'))
        hrest hrow _
    have hlen' : bytes.length = start + row.blockSize + (rows.map HashList.blockSize).sum := by
      omega
    obtain ⟨equal, hb', hloop, hiff⟩ := ih hrest hsizes' hlen' hupdate
    rw [List.map_cons, checkLoop, hobject, List.flatMap_cons, hequal, ← hiff]
    simp only [Option.bind_eq_bind, Option.bind_some, hsize, hslice]
    by_cases hsum : digest row byteblock = (bytes.take (start + row.blockSize)).drop start
    · exact ⟨equal, hb', (if_pos hsum).trans hloop, by simp [hsum]⟩
    · exact ⟨false, _, if_neg hsum, by simp [hsum]⟩

/-- The slices of the report are those of the comparison. -/
theorem sigBytesLoop_isSome {names : List (List UInt8)} {sizes : List ℕ} {position start : ℕ}
    (hnames : position + sizes.length ≤ names.length) (hlen : start + sizes.sum ≤ bytes.length) :
    (sigBytesLoop names bytes position start sizes).isSome := by
  induction sizes generalizing position start with
  | nil => rfl
  | cons bs sizes ih =>
    rw [List.length_cons] at hnames
    rw [List.sum_cons] at hlen
    have hlt : position < names.length := by omega
    have hname : names[position]? = some names[position] := List.getElem?_eq_getElem hlt
    have hslice : slice bytes start (start + bs) = some ((bytes.take (start + bs)).drop start) :=
      if_pos ⟨Nat.le_add_right _ _, by omega⟩
    have hnames' : position + 1 + sizes.length ≤ names.length := by omega
    have hlen' : start + bs + sizes.sum ≤ bytes.length := by omega
    obtain ⟨strArray, hrest⟩ := Option.isSome_iff_exists.mp (ih hnames' hlen')
    rw [sigBytesLoop, hname, hslice, hrest]
    rfl

theorem HasObjects.withWritten {hc : BlockContext} (h : HasObjects rows hc.hashListBlocks)
    (written : List UInt8 → List UInt8) :
    HasObjects rows (hc.withWritten written).hashListBlocks := by
  intro row hrow
  obtain ⟨before, hobject⟩ := h row hrow
  refine ⟨written (ascii row.hashName), ?_⟩
  simp only [BlockContext.withWritten, hobject, Option.map_some]

/-- Whatever was written to the objects before, the comparison ends without a
panic, and it accepts a block exactly when the digests one after the other are
the stored bytes. -/
theorem checkFileHashBlock_iff (hc : BlockContext)
    (hdigest : ∀ row ∈ hlist, ∀ text, (digest row text).length = row.blockSize)
    (hne : rows ≠ []) (hrows : ∀ row ∈ rows, row ∈ hlist) :
    ∃ prepared, (hc.calcHashBlockSize (rowNames rows)).createHashListMap (rowNames rows) =
        some prepared ∧
      ∀ stored : List UInt8, stored.length = prepared.hashBlockSize → ∀ written byteblock,
        ∃ equal after, ((prepared.setBlockHash stored).withWritten written).checkFileHashBlock
            digest byteblock = some (equal, after) ∧
          (equal = true ↔ (rows.flatMap fun row => digest row byteblock) = stored) := by
  obtain ⟨prepared, hprepared, htotal, hsizes, hnames, hobjects⟩ := prepare_eq hc hne hrows
  refine ⟨prepared, hprepared, fun stored hstored written byteblock => ?_⟩
  rw [htotal] at hstored
  have hobjects' := @HasObjects.withWritten rows (prepared.setBlockHash stored) hobjects written
  obtain ⟨ready, hready⟩ : ∃ ready, (prepared.setBlockHash stored).withWritten written = ready :=
    ⟨_, rfl⟩
  rw [hready] at hobjects' ⊢
  have hfields : ready.hashBlockSizeList = rows.map HashList.blockSize ∧
      ready.blockHashListNames = (rows.map fun row => ascii row.hashName) ∧
      ready.hashBlockBytes = stored := by
    subst hready
    exact ⟨hsizes, hnames, rfl⟩
  obtain ⟨equal, hb, hloop, hiff⟩ := @checkLoop_eq rows digest stored byteblock hdigest hrows
    (rows.map HashList.blockSize) 0 0 rfl (by rw [hstored, Nat.zero_add]) _ hobjects'
  obtain ⟨strArray, hreport⟩ := Option.isSome_iff_exists.mp
    (@sigBytesLoop_isSome stored (rows.map fun row => ascii row.hashName)
      (rows.map HashList.blockSize) 0 0 (by simp) (by rw [hstored, Nat.zero_add]))
  have hreport' : { ready with hashListBlocks := hb }.getFileHashBlockSigBytes = some strArray := by
    rw [getFileHashBlockSigBytes]
    dsimp only
    rw [hfields.1, hfields.2.1, hfields.2.2, hreport]
  have hloop' : checkLoop digest ready.hashBlockSizeList ready.hashBlockBytes byteblock 0 0
      ready.blockHashListNames ready.hashListBlocks = some (equal, hb) := by
    rw [hfields.1, hfields.2.1, hfields.2.2, hloop]
  obtain ⟨size, hhead⟩ : ∃ size, ready.hashBlockSizeList.head? = some size := by
    obtain ⟨row, rest, rfl⟩ := List.exists_cons_of_ne_nil hne
    exact ⟨row.blockSize, by rw [hfields.1]; rfl⟩
  rw [List.drop_zero] at hiff
  rw [checkFileHashBlock, hhead, hloop']
  simp only [Option.bind_eq_bind, Option.bind_some, hreport']
  cases equal with
  | false => exact ⟨false, _, rfl, hiff⟩
  | true => exact ⟨true, _, rfl, hiff⟩

/-- The digest of `crc32`, and zeros for the other names. -/
def crcDigest (row : HashList) (text : List UInt8) : List UInt8 :=
  if row = crc32.row then crc32.sum text else List.replicate row.blockSize 0

theorem length_crcDigest (row : HashList) (text : List UInt8) :
    (crcDigest row text).length = row.blockSize := by
  unfold crcDigest
  split_ifs with hrow
  · rw [crc32.length_sum, hrow]
  · exact List.length_replicate

theorem checkFileHashBlock_iff_crc32 :
    (∀ row ∈ hlist, ∀ text, (crcDigest row text).length = row.blockSize) ∧
    [(⟨"crc32", 4⟩ : HashList), ⟨"crc32", 4⟩] ≠ [] ∧
    (∀ row ∈ [(⟨"crc32", 4⟩ : HashList), ⟨"crc32", 4⟩], row ∈ hlist) ∧
    ∃ prepared, ((⟨0, [], [], fun _ => none, []⟩ : BlockContext).calcHashBlockSize
        (rowNames [⟨"crc32", 4⟩, ⟨"crc32", 4⟩])).createHashListMap
          (rowNames [⟨"crc32", 4⟩, ⟨"crc32", 4⟩]) = some prepared ∧
      (crc32.sum [7] ++ crc32.sum [7]).length = prepared.hashBlockSize ∧
      ∃ after, ((prepared.setBlockHash (crc32.sum [7] ++ crc32.sum [7])).withWritten
          fun _ => [1, 2]).checkFileHashBlock crcDigest [7] = some (true, after) := by
  have hdigest : ∀ row ∈ hlist, ∀ text, (crcDigest row text).length = row.blockSize :=
    fun row _ => length_crcDigest row
  have hrows : ∀ row ∈ [(⟨"crc32", 4⟩ : HashList), ⟨"crc32", 4⟩], row ∈ hlist := by decide
  obtain ⟨prepared, hprepared, hcheck⟩ := checkFileHashBlock_iff ⟨0, [], [], fun _ => none, []⟩
    hdigest (by decide) hrows
  have hsize : (crc32.sum [7] ++ crc32.sum [7]).length = prepared.hashBlockSize := by
    obtain ⟨other, hprepared', htotal, -⟩ := prepare_eq ⟨0, [], [], fun _ => none, []⟩
      (by decide) hrows
    rw [hprepared, Option.some.injEq] at hprepared'
    rw [hprepared', htotal]
    decide
  obtain ⟨equal, after, heq, hiff⟩ := hcheck _ hsize (fun _ => [1, 2]) [7]
  have htrue : equal = true := hiff.mpr (by decide +kernel)
  subst htrue
  exact ⟨hdigest, by decide, hrows, prepared, hprepared, hsize, after, heq⟩

end BlockContext

end Mdencode.Go
