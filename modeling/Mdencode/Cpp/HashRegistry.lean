import Mdencode.Lib.Separated
import Mdencode.Lib.Bytes
import Mdencode.Lib.InPlace

/-! The signature registry of `mdHashContextList.h` and the hash lists built
from it. A signature's number is its position in the registry counted from
one; the last row of a registry is not a signature. -/

namespace Mdencode.Cpp

open Mdencode.Bytes Mdencode.Separated Mdencode.InPlace

inductive Signature
  | cit64 | crc32 | crc64 | edn224 | fast32 | fast64 | fnv32 | fnv32a | fnv64 | fnv64a | has160
  | hw40 | hw48 | hw64 | md2 | md4 | md5 | md6 | md62 | met641 | met642 | mx3 | png | ripe128
  | ripe160 | ripe256 | ripe320 | sea | sip32 | sip322 | sip40 | sip48 | sip64 | sip128
  | sha164 | sha1128 | sha1 | sha256 | sha384 | sha512 | spk32 | spk64 | tiger192 | xxh32
  | xxh64 | wp | wyh | last
  deriving DecidableEq, Repr

/-- A registry row: the signature, its name, and the sizes of a digest and of a key. -/
structure Hashlist where
  signature : Signature
  name : String
  blocksize : ℕ
  keysize : ℕ
  deriving DecidableEq

/-- `mdHashlist` of `mdHashContextList.h`. -/
def mdHashlist : List Hashlist :=
  [⟨.cit64, "cit64", 8, 8⟩, ⟨.crc32, "crc32", 4, 4⟩, ⟨.crc64, "crc64", 8, 8⟩,
    ⟨.edn224, "edn224", 28, 0⟩, ⟨.fast32, "fast32", 4, 4⟩, ⟨.fast64, "fast64", 8, 8⟩,
    ⟨.fnv32, "fnv32", 4, 0⟩, ⟨.fnv32a, "fnv32a", 4, 0⟩, ⟨.fnv64, "fnv64", 8, 0⟩,
    ⟨.fnv64a, "fnv64a", 8, 0⟩, ⟨.has160, "has160", 20, 0⟩, ⟨.hw40, "hw40", 5, 32⟩,
    ⟨.hw64, "hw64", 8, 32⟩, ⟨.md2, "md2", 16, 0⟩, ⟨.md4, "md4", 16, 0⟩, ⟨.md5, "md5", 16, 0⟩,
    ⟨.md6, "md6", 20, 0⟩, ⟨.md62, "md62", 20, 0⟩, ⟨.met641, "met641", 8, 4⟩,
    ⟨.met642, "met642", 8, 4⟩, ⟨.mx3, "mx3", 8, 8⟩, ⟨.png, "png", 8, 4⟩,
    ⟨.ripe128, "ripe128", 16, 0⟩, ⟨.ripe160, "ripe160", 20, 0⟩, ⟨.ripe256, "ripe256", 32, 0⟩,
    ⟨.ripe320, "ripe320", 40, 0⟩, ⟨.sea, "sea64", 8, 8⟩, ⟨.sip32, "sip32", 4, 16⟩,
    ⟨.sip322, "sip322", 4, 16⟩, ⟨.sip40, "sip40", 5, 16⟩, ⟨.sip48, "sip48", 6, 16⟩,
    ⟨.sip64, "sip64", 8, 16⟩, ⟨.sip128, "sip128", 16, 16⟩, ⟨.sha164, "sha1_64", 8, 0⟩,
    ⟨.sha1128, "sha1_128", 16, 0⟩, ⟨.sha1, "sha1", 20, 0⟩, ⟨.sha256, "sha256", 32, 0⟩,
    ⟨.sha384, "sha384", 48, 0⟩, ⟨.sha512, "sha512", 64, 0⟩, ⟨.spk32, "spk32", 4, 4⟩,
    ⟨.spk64, "spk64", 8, 8⟩, ⟨.tiger192, "tgr", 24, 0⟩, ⟨.xxh32, "xxh32", 4, 4⟩,
    ⟨.xxh64, "xxh64", 8, 8⟩, ⟨.wp, "whp", 64, 0⟩, ⟨.wyh, "wy64", 8, 48⟩, ⟨.last, "last", 8, 0⟩]

/-- `mdHashlist` of `mdHashContextListNew.h`, which has one signature more. -/
def mdHashlistNew : List Hashlist :=
  [⟨.cit64, "cit64", 8, 8⟩, ⟨.crc32, "crc32", 4, 4⟩, ⟨.crc64, "crc64", 8, 8⟩,
    ⟨.edn224, "edn224", 28, 0⟩, ⟨.fast32, "fast32", 4, 4⟩, ⟨.fast64, "fast64", 8, 8⟩,
    ⟨.fnv32, "fnv32", 4, 0⟩, ⟨.fnv32a, "fnv32a", 4, 0⟩, ⟨.fnv64, "fnv64", 8, 0⟩,
    ⟨.fnv64a, "fnv64a", 8, 0⟩, ⟨.has160, "has160", 20, 0⟩, ⟨.hw40, "hw40", 5, 32⟩,
    ⟨.hw48, "hw48", 6, 32⟩, ⟨.hw64, "hw64", 8, 32⟩, ⟨.md2, "md2", 16, 0⟩, ⟨.md4, "md4", 16, 0⟩,
    ⟨.md5, "md5", 16, 0⟩, ⟨.md6, "md6", 20, 0⟩, ⟨.md62, "md62", 20, 0⟩,
    ⟨.met641, "met641", 8, 4⟩, ⟨.met642, "met642", 8, 4⟩, ⟨.mx3, "mx3", 8, 8⟩,
    ⟨.png, "png", 8, 4⟩, ⟨.ripe128, "ripe128", 16, 0⟩, ⟨.ripe160, "ripe160", 20, 0⟩,
    ⟨.ripe256, "ripe256", 32, 0⟩, ⟨.ripe320, "ripe320", 40, 0⟩, ⟨.sea, "sea64", 8, 8⟩,
    ⟨.sip32, "sip32", 4, 16⟩, ⟨.sip322, "sip322", 4, 16⟩, ⟨.sip40, "sip40", 5, 16⟩,
    ⟨.sip48, "sip48", 6, 16⟩, ⟨.sip64, "sip64", 8, 16⟩, ⟨.sip128, "sip128", 16, 16⟩,
    ⟨.sha164, "sha1_64", 8, 0⟩, ⟨.sha1128, "sha1_128", 16, 0⟩, ⟨.sha1, "sha1", 20, 0⟩,
    ⟨.sha256, "sha256", 32, 0⟩, ⟨.sha384, "sha384", 48, 0⟩, ⟨.sha512, "sha512", 64, 0⟩,
    ⟨.spk32, "spk32", 4, 4⟩, ⟨.spk64, "spk64", 8, 8⟩, ⟨.tiger192, "tgr", 24, 0⟩,
    ⟨.xxh32, "xxh32", 4, 4⟩, ⟨.xxh64, "xxh64", 8, 8⟩, ⟨.wp, "whp", 64, 0⟩,
    ⟨.wyh, "wy64", 8, 48⟩, ⟨.last, "last", 8, 0⟩]

variable (registry : List Hashlist)

def hashlistsize : ℕ := registry.length - 1

/-- One pass of the loop of `use_std_hash_remove_dup`: the vector, the write
position and the set of the values seen. -/
def removeDupStep (state : List ℤ × ℕ × List ℤ) (i : ℕ) : List ℤ × ℕ × List ℤ :=
  let (num, pos, seen) := state
  let v := num.getD i 0
  if v ∈ seen then (num, pos, seen) else (num.set pos v, pos + 1, seen ++ [v])

def useStdHashRemoveDup (num : List ℤ) : List ℤ :=
  let (num, pos, _) := (List.range num.length).foldl removeDupStep (num, 0, [])
  num.take pos

/-- `hashlistvt` of a fresh list after `setVectorHL`. -/
def setVectorHL (v : List ℤ) : List Hashlist :=
  (useStdHashRemoveDup v).filterMap fun val : ℤ =>
    if val ≤ hashlistsize registry ∧ 0 < val then registry[(val - 1).toNat]? else none

def getHLvectorsStringNames (hashlistvt : List Hashlist) : List UInt8 :=
  join 58 (hashlistvt.map fun hash => ascii hash.name)

/-- `hclmap`: the index of the row with this name. -/
def hclmap (token : List UInt8) : Option ℕ :=
  (registry.take (hashlistsize registry)).findIdx? fun hash => ascii hash.name = token

def setVectorHLstring (hashlist : List UInt8) : List Hashlist :=
  setVectorHL registry
    (((fields 58 hashlist).filterMap (hclmap registry)).map fun hashnum : ℕ => (hashnum + 1 : ℤ))

def calcBlockSize (hashlistvt : List Hashlist) : ℕ := (hashlistvt.map Hashlist.blocksize).sum

def calcBlockKeySize (hashlistvt : List Hashlist) : ℕ := (hashlistvt.map Hashlist.keysize).sum

/-! The in-place loop keeps the first occurrence of each value -/

def firstOccurrences (num : List ℤ) : List ℤ :=
  num.foldl (fun seen v => if v ∈ seen then seen else seen ++ [v]) []

theorem firstOccurrences_concat (num : List ℤ) (v : ℤ) :
    firstOccurrences (num ++ [v]) =
      if v ∈ firstOccurrences num then firstOccurrences num else firstOccurrences num ++ [v] := by
  rw [firstOccurrences, List.foldl_append]
  rfl

theorem firstOccurrences_eq_eraseDups (num : List ℤ) : firstOccurrences num = num.eraseDups := by
  induction num using List.reverseRecOn with
  | nil => rfl
  | append_singleton num v ih =>
    rw [firstOccurrences_concat, eraseDups_concat, ih]
    exact if_congr List.mem_eraseDups rfl rfl

theorem nodup_firstOccurrences (num : List ℤ) : (firstOccurrences num).Nodup := by
  rw [firstOccurrences_eq_eraseDups]
  exact nodup_eraseDups num

theorem mem_firstOccurrences (num : List ℤ) (v : ℤ) : v ∈ firstOccurrences num ↔ v ∈ num := by
  rw [firstOccurrences_eq_eraseDups]
  exact List.mem_eraseDups

theorem firstOccurrences_of_nodup {num : List ℤ} (h : num.Nodup) : firstOccurrences num = num := by
  rw [firstOccurrences_eq_eraseDups]
  exact eraseDups_of_nodup h

/-- The accesses of one pass: `v` is read, and written at `pos` when it is new. -/
def removeDupAccesses (state : List ℤ × ℕ × List ℤ) (i : ℕ) : List (Access ℤ) :=
  let (num, pos, seen) := state
  let v := num.getD i 0
  if v ∈ seen then [.read i v] else [.read i v, .write pos v]

/-- The accesses of the first passes. -/
def removeDupLog (num : List ℤ) (passes : ℕ) : List (Access ℤ) :=
  (List.range passes).flatMap fun i =>
    removeDupAccesses ((List.range i).foldl removeDupStep (num, 0, [])) i

theorem removeDupStep_progress {num cur kept : List ℤ} {i : ℕ} {log : List (Access ℤ)}
    (h : Progress num i cur kept log) (hi : i < num.length) :
    ∃ cur' kept', removeDupStep (cur, kept.length, kept) i = (cur', kept'.length, kept') ∧
      Progress num (i + 1) cur' kept' (log ++ removeDupAccesses (cur, kept.length, kept) i) := by
  simp only [removeDupStep, removeDupAccesses, h.getD_row hi]
  split_ifs with hmem
  · exact ⟨cur, kept, rfl, h.skip hi hmem⟩
  · exact ⟨_, kept ++ [num[i]], by rw [List.length_append, List.length_singleton], h.keep hi hmem⟩

theorem foldl_removeDupStep (num : List ℤ) {i : ℕ} (hi : i ≤ num.length) :
    ∃ cur kept, (List.range i).foldl removeDupStep (num, 0, []) = (cur, kept.length, kept) ∧
      Progress num i cur kept (removeDupLog num i) := by
  induction i with
  | zero => exact ⟨num, [], rfl, .start num⟩
  | succ i ih =>
    obtain ⟨cur, kept, hfold, hprogress⟩ := ih (by omega)
    obtain ⟨cur', kept', hstep, hnext⟩ := removeDupStep_progress hprogress (by omega)
    have hlog : removeDupLog num (i + 1) =
        removeDupLog num i ++ removeDupAccesses (cur, kept.length, kept) i := by
      rw [removeDupLog, List.range_succ, List.flatMap_append, List.flatMap_singleton, hfold]
      rfl
    refine ⟨cur', kept', ?_, hlog ▸ hnext⟩
    rw [List.range_succ, List.foldl_append, hfold]
    exact hstep

theorem useStdHashRemoveDup_run (num : List ℤ) :
    DedupRun num (removeDupLog num num.length) (useStdHashRemoveDup num) := by
  obtain ⟨cur, kept, hfold, hprogress⟩ := foldl_removeDupStep num le_rfl
  rw [useStdHashRemoveDup, hfold]
  exact hprogress.run

theorem useStdHashRemoveDup_eq (num : List ℤ) : useStdHashRemoveDup num = firstOccurrences num := by
  rw [firstOccurrences_eq_eraseDups]
  exact (useStdHashRemoveDup_run num).deduplicated.eq_eraseDups

theorem firstOccurrences_filter (p : ℤ → Bool) (num : List ℤ) :
    firstOccurrences (num.filter p) = (firstOccurrences num).filter p := by
  induction num using List.reverseRecOn with
  | nil => rfl
  | append_singleton num v ih =>
    rw [List.filter_append, firstOccurrences_concat]
    cases hp : p v with
    | false =>
      rw [List.filter_cons_of_neg (by simp [hp]), List.filter_nil, List.append_nil, ih]
      split_ifs
      · rfl
      · rw [List.filter_append, List.filter_cons_of_neg (by simp [hp]), List.filter_nil,
          List.append_nil]
    | true =>
      rw [List.filter_cons_of_pos hp, List.filter_nil, firstOccurrences_concat, ih]
      simp only [List.mem_filter, hp, and_true]
      split_ifs
      · rfl
      · rw [List.filter_append, List.filter_cons_of_pos hp, List.filter_nil]

/-! Lists of registered signatures -/

/-- Every signature has a name of its own that can stand between delimiters. -/
def WellNamed : Prop :=
  ((registry.take (hashlistsize registry)).map fun hash => ascii hash.name).Nodup ∧
    ∀ hash ∈ registry.take (hashlistsize registry), 58 ∉ ascii hash.name ∧ ascii hash.name ≠ []

instance : Decidable (WellNamed registry) :=
  inferInstanceAs (Decidable (_ ∧ ∀ hash ∈ _, _))

theorem mdHashlist_wellNamed : WellNamed mdHashlist := by decide

theorem mdHashlistNew_wellNamed : WellNamed mdHashlistNew := by decide

/-- Signatures of the registry, each once. -/
structure Registered (hashlistvt : List Hashlist) : Prop where
  nodup : hashlistvt.Nodup
  mem : ∀ hash ∈ hashlistvt, hash ∈ registry.take (hashlistsize registry)

variable {registry}

theorem WellNamed.nodup (h : WellNamed registry) :
    (registry.take (hashlistsize registry)).Nodup := .of_map _ h.1

theorem getElem?_take_hashlistsize {i : ℕ} (h : i < hashlistsize registry) :
    registry[i]? = (registry.take (hashlistsize registry))[i]? := by
  rw [List.getElem?_take_of_lt h]

/-- The row a selected number stands for. -/
def rowOf (registry : List Hashlist) (val : ℤ) : Option Hashlist :=
  if val ≤ hashlistsize registry ∧ 0 < val then registry[(val - 1).toNat]? else none

theorem rowOf_eq_some {val : ℤ} {hash : Hashlist} (h : rowOf registry val = some hash) :
    ∃ i : ℕ, val = i + 1 ∧ (registry.take (hashlistsize registry))[i]? = some hash := by
  unfold rowOf at h
  split_ifs at h with hval
  · refine ⟨(val - 1).toNat, by omega, ?_⟩
    rwa [← getElem?_take_hashlistsize (by omega)]

theorem rowOf_natCast {i : ℕ} {hash : Hashlist}
    (h : (registry.take (hashlistsize registry))[i]? = some hash) :
    rowOf registry (i + 1) = some hash := by
  obtain ⟨hlt, -⟩ := List.getElem?_eq_some_iff.mp h
  rw [List.length_take] at hlt
  rw [rowOf, if_pos ⟨by omega, by omega⟩, show ((i : ℤ) + 1 - 1).toNat = i by omega,
    getElem?_take_hashlistsize (by omega), h]

theorem setVectorHL_eq (v : List ℤ) :
    setVectorHL registry v = (firstOccurrences v).filterMap (rowOf registry) := by
  rw [setVectorHL, useStdHashRemoveDup_eq]
  rfl

/-- Distinct numbers select distinct rows. -/
theorem setVectorHL_registered (h : WellNamed registry) (v : List ℤ) :
    Registered registry (setVectorHL registry v) := by
  rw [setVectorHL_eq]
  refine ⟨(nodup_firstOccurrences v).filterMap ?_, ?_⟩
  · intro val val' hash hval hval'
    obtain ⟨i, rfl, hi⟩ := rowOf_eq_some hval
    obtain ⟨j, rfl, hj⟩ := rowOf_eq_some hval'
    rw [((List.getElem?_inj (List.getElem?_eq_some_iff.mp hi).1 h.nodup).mp (hi.trans hj.symm))]
  · intro hash hmem
    obtain ⟨val, -, hval⟩ := List.mem_filterMap.mp hmem
    obtain ⟨i, -, hi⟩ := rowOf_eq_some hval
    exact List.mem_of_getElem? hi

/-- A name is looked up to the position of its row. -/
theorem hclmap_name (h : WellNamed registry) {i : ℕ} {hash : Hashlist}
    (hi : (registry.take (hashlistsize registry))[i]? = some hash) :
    hclmap registry (ascii hash.name) = some i := by
  obtain ⟨hlt, hget⟩ := List.getElem?_eq_some_iff.mp hi
  rw [hclmap, List.findIdx?_eq_some_iff_getElem]
  refine ⟨hlt, by simp [hget], fun j hj hname => ?_⟩
  have hnames := h.1
  rw [List.nodup_iff_injective_getElem] at hnames
  have heq := of_decide_eq_true hname
  rw [← hget] at heq
  have := @hnames ⟨j, by simpa using hj.trans hlt⟩ ⟨i, by simpa using hlt⟩ (by simpa using heq)
  simp only [Fin.mk.injEq] at this
  omega

/-- A list of registered signatures is read back from its names. -/
theorem setVectorHLstring_names (h : WellNamed registry) {hashlistvt : List Hashlist}
    (hreg : Registered registry hashlistvt) :
    setVectorHLstring registry (getHLvectorsStringNames hashlistvt) = hashlistvt := by
  set rows := registry.take (hashlistsize registry)
  have hrow : ∀ hash ∈ hashlistvt, rows[rows.idxOf hash]? = some hash := fun hash hmem =>
    List.getElem?_idxOf (hreg.mem hash hmem)
  have htokens : fields 58 (getHLvectorsStringNames hashlistvt) =
      hashlistvt.map fun hash => ascii hash.name := by
    apply fields_join
    intro field hfield
    obtain ⟨hash, hmem, rfl⟩ := List.mem_map.mp hfield
    exact h.2 hash (hreg.mem hash hmem)
  have hnums : (hashlistvt.map fun hash => ascii hash.name).filterMap (hclmap registry) =
      hashlistvt.map fun hash => rows.idxOf hash := by
    rw [List.filterMap_map, ← List.filterMap_eq_map]
    exact List.filterMap_congr fun hash hmem => hclmap_name h (hrow hash hmem)
  have hnodup : (hashlistvt.map fun hash => ((rows.idxOf hash : ℕ) : ℤ) + 1).Nodup := by
    apply hreg.nodup.map_on
    intro hash hmem hash' hmem' heq
    have hidx : rows.idxOf hash = rows.idxOf hash' := by omega
    have := (hrow hash hmem).symm.trans (hidx ▸ hrow hash' hmem')
    exact Option.some_inj.mp this
  rw [setVectorHLstring, htokens, hnums, List.map_map, setVectorHL_eq]
  simp only [Function.comp_def]
  rw [firstOccurrences_of_nodup hnodup, List.filterMap_map]
  calc
    hashlistvt.filterMap (rowOf registry ∘ fun hash => ((rows.idxOf hash : ℕ) : ℤ) + 1) =
        hashlistvt.filterMap some :=
      List.filterMap_congr fun hash hmem => rowOf_natCast (hrow hash hmem)
    _ = hashlistvt := List.filterMap_some

/-- The numbers that `setVectorHL` takes. -/
def inRegistry (registry : List Hashlist) (val : ℤ) : Bool :=
  decide (0 < val ∧ val ≤ hashlistsize registry)

/-- Every number in range has a row. -/
theorem map_some_filterMap_rowOf (vals : List ℤ) :
    (vals.filterMap (rowOf registry)).map some =
      (vals.filter (inRegistry registry)).map fun val => registry[(val - 1).toNat]? := by
  induction vals with
  | nil => rfl
  | cons val vals ih =>
    by_cases hval : 0 < val ∧ val ≤ hashlistsize registry
    · have hlt : (val - 1).toNat < registry.length := by
        have := hval.2
        rw [hashlistsize] at this
        omega
      have hrow : rowOf registry val = some registry[(val - 1).toNat] := by
        rw [rowOf, if_pos hval.symm, List.getElem?_eq_getElem hlt]
      have hin : inRegistry registry val = true := decide_eq_true hval
      rw [List.filterMap_cons_some hrow, List.filter_cons_of_pos hin,
        List.map_cons, List.map_cons, ih, List.getElem?_eq_getElem hlt]
    · have hrow : rowOf registry val = none := if_neg fun h => hval h.symm
      rw [List.filterMap_cons_none hrow, List.filter_cons_of_neg (by simpa [inRegistry] using hval),
        ih]

/-- The list that comes back from the names of a list made from numbers. -/
def renamed (v : List ℤ) : List Hashlist :=
  setVectorHLstring mdHashlist (getHLvectorsStringNames (setVectorHL mdHashlist v))

/-- The rows of the numbers in range, each once, in the order in which they
first occur, come back from their names. -/
theorem setVectorHL_names (v : List ℤ) :
    renamed v = setVectorHL mdHashlist v ∧
      (setVectorHL mdHashlist v).map some =
        (v.filter (inRegistry mdHashlist)).eraseDups.map
          (fun val => mdHashlist[(val - 1).toNat]?) ∧
      calcBlockSize (renamed v) = calcBlockSize (setVectorHL mdHashlist v) ∧
      calcBlockKeySize (renamed v) = calcBlockKeySize (setVectorHL mdHashlist v) := by
  have hnamed : renamed v = setVectorHL mdHashlist v := setVectorHLstring_names mdHashlist_wellNamed
    (setVectorHL_registered mdHashlist_wellNamed v)
  refine ⟨hnamed, ?_, by rw [hnamed], by rw [hnamed]⟩
  rw [← firstOccurrences_eq_eraseDups, firstOccurrences_filter, ← map_some_filterMap_rowOf,
    ← setVectorHL_eq]

/-! Sizes stay small -/

/-- What a registered list's sizes add up to is at most the registry's. -/
theorem Registered.sum_le {hashlistvt : List Hashlist} (hreg : Registered registry hashlistvt)
    (size : Hashlist → ℕ) :
    (hashlistvt.map size).sum ≤ ((registry.take (hashlistsize registry)).map size).sum := by
  obtain ⟨rows, hperm, hsub⟩ := List.subperm_of_subset hreg.nodup hreg.mem
  rw [← (hperm.map size).sum_eq]
  exact (hsub.map size).sum_le_sum (by simp)

end Mdencode.Cpp
