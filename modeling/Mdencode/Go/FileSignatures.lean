import Mathlib.Logic.Function.Basic
import Mdencode.Go.MdZipFile

/-! The file signatures of `mdZipFile.go` and their check in `mdUnzipFile.go`. A
hash object keeps what is written to it until it is reset, and an open file that
has been copied is at its end: the one file handle serves every hash of the
list, so only the first one sees the file. -/

namespace Mdencode.Go

open Mdencode.Bytes

/-! Hash objects and open files -/

/-- What has been written to each object since it was made or reset. -/
abbrev HashObjects := HashList → List UInt8

structure OpenFile where
  content : List UInt8
  pos : ℕ
  deriving DecidableEq

def osOpen (content : List UInt8) : OpenFile := ⟨content, 0⟩

namespace HashObjects

def new : HashObjects := fun _ => []

def write (objects : HashObjects) (hash : HashContext) (bytes : List UInt8) : HashObjects :=
  Function.update objects hash.row (objects hash.row ++ bytes)

def reset (objects : HashObjects) (hash : HashContext) : HashObjects :=
  Function.update objects hash.row []

def sum (objects : HashObjects) (hash : HashContext) : List UInt8 := hash.sum (objects hash.row)

/-- `io.Copy(h, f)`. -/
def copy (objects : HashObjects) (hash : HashContext) (f : OpenFile) : HashObjects × OpenFile :=
  (objects.write hash (f.content.drop f.pos), { f with pos := f.content.length })

variable (objects : HashObjects) (hash : HashContext)

@[simp] theorem write_nil : objects.write hash [] = objects := by
  rw [write, List.append_nil, Function.update_eq_self]

@[simp] theorem sum_write (bytes : List UInt8) :
    (objects.write hash bytes).sum hash = hash.sum (objects hash.row ++ bytes) := by
  rw [sum, write, Function.update_self]

theorem sum_write_of_ne {other : HashContext} (h : other.row ≠ hash.row) (bytes : List UInt8) :
    (objects.write hash bytes).sum other = objects.sum other := by
  rw [sum, write, Function.update_of_ne h, sum]

@[simp] theorem reset_self : objects.reset hash hash.row = [] := Function.update_self ..

end HashObjects

/-- The loop of `mdencodeFile` over the hashes of the file: the digest of each,
and the objects afterwards. -/
def hashLoop : List HashContext → HashObjects → OpenFile → List (List UInt8) × HashObjects
  | [], objects, _ => ([], objects)
  | hash :: rest, objects, f =>
    let (objects, f) := objects.copy hash f
    let (sums, objects') := hashLoop rest objects f
    (objects.sum hash :: sums, objects')

/-- At the end of the file nothing more is written. -/
theorem hashLoop_atEnd (hashes : List HashContext) (objects : HashObjects) (content : List UInt8) :
    hashLoop hashes objects ⟨content, content.length⟩ = (hashes.map objects.sum, objects) := by
  induction hashes with
  | nil => rfl
  | cons hash rest ih =>
    simp only [hashLoop, HashObjects.copy, List.drop_length, HashObjects.write_nil, ih,
      List.map_cons]

/-- What one object gets does not show in the digests of the others. -/
theorem map_sum_write {hash : HashContext} {rest : List HashContext}
    (hnodup : ((hash :: rest).map HashContext.row).Nodup) (objects : HashObjects)
    (bytes : List UInt8) : rest.map (objects.write hash bytes).sum = rest.map objects.sum := by
  refine List.map_congr_left fun other hmem => objects.sum_write_of_ne hash (fun heq => ?_) _
  rw [List.map_cons, List.nodup_cons] at hnodup
  exact hnodup.1 (heq ▸ List.mem_map_of_mem hmem)

/-- The first object gets the file, and the others keep what they have. -/
theorem hashLoop_osOpen {hash : HashContext} {rest : List HashContext}
    (hnodup : ((hash :: rest).map HashContext.row).Nodup) (objects : HashObjects)
    (content : List UInt8) :
    hashLoop (hash :: rest) objects (osOpen content) =
      (hash.sum (objects hash.row ++ content) :: rest.map objects.sum,
        objects.write hash content) := by
  simp only [hashLoop, HashObjects.copy, osOpen, List.drop_zero, hashLoop_atEnd,
    map_sum_write hnodup, HashObjects.sum_write]

/-- The digests that an archive holds. -/
def storedSignatures (hashes : List HashContext) (file : List UInt8) : List (List UInt8) :=
  (hashLoop hashes .new (osOpen file)).1

theorem fileSignatures_nil (hashes : List HashContext) :
    FileData.fileSignatures hashes [] = hashes.map fun hash => hash.sum [] := by
  induction hashes with
  | nil => rfl
  | cons hash rest ih => rw [FileData.fileSignatures, ih, List.map_cons]

/-- They are what the encoder writes behind the header. -/
theorem storedSignatures_eq {hashes : List HashContext}
    (hnodup : (hashes.map HashContext.row).Nodup) (file : List UInt8) :
    storedSignatures hashes file = FileData.fileSignatures hashes file := by
  cases hashes with
  | nil => rfl
  | cons hash rest =>
    rw [storedSignatures, hashLoop_osOpen hnodup, FileData.fileSignatures, fileSignatures_nil]
    rfl

/-! The check of an output file -/

/-- The loop of `PostValidate` over the names in the header. A name without an
object, or without a digest in the header, is a panic. -/
def postValidateLoop (hashListFile : List HashContext) :
    List (List UInt8) → List (List UInt8) → HashObjects → OpenFile → Option Bool
  | [], _, _, _ => some true
  | name :: names, hexList, objects, f =>
    match hashListFile.find? (fun hash => ascii hash.row.hashName = name), hexList with
    | some hash, signature :: hexList =>
      let (objects, f) := (objects.reset hash).copy hash f
      if objects.sum hash = signature then postValidateLoop hashListFile names hexList objects f
      else some false
    | _, _ => none

/-- `some true` goes on to say that the file validates, and `some false` exits
with 1. There are no objects for an empty list of names. -/
def postValidate (hashListFile : List HashContext) (fileHashListString : List UInt8)
    (fileHashHexListArray : List (List UInt8)) (output : List UInt8) : Option Bool :=
  postValidateLoop (if fileHashListString = [] then [] else hashListFile)
    (fileHashListString.splitOn 58) fileHashHexListArray .new (osOpen output)

theorem hlist_nodup : (hlist.map fun row => ascii row.hashName).Nodup := by decide +kernel

/-- Every name is looked up to its own object. -/
theorem find?_name {hashes : List HashContext} (hnodup : (hashes.map HashContext.row).Nodup)
    {hash : HashContext} (hmem : hash ∈ hashes) :
    hashes.find? (fun other => ascii other.row.hashName = ascii hash.row.hashName) =
      some hash := by
  induction hashes with
  | nil => cases hmem
  | cons head rest ih =>
    rw [List.map_cons, List.nodup_cons] at hnodup
    rcases List.mem_cons.mp hmem with rfl | hmem
    · rw [List.find?_cons_of_pos (by simp)]
    · have hne : ascii head.row.hashName ≠ ascii hash.row.hashName := by
        intro heq
        have hrow := List.inj_on_of_nodup_map hlist_nodup head.mem hash.mem heq
        exact hnodup.1 (hrow ▸ List.mem_map_of_mem hmem)
      rw [List.find?_cons_of_neg (by simpa using hne)]
      exact ih hnodup.2 hmem

section
variable {hashes rest : List HashContext} {signatures : List (List UInt8)}
  (hnodup : (hashes.map HashContext.row).Nodup)
include hnodup

theorem postValidateLoop_cons {hash : HashContext} (hmem : hash ∈ hashes)
    (names : List (List UInt8)) (signature : List UInt8) (objects : HashObjects) (f : OpenFile) :
    postValidateLoop hashes (ascii hash.row.hashName :: names) (signature :: signatures) objects f =
      if hash.sum (f.content.drop f.pos) = signature then
        postValidateLoop hashes names signatures
          ((objects.reset hash).write hash (f.content.drop f.pos))
          { f with pos := f.content.length }
      else some false := by
  simp only [postValidateLoop, find?_name hnodup hmem, HashObjects.copy, HashObjects.sum_write,
    HashObjects.reset_self, List.nil_append]

/-- At the end of the output every digest is that of no bytes. -/
theorem postValidateLoop_atEnd (hsub : ∀ hash ∈ rest, hash ∈ hashes)
    (hlen : signatures.length = rest.length) (objects : HashObjects) (content : List UInt8) :
    postValidateLoop hashes (rest.map fun hash => ascii hash.row.hashName) signatures objects
        ⟨content, content.length⟩ = some true ↔
      signatures = rest.map fun hash => hash.sum [] := by
  induction rest generalizing signatures objects with
  | nil =>
    obtain rfl := List.length_eq_zero_iff.mp hlen
    simp [postValidateLoop]
  | cons hash rest ih =>
    obtain ⟨signature, signatures, rfl⟩ := List.exists_cons_of_length_eq_add_one hlen
    rw [List.map_cons, postValidateLoop_cons hnodup (hsub hash List.mem_cons_self),
      List.drop_length, List.map_cons, List.cons.injEq]
    split_ifs with hsum
    · rw [ih (fun other hmem => hsub other (List.mem_cons_of_mem _ hmem)) (by simpa using hlen)]
      exact (and_iff_right hsum.symm).symm
    · exact iff_of_false (by simp) fun h => hsum h.1.symm

end

/-- An output is accepted exactly when it has the digests that its own archive
would hold. -/
theorem postValidate_iff {hashes : List HashContext} (hnodup : (hashes.map HashContext.row).Nodup)
    (hne : hashes ≠ []) {signatures : List (List UInt8)} (hlen : signatures.length = hashes.length)
    (output : List UInt8) :
    postValidate hashes (joinNames hashes) signatures output = some true ↔
      signatures = FileData.fileSignatures hashes output := by
  obtain ⟨hash, rest, rfl⟩ := List.exists_cons_of_ne_nil hne
  obtain ⟨signature, signatures, rfl⟩ := List.exists_cons_of_length_eq_add_one hlen
  rw [postValidate, if_neg (joinNames_ne_nil hne), splitOn_joinNames hne, List.map_cons,
    postValidateLoop_cons hnodup List.mem_cons_self, FileData.fileSignatures, fileSignatures_nil,
    List.cons.injEq]
  simp only [osOpen, List.drop_zero]
  split_ifs with hsum
  · rw [postValidateLoop_atEnd hnodup (fun other hmem => List.mem_cons_of_mem _ hmem)
      (by simpa using hlen)]
    exact (and_iff_right hsum.symm).symm
  · exact iff_of_false (by simp) fun h => hsum h.1.symm

/-- The signatures of a file are its digests, and an output is accepted exactly
when they are the output's digests too. -/
structure FileSignaturesSound (hashes : List HashContext) (file : List UInt8) : Prop where
  stored : storedSignatures hashes file = hashes.map fun hash => hash.sum file
  validated : ∀ output,
    postValidate hashes (joinNames hashes) (storedSignatures hashes file) output = some true ↔
      storedSignatures hashes file = hashes.map fun hash => hash.sum output

/-- An empty list panics; in any other, every hash but the first has to give the
digest of no bytes for all that the first one takes for the file. -/
theorem fileSignatures_sound_iff {hashes : List HashContext}
    (hnodup : (hashes.map HashContext.row).Nodup) (file : List UInt8) :
    FileSignaturesSound hashes file ↔
      hashes ≠ [] ∧ ∀ hash rest, hashes = hash :: rest → ∀ output, hash.sum output = hash.sum file →
        ∀ other ∈ rest, other.sum output = other.sum [] := by
  cases hashes with
  | nil =>
    refine iff_of_false (fun h => ?_) fun h => h.1 rfl
    have haccept := (h.validated []).mpr rfl
    rw [show joinNames [] = [] from rfl, postValidate, if_pos rfl] at haccept
    cases haccept
  | cons hash rest =>
    have hne : hash :: rest ≠ [] := List.cons_ne_nil hash rest
    have hstored (file : List UInt8) : FileData.fileSignatures (hash :: rest) file =
        hash.sum file :: rest.map fun hash => hash.sum [] := by
      rw [FileData.fileSignatures, fileSignatures_nil]
    have hlen : (FileData.fileSignatures (hash :: rest) file).length = (hash :: rest).length := by
      simp [hstored]
    constructor
    · rintro ⟨-, hvalidated⟩
      refine ⟨hne, ?_⟩
      rintro _ _ ⟨⟩ output hsame other hmem
      have haccept := hvalidated output
      rw [storedSignatures_eq hnodup, postValidate_iff hnodup hne hlen, hstored, hstored, hsame,
        List.map_cons, hsame] at haccept
      exact (List.map_inj_left.mp (List.cons.inj (haccept.mp rfl)).2 other hmem).symm
    · rintro ⟨-, hempty⟩
      have hdigests : ∀ output, hash.sum output = hash.sum file →
          (hash :: rest).map (fun hash => hash.sum output) =
            hash.sum file :: rest.map fun hash => hash.sum [] := by
        intro output hsame
        rw [List.map_cons, hsame]
        exact congrArg _ (List.map_congr_left (hempty hash rest rfl output hsame))
      refine ⟨?_, fun output => ?_⟩
      · rw [storedSignatures_eq hnodup, hstored, hdigests file rfl]
      · rw [storedSignatures_eq hnodup, postValidate_iff hnodup hne hlen, hstored, hstored]
        constructor
        · intro heq
          exact (hdigests output (List.cons.inj heq).1.symm).symm
        · intro heq
          rw [List.map_cons, List.cons.injEq] at heq
          rw [heq.1]

theorem fileSignatures_sound_iff_one : FileSignaturesSound [adler32] [1] :=
  (fileSignatures_sound_iff (by decide) [1]).mpr
    ⟨by decide, fun _ _ heq _ _ _ hmem => by cases heq; cases hmem⟩

theorem second_hash_sees_nothing : ¬ ∀ hashes : List HashContext,
    (hashes.map HashContext.row).Nodup → ∀ file, FileSignaturesSound hashes file := by
  intro h
  have hstored := (h [adler32, crc32] (by decide) [1]).stored
  have hsecond : storedSignatures [adler32, crc32] [1] = [[0, 2, 0, 2], [0, 0, 0, 0]] := by
    decide +kernel
  rw [hsecond] at hstored
  exact absurd hstored (by decide)

end Mdencode.Go
