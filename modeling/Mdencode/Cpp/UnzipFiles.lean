import Mdencode.Cpp.MdUnzip47

/-! What `mdunzipfile` of `mdUnzip47.h` does to the output path before the first
block. The old file is removed and the new one opened, which empties it, before
it is known whether the archive opens and has a version that is supported. -/

namespace Mdencode.Cpp.MdUnzip47

open Mdencode.Bytes

/-- The archive, the output path next to it, with no file or with the bytes of
one, and what the system allows. -/
structure UnzipFiles where
  archive : List UInt8
  archiveReadable : Bool
  output : Option (List UInt8)
  outputReadable : Bool
  outputRemovable : Bool
  outputWritable : Bool
  outputCreatable : Bool

namespace UnzipFiles

variable (files : UnzipFiles)

/-- A file that cannot be read counts as missing. -/
def checkIfFileExists : Bool := files.output.isSome && files.outputReadable

def remove : UnzipFiles :=
  if files.outputRemovable then { files with output := none } else files

/-- `std::ofstream wf`, and whether it is good. An output that opens is empty. -/
def openOutput : Bool × UnzipFiles :=
  if (if files.output.isSome then files.outputWritable else files.outputCreatable) then
    (true, { files with output := some [] })
  else (false, files)

end UnzipFiles

/-- `mdunzipfile` up to the version; true when it has returned 1. -/
def openFiles (overwrite : Bool) (filename : List UInt8) (files : UnzipFiles) :
    Bool × UnzipFiles :=
  if fileExtension filename ≠ ascii "mdz" ∧ fileExtension filename ≠ ascii "out" then (true, files)
  else if files.archive.length < 48 then (true, files)
  else if overwrite = false ∧ files.checkIfFileExists then (true, files)
  else
    let files := if overwrite ∧ files.checkIfFileExists then files.remove else files
    let (wf, files) := files.openOutput
    if files.archiveReadable = false then (true, files)
    else if wf = false then (true, files)
    else
      let (mdversion, _) := (IStream.ofBytes files.archive).read (toLE 8 version101)
      (validateVersion mdversion, files)

/-- A call that returns before the blocks leaves the output path as it was. -/
def LeavesOutput (overwrite : Bool) (filename : List UInt8) (files : UnzipFiles) : Prop :=
  (openFiles overwrite filename files).1 = true →
    (openFiles overwrite filename files).2.output = files.output

/-! What has become of the output -/

section
variable (overwrite : Bool) (filename : List UInt8) (files : UnzipFiles)

/-- Returned before anything is done to the output. -/
def RejectedFirst : Prop :=
  (fileExtension filename ≠ ascii "mdz" ∧ fileExtension filename ≠ ascii "out") ∨
    files.archive.length < 48 ∨ (overwrite = false ∧ files.checkIfFileExists = true)

/-- `--over` takes an old file away. -/
def Removes : Prop :=
  overwrite = true ∧ files.checkIfFileExists = true ∧ files.outputRemovable = true

instance : Decidable (Removes overwrite files) := inferInstanceAs (Decidable (_ ∧ _ ∧ _))

/-- The output can be opened, an old file or one in its place. -/
def Opens : Prop :=
  if files.output.isSome = true ∧ ¬ Removes overwrite files then files.outputWritable = true
  else files.outputCreatable = true

instance : Decidable (Opens overwrite files) :=
  inferInstanceAs (Decidable (if _ ∧ _ then _ else _))

/-- The archive can be read and its version is supported. -/
def Supported : Prop :=
  files.archiveReadable = true ∧ validateVersion (files.archive.take 8) = false

end

section
variable {overwrite : Bool} {filename : List UInt8} {files : UnzipFiles}

theorem openFiles_of_rejectedFirst (h : RejectedFirst overwrite filename files) :
    openFiles overwrite filename files = (true, files) := by
  unfold openFiles
  rcases h with hext | hlen | hfound
  · rw [if_pos hext]
  · rw [if_pos hlen, ite_self]
  · rw [if_pos hfound, ite_self, ite_self]

theorem read_mdversion {archive : List UInt8} (hlen : 8 ≤ archive.length) :
    (IStream.ofBytes archive).read (toLE 8 version101) =
      (archive.take 8, IStream.ofBytes (archive.drop 8)) := by
  rw [IStream.read_of_le (by rw [length_toLE]; exact hlen), length_toLE]

theorem removed_eq (overwrite : Bool) (files : UnzipFiles) :
    (if overwrite ∧ files.checkIfFileExists then files.remove else files) =
      if Removes overwrite files then { files with output := none } else files := by
  by_cases hfound : overwrite ∧ files.checkIfFileExists
  · rw [if_pos hfound, UnzipFiles.remove]
    exact if_congr (by simp [Removes, hfound]) rfl rfl
  · rw [if_neg hfound, if_neg fun h => hfound ⟨h.1, h.2.1⟩]

theorem openOutput_eq (overwrite : Bool) (files : UnzipFiles) :
    (if overwrite ∧ files.checkIfFileExists then files.remove else files).openOutput =
      if Opens overwrite files then (true, { files with output := some [] })
      else (false, if Removes overwrite files then { files with output := none } else files) := by
  rw [removed_eq]
  unfold UnzipFiles.openOutput Opens
  by_cases hremoves : Removes overwrite files
  · simp [hremoves]
  · by_cases hout : files.output.isSome <;> simp [hremoves, hout]

/-- Past the first checks the output is emptied, or gone, or as it was, before
anything is known of the archive. -/
theorem openFiles_of_not_rejectedFirst (h : ¬ RejectedFirst overwrite filename files) :
    ((openFiles overwrite filename files).1 = true ↔
      ¬ (Opens overwrite files ∧ Supported files)) ∧
    (openFiles overwrite filename files).2.output =
      if Opens overwrite files then some []
      else if Removes overwrite files then none else files.output := by
  rw [RejectedFirst, not_or, not_or] at h
  obtain ⟨hext, hlen, hfound⟩ := h
  unfold openFiles
  rw [if_neg hext, if_neg hlen, if_neg hfound]
  dsimp only
  rw [openOutput_eq]
  by_cases hopens : Opens overwrite files
  · rw [if_pos hopens, if_pos hopens]
    dsimp only
    rw [read_mdversion (by omega)]
    by_cases hreadable : files.archiveReadable = false
    · rw [if_pos hreadable]
      exact ⟨by simp [Supported, hreadable], rfl⟩
    · rw [if_neg hreadable, if_neg (by simp)]
      exact ⟨by simp [Supported, hreadable, hopens], rfl⟩
  · rw [if_neg hopens, if_neg hopens]
    dsimp only
    rw [if_pos rfl, ite_self]
    refine ⟨by simp [hopens], ?_⟩
    split_ifs <;> rfl

/-- The output stays when the call goes on to the blocks, when it is returned
from before the output is touched, and when there is nothing to lose: an empty
file to open, or none that can be opened or removed. -/
theorem leavesOutput_iff (overwrite : Bool) (filename : List UInt8) (files : UnzipFiles) :
    LeavesOutput overwrite filename files ↔
      RejectedFirst overwrite filename files ∨
      (Opens overwrite files ∧ (Supported files ∨ files.output = some [])) ∨
      (¬ Opens overwrite files ∧ ¬ Removes overwrite files) := by
  by_cases hfirst : RejectedFirst overwrite filename files
  · exact iff_of_true (fun _ => by rw [openFiles_of_rejectedFirst hfirst]) (.inl hfirst)
  · obtain ⟨hreturned, houtput⟩ := openFiles_of_not_rejectedFirst hfirst
    rw [LeavesOutput, hreturned, houtput]
    by_cases hopens : Opens overwrite files
    · simp only [hfirst, hopens, true_and, if_true, not_true, false_and, false_or, or_false,
        eq_comm]
      tauto
    · by_cases hremoves : Removes overwrite files
      · have hsome : files.output ≠ none := by
          rintro hnone
          have hfound := hremoves.2.1
          rw [UnzipFiles.checkIfFileExists, hnone] at hfound
          cases hfound
        simp [hfirst, hopens, hremoves, hsome.symm]
      · simp [hopens, hremoves]

end

/-- With `--over` the output of an earlier run is lost to an archive of zeros. -/
theorem unsupported_version_empties_output :
    ¬ ∀ overwrite filename files, LeavesOutput overwrite filename files := by
  intro h
  have hleaves := h true (ascii "a.mdz")
    { archive := List.replicate 48 0
      archiveReadable := true
      output := some [1]
      outputReadable := true
      outputRemovable := true
      outputWritable := true
      outputCreatable := true } (by decide)
  revert hleaves
  decide

/-! The calls that go on to the blocks -/

theorem readHeader_eq_none_iff (memory : Unzip47Memory) {archive : List UInt8}
    (hlen : 8 ≤ archive.length) :
    readHeader memory (IStream.ofBytes archive) = .ok none ↔
      validateVersion (archive.take 8) = true := by
  unfold readHeader
  rw [read_mdversion hlen]
  dsimp only
  split_ifs with hinvalid
  · exact iff_of_true rfl hinvalid
  · refine iff_of_false (fun h => ?_) hinvalid
    obtain ⟨_, -, h⟩ := exists_of_bind_eq_ok h
    obtain ⟨_, -, h⟩ := exists_of_bind_eq_ok h
    obtain ⟨_, -, h⟩ := exists_of_bind_eq_ok h
    obtain ⟨_, -, h⟩ := exists_of_bind_eq_ok h
    cases h

theorem mdunzipfile_eq_none_iff (lib : HashLibrary) (memory : Unzip47Memory) (threadcount : ℕ)
    (filename archive : List UInt8) :
    mdunzipfile lib memory threadcount filename archive = .ok none ↔
      (fileExtension filename ≠ ascii "mdz" ∧ fileExtension filename ≠ ascii "out") ∨
        archive.length < 48 ∨ validateVersion (archive.take 8) = true := by
  unfold mdunzipfile
  split_ifs with hext hlen
  · simp [hext]
  · simp [hlen]
  · have hheader : readHeader memory (IStream.ofBytes archive) = .ok none ↔ _ :=
      readHeader_eq_none_iff memory (by omega)
    rw [or_iff_right hext, or_iff_right hlen, ← hheader]
    constructor
    · intro h
      obtain ⟨header, hread, h⟩ := exists_of_bind_eq_ok h
      cases header with
      | none => exact hread
      | some header =>
        obtain ⟨_, -, h⟩ := exists_of_bind_eq_ok h
        dsimp only at h
        split_ifs at h
        obtain ⟨_, -, h⟩ := exists_of_bind_eq_ok h
        cases h
    · intro hread
      rw [hread]
      rfl

/-- The rest of the call is the one on an archive and an output that are there. -/
theorem openFiles_eq_false_iff (lib : HashLibrary) (memory : Unzip47Memory) (threadcount : ℕ)
    (overwrite : Bool) (filename : List UInt8) (files : UnzipFiles) :
    (openFiles overwrite filename files).1 = false ↔
      mdunzipfile lib memory threadcount filename files.archive ≠ .ok none ∧
        files.archiveReadable = true ∧ Opens overwrite files ∧
        ¬ (overwrite = false ∧ files.checkIfFileExists = true) := by
  rw [Ne, mdunzipfile_eq_none_iff, not_or, not_or, Bool.not_eq_true (validateVersion _)]
  by_cases hfirst : RejectedFirst overwrite filename files
  · rw [openFiles_of_rejectedFirst hfirst]
    unfold RejectedFirst at hfirst
    apply iff_of_false (by simp)
    tauto
  · rw [← Bool.not_eq_true (openFiles _ _ _).1, (openFiles_of_not_rejectedFirst hfirst).1, not_not,
      Supported]
    unfold RejectedFirst at hfirst
    tauto

end Mdencode.Cpp.MdUnzip47
