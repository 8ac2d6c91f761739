import Mdencode.Go.MdEncodeALL

/-! Whether what `mdencode` calls for a file depends on the other files of the
run. Block objects are reset behind every digest and forget. File objects are
never reset, and of them only the first sees a file. -/

namespace Mdencode.Go

open Mdencode.Bytes Mdencode.Numerals

/-! The file objects through a run -/

/-- The file objects when the files so far put together are `written`. -/
def objectsAfter : List HashContext → List UInt8 → HashObjects
  | [], _ => .new
  | hash :: _, written => HashObjects.new.write hash written

/-- What comes out as the signatures of the next file. -/
def signaturesAfter : List HashContext → List UInt8 → List UInt8 → List (List UInt8)
  | [], _, _ => []
  | hash :: rest, written, content =>
    hash.sum (written ++ content) :: rest.map fun other => other.sum []

def digests (hashes : List HashContext) (content : List UInt8) : List (List UInt8) :=
  hashes.map fun hash => hash.sum content

theorem length_digests (hashes : List HashContext) (content : List UInt8) :
    (digests hashes content).length = hashes.length := List.length_map _

theorem objectsAfter_nil (hashes : List HashContext) : objectsAfter hashes [] = .new := by
  cases hashes with
  | nil => rfl
  | cons hash rest => rw [objectsAfter, HashObjects.write_nil]

theorem length_signaturesAfter (hashes : List HashContext) (written content : List UInt8) :
    (signaturesAfter hashes written content).length = hashes.length := by
  cases hashes with
  | nil => rfl
  | cons hash rest => rw [signaturesAfter, List.length_cons, List.length_map, List.length_cons]

theorem hashLoop_objectsAfter {hashes : List HashContext}
    (hnodup : (hashes.map HashContext.row).Nodup) (written content : List UInt8) :
    hashLoop hashes (objectsAfter hashes written) (osOpen content) =
      (signaturesAfter hashes written content, objectsAfter hashes (written ++ content)) := by
  cases hashes with
  | nil => rfl
  | cons hash rest =>
    have hheld : HashObjects.new.write hash written hash.row = written := by
      rw [HashObjects.write, Function.update_self]
      rfl
    have hrest : rest.map (HashObjects.new.write hash written).sum =
        rest.map fun other => other.sum [] := map_sum_write hnodup .new written
    have hwrite : (HashObjects.new.write hash written).write hash content =
        HashObjects.new.write hash (written ++ content) := by
      rw [HashObjects.write, hheld, HashObjects.write, Function.update_idem]
      rfl
    rw [objectsAfter, hashLoop_osOpen hnodup, hheld, hrest, hwrite]
    rfl

/-- The signatures are the digests only if the head forgets what was written
before, and the others never needed to see the file. -/
theorem signaturesAfter_eq_digests_iff (hashes : List HashContext) (written content : List UInt8) :
    signaturesAfter hashes written content = digests hashes content ↔
      ∀ hash rest, hashes = hash :: rest → hash.sum (written ++ content) = hash.sum content ∧
        ∀ other ∈ rest, other.sum [] = other.sum content := by
  cases hashes with
  | nil => exact iff_of_true rfl fun hash rest h => by cases h
  | cons hash rest =>
    rw [signaturesAfter, digests, List.map_cons, List.cons.injEq, List.map_inj_left]
    constructor
    · rintro h _ _ ⟨⟩
      exact h
    · intro h
      exact h hash rest rfl

namespace MdEncode

variable (l : MdEncode)

/-- What a run calls, when the files before it put together are `written`. -/
def directoryCalls : List UInt8 → List InputFile → List (List FormatterCall)
  | _, [] => []
  | written, file :: files =>
    l.fileCalls (signaturesAfter l.fileHashList written file.content) file ::
      directoryCalls (written ++ file.content) files

theorem mdencodeDirectory_eq (written : List UInt8) (files : List InputFile) :
    l.mdencodeDirectory ⟨objectsAfter l.fileHashList written, .new⟩ files =
      some (l.directoryCalls written files) := by
  induction files generalizing written with
  | nil => rfl
  | cons file files ih =>
    rw [mdencodeDirectory, mdencodeFile_eq, hashLoop_objectsAfter l.fileHash_nodup]
    dsimp only
    rw [Option.bind_some, ih, Option.map_some, directoryCalls]

/-- A run always comes to its end. -/
theorem mdencode_eq (files : List InputFile) :
    l.mdencode files = some (l.directoryCalls [] files) := by
  have hrun := l.mdencodeDirectory_eq [] files
  rwa [objectsAfter_nil] at hrun

def contents (files : List InputFile) : List UInt8 := files.flatMap InputFile.content

theorem getElem?_directoryCalls (written : List UInt8) (files : List InputFile) (k : ℕ) :
    (l.directoryCalls written files)[k]? = files[k]?.map fun file =>
      l.fileCalls (signaturesAfter l.fileHashList (written ++ contents (files.take k)) file.content)
        file := by
  induction files generalizing written k with
  | nil => rfl
  | cons file files ih =>
    cases k with
    | zero => simp [directoryCalls, contents]
    | succ k => simp [directoryCalls, contents, ih]

/-- What a run calls for its `k`-th file. -/
def callsFor (files : List InputFile) (k : ℕ) : List FormatterCall :=
  ((l.mdencode files).bind fun calls => calls[k]?).getD []

theorem callsFor_eq {files : List InputFile} {k : ℕ} {file : InputFile}
    (h : files[k]? = some file) :
    l.callsFor files k =
      l.fileCalls (signaturesAfter l.fileHashList (contents (files.take k)) file.content) file := by
  rw [callsFor, mdencode_eq, Option.bind_some, getElem?_directoryCalls, h, List.nil_append]
  rfl

/-! The signatures and the block records among the calls -/

theorem isFileHash_of_mem {signatures : List (List UInt8)} {call : FormatterCall}
    (h : call ∈ l.fileHashCalls signatures) : call.isFileHash = true ∧ call.isBlock = false := by
  rw [fileHashCalls] at h
  split_ifs at h
  · obtain rfl := List.mem_singleton.mp h
    exact ⟨rfl, rfl⟩
  · obtain ⟨k, hk, rfl⟩ := List.mem_iff_getElem.mp h
    simp only [mdencodeFileHashes, List.getElem_zipWith]
    exact ⟨rfl, rfl⟩

theorem isBlock_of_mem {content : List UInt8} {call : FormatterCall}
    (h : call ∈ l.blockCalls content) : call.isBlock = true ∧ call.isFileHash = false := by
  rw [blockCalls] at h
  split_ifs at h
  · obtain ⟨block, -, rfl⟩ := List.mem_map.mp h
    exact ⟨rfl, rfl⟩
  · cases h

theorem filter_isFileHash (signatures : List (List UInt8)) (file : InputFile) :
    (l.fileCalls signatures file).filter FormatterCall.isFileHash = l.fileHashCalls signatures := by
  have hkeep : (l.fileHashCalls signatures).filter FormatterCall.isFileHash =
      l.fileHashCalls signatures :=
    List.filter_eq_self.mpr fun call hmem => (l.isFileHash_of_mem hmem).1
  have hdrop : (l.blockCalls file.content).filter FormatterCall.isFileHash = [] :=
    List.filter_eq_nil_iff.mpr fun call hmem => by simp [(l.isBlock_of_mem hmem).2]
  have hheader : (l.headerCall file).isFileHash = false := rfl
  have hend : FormatterCall.encodeEndFile.isFileHash = false := rfl
  simp [fileCalls, hheader, hkeep, hdrop, hend]

theorem filter_isBlock (signatures : List (List UInt8)) (file : InputFile) :
    (l.fileCalls signatures file).filter FormatterCall.isBlock = l.blockCalls file.content := by
  have hkeep :
      (l.blockCalls file.content).filter FormatterCall.isBlock = l.blockCalls file.content :=
    List.filter_eq_self.mpr fun call hmem => (l.isBlock_of_mem hmem).1
  have hdrop : (l.fileHashCalls signatures).filter FormatterCall.isBlock = [] :=
    List.filter_eq_nil_iff.mpr fun call hmem => by simp [(l.isFileHash_of_mem hmem).2]
  have hheader : (l.headerCall file).isBlock = false := rfl
  have hend : FormatterCall.encodeEndFile.isBlock = false := rfl
  simp [fileCalls, hheader, hkeep, hdrop, hend]

/-- A line of digests between colons says what the digests are. -/
theorem joinTexts_hexEncode_inj {xs ys : List (List UInt8)} (hlen : xs.length = ys.length)
    (h : joinTexts (xs.map hexEncode) = joinTexts (ys.map hexEncode)) : xs = ys := by
  have hsplit : ∀ zs : List (List UInt8), zs ≠ [] →
      (joinTexts (zs.map hexEncode)).splitOn 58 = zs.map hexEncode := by
    intro zs hne
    refine List.splitOn_intercalate 58 ?_ (by simpa using hne)
    intro text hmem
    obtain ⟨bytes, -, rfl⟩ := List.mem_map.mp hmem
    exact colon_notMem_hexEncode bytes
  rcases eq_or_ne xs [] with rfl | hne
  · exact (List.length_eq_zero_iff.mp hlen.symm).symm
  · have hne' : ys ≠ [] := by
      rintro rfl
      exact hne (List.length_eq_zero_iff.mp hlen)
    apply List.map_injective_iff.mpr hexEncode_injective
    rw [← hsplit xs hne, h, hsplit ys hne']

theorem fileHashCalls_inj {xs ys : List (List UInt8)} (hx : xs.length = l.fileHashList.length)
    (hy : ys.length = l.fileHashList.length) (h : l.fileHashCalls xs = l.fileHashCalls ys) :
    xs = ys := by
  rw [fileHashCalls, fileHashCalls] at h
  split_ifs at h
  · rw [mdencodeFileHashLine, mdencodeFileHashLine, List.cons.injEq,
      FormatterCall.encodeFileHash.injEq] at h
    exact joinTexts_hexEncode_inj (hx.trans hy.symm) h.1.2
  · refine List.ext_getElem (hx.trans hy.symm) fun k hkx hky => hexEncode_injective ?_
    have hget := congrArg (fun calls => calls[k]?) h
    simp only [mdencodeFileHashes, List.getElem?_zipWith, List.getElem?_eq_getElem hkx,
      List.getElem?_eq_getElem hky, List.getElem?_eq_getElem (hx ▸ hkx : k < l.fileHashList.length),
      Option.some.injEq, FormatterCall.encodeFileHash.injEq] at hget
    exact hget.2

/-! Independence of the other files -/

def SignaturesAreDigests (files : List InputFile) : Prop :=
  ∀ k file, files[k]? = some file → (l.callsFor files k).filter FormatterCall.isFileHash =
    l.fileHashCalls (digests l.fileHashList file.content)

/-- In two runs every file signature is the digest of its file, and a content
that both of them see gets the same signatures and the same block records. -/
structure OrderIndependent (files files' : List InputFile) : Prop where
  digests : l.SignaturesAreDigests files ∧ l.SignaturesAreDigests files'
  same : ∀ k k' file file', files[k]? = some file → files'[k']? = some file' →
    file.content = file'.content →
    (l.callsFor files k).filter FormatterCall.isFileHash =
        (l.callsFor files' k').filter FormatterCall.isFileHash ∧
      (l.callsFor files k).filter FormatterCall.isBlock =
        (l.callsFor files' k').filter FormatterCall.isBlock

/-- The first hash takes every file of a run and all files up to it for the
same, and the others take it for the empty file. -/
def LeaksNothing (files : List InputFile) : Prop :=
  ∀ hash rest, l.fileHashList = hash :: rest → ∀ k file, files[k]? = some file →
    hash.sum (contents (files.take k) ++ file.content) = hash.sum file.content ∧
      ∀ other ∈ rest, other.sum [] = other.sum file.content

theorem signaturesAreDigests_iff (files : List InputFile) :
    l.SignaturesAreDigests files ↔ l.LeaksNothing files := by
  have hcalls : ∀ k file, files[k]? = some file →
      ((l.callsFor files k).filter FormatterCall.isFileHash =
          l.fileHashCalls (Go.digests l.fileHashList file.content) ↔
        signaturesAfter l.fileHashList (contents (files.take k)) file.content =
          Go.digests l.fileHashList file.content) := by
    intro k file hk
    rw [l.callsFor_eq hk, filter_isFileHash]
    refine ⟨l.fileHashCalls_inj (length_signaturesAfter ..) (length_digests ..),
      fun h => by rw [h]⟩
  constructor
  · intro h hash rest hlist k file hk
    exact (signaturesAfter_eq_digests_iff ..).mp
      ((hcalls k file hk).mp (h k file hk)) hash rest hlist
  · intro h k file hk
    exact (hcalls k file hk).mpr ((signaturesAfter_eq_digests_iff ..).mpr fun hash rest hlist =>
      h hash rest hlist k file hk)

/-- Block records never see another file. -/
theorem blockRecords_eq {files files' : List InputFile} {k k' : ℕ} {file file' : InputFile}
    (hk : files[k]? = some file) (hk' : files'[k']? = some file')
    (hcontent : file.content = file'.content) :
    (l.callsFor files k).filter FormatterCall.isBlock =
      (l.callsFor files' k').filter FormatterCall.isBlock := by
  rw [l.callsFor_eq hk, l.callsFor_eq hk', filter_isBlock, filter_isBlock, hcontent]

theorem orderIndependent_iff (files files' : List InputFile) :
    l.OrderIndependent files files' ↔ l.LeaksNothing files ∧ l.LeaksNothing files' := by
  rw [← signaturesAreDigests_iff, ← signaturesAreDigests_iff]
  constructor
  · intro h
    exact h.digests
  · intro h
    refine ⟨h, fun k k' file file' hk hk' hcontent => ⟨?_, l.blockRecords_eq hk hk' hcontent⟩⟩
    rw [h.1 k file hk, h.2 k' file' hk', hcontent]

/-- One file hash and no block hash. -/
def oneHash : MdEncode where
  byteblock := false
  byteblockint := false
  filehashline := false
  blocksize := 0
  bitsize := 0
  fileHashList := [adler32]
  blockHashList := []
  blocksize_lt := by decide
  bitsize_lt := by decide
  fileHash_nodup := by decide
  blockHash_nodup := by decide
  hashes_lt := by decide

/-- One file hash, one block hash, and blocks of one byte. -/
def byteBlocks (byteblock : Bool) : MdEncode :=
  { oneHash with
    byteblock
    blocksize := 1
    bitsize := 8
    blockHashList := [crc32]
    blocksize_lt := by decide
    bitsize_lt := by decide
    blockHash_nodup := by decide
    hashes_lt := by decide }

theorem one_lt_int64 : 1 < 2 ^ 63 := by norm_num

def fileA : InputFile := ⟨[97], [47], [1], by decide, one_lt_int64, one_lt_int64, one_lt_int64⟩

def fileB : InputFile := ⟨[98], [47], [2], by decide, one_lt_int64, one_lt_int64, one_lt_int64⟩

/-- A run over two files hashes the second one with the first. -/
theorem second_file_sees_first :
    ¬ ∀ (l : MdEncode) (files files' : List InputFile), l.OrderIndependent files files' := by
  intro h
  have hleaks := (h oneHash [fileA, fileB] [fileB]).same 1 0 fileB fileB rfl rfl rfl
  exact absurd hleaks.1 (by decide)

end MdEncode

end Mdencode.Go
