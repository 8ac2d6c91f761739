import Mdencode.Cpp.VendoredHash
import Mdencode.Cpp.FileValidation
import Mdencode.Cpp.UnzipTotal

/-! What the vendored hash functions do for the programs. Blocks of at most one
word are told apart by their signature, so a file in such blocks comes back
whatever is in it; and under `--val` no output is accepted that differs from the
file within one word. -/

namespace Mdencode.Cpp

open Mdencode.Bytes Mdencode.Chunks Mdencode.WordHash Mdencode.Transition

/-- The bytes and the value of a hash whose source is at hand, as
`setByteBlockHashList` calls it. -/
def vendoredHash (function : HashFunction) (key buf : List UInt8) : Option (ℕ × ℕ) :=
  match function with
  | .crc32 => some (4, (crc32 (BitVec.ofNat 32 (ofLE key)) buf).toNat)
  | .crc64 => some (8, (crc64 (BitVec.ofNat 64 (ofLE key)) buf).toNat)
  | .fasthash64 => some (8, (fasthash64 buf (BitVec.ofNat 64 (ofLE key))).toNat)
  | .fnv32_1 => some (4, (fnv1 16777619#32 buf 0x811c9dc5#32).toNat)
  | .fnv32_1a => some (4, (fnv1a 16777619#32 buf 0x811c9dc5#32).toNat)
  | .fnv64_1 => some (8, (fnv1 1099511628211#64 buf 0xcbf29ce484222325#64).toNat)
  | .fnv64_1a => some (8, (fnv1a 1099511628211#64 buf 0xcbf29ce484222325#64).toNat)
  | .mx3 => some (8, (mx3Hash buf (BitVec.ofNat 64 (ofLE key))).toNat)
  | .seahash => some (8, (seahash buf (BitVec.ofNat 64 (ofLE key))).toNat)
  | _ => none

/-- The hash functions, with those whose source is at hand for what they are. -/
def HashCalls.withVendored (calls : HashCalls) : HashCalls where
  hash := fun function key buf k =>
    match vendoredHash function key buf with
    | some (w, value) => (toLE w value).getD k 0
    | none => calls.hash function key buf k
  stream := calls.stream

/-- The bytes of a word of these functions. -/
def wordBytes : Signature → Option ℕ
  | .crc32 => some 4
  | .crc64 | .fast64 | .mx3 | .sea => some 8
  | .fnv32 | .fnv32a | .fnv64 | .fnv64a => some 1
  | _ => none

/-- What such a signature is made of, for a block and for a file. -/
structure WordSignature (signature : Signature) (n : ℕ) (d : Digest) : Prop where
  digest : digest signature = some d
  fileDigest : fileDigest signature = some d
  added : addedWidth d.function = some d.length
  dvd : n ∣ kReadBufSize
  vendored : ∀ key, ∃ value : List UInt8 → ℕ, Notices n value ∧
    ∀ buf, vendoredHash d.function key buf = some (d.length, value buf) ∧
      value buf < 256 ^ d.length

theorem wordSignature_of_hash {signature : Signature} {n : ℕ} {d : Digest}
    (hash : List UInt8 → List UInt8 → BitVec (8 * d.length))
    (hnotices : ∀ key, Notices n (hash key))
    (hvendored : ∀ key buf, vendoredHash d.function key buf =
      some (d.length, (hash key buf).toNat))
    (hdigest : digest signature = some d) (hfile : fileDigest signature = some d)
    (hadded : addedWidth d.function = some d.length) (hdvd : n ∣ kReadBufSize) :
    WordSignature signature n d := by
  refine ⟨hdigest, hfile, hadded, hdvd, fun key => ⟨fun buf => (hash key buf).toNat, ?_, ?_⟩⟩
  · exact (hnotices key).comp fun _ _ => BitVec.eq_of_toNat_eq
  · intro buf
    refine ⟨hvendored key buf, ?_⟩
    rw [show 256 = 2 ^ 8 by norm_num, ← pow_mul]
    exact (hash key buf).isLt

theorem exists_wordSignature {signature : Signature} {n : ℕ} (hn : n ∈ wordBytes signature) :
    ∃ d, WordSignature signature n d := by
  cases signature <;> cases hn
  case crc32 =>
    exact ⟨_, wordSignature_of_hash _ (fun key => crc32_notices (BitVec.ofNat 32 (ofLE key)))
      (fun _ _ => rfl) rfl rfl rfl (by decide)⟩
  case crc64 =>
    exact ⟨_, wordSignature_of_hash _ (fun key => crc64_notices (BitVec.ofNat 64 (ofLE key)))
      (fun _ _ => rfl) rfl rfl rfl (by decide)⟩
  case fast64 =>
    exact ⟨_, wordSignature_of_hash _ (fun key => fasthash64_notices (BitVec.ofNat 64 (ofLE key)))
      (fun _ _ => rfl) rfl rfl rfl (by decide)⟩
  case mx3 =>
    exact ⟨_, wordSignature_of_hash _ (fun key => mx3Hash_notices (BitVec.ofNat 64 (ofLE key)))
      (fun _ _ => rfl) rfl rfl rfl (by decide)⟩
  case sea =>
    exact ⟨_, wordSignature_of_hash _ (fun key => seahash_notices (BitVec.ofNat 64 (ofLE key)))
      (fun _ _ => rfl) rfl rfl rfl (by decide)⟩
  case fnv32 =>
    exact ⟨_, wordSignature_of_hash _ (fun _ => fnv1_notices (by decide) (by decide) _)
      (fun _ _ => rfl) rfl rfl rfl (by decide)⟩
  case fnv32a =>
    exact ⟨_, wordSignature_of_hash _ (fun _ => fnv1a_notices (by decide) (by decide) _)
      (fun _ _ => rfl) rfl rfl rfl (by decide)⟩
  case fnv64 =>
    exact ⟨_, wordSignature_of_hash _ (fun _ => fnv1_notices (by decide) (by decide) _)
      (fun _ _ => rfl) rfl rfl rfl (by decide)⟩
  case fnv64a =>
    exact ⟨_, wordSignature_of_hash _ (fun _ => fnv1a_notices (by decide) (by decide) _)
      (fun _ _ => rfl) rfl rfl rfl (by decide)⟩

section
variable {calls : HashCalls} {signature : Signature} {n : ℕ} {d : Digest} {keys : Registers}

theorem WordSignature.withVendored (h : WordSignature signature n d) (calls : HashCalls)
    (key : List UInt8) : ∃ value : List UInt8 → ℕ, Notices n value ∧ ∀ buf,
      value buf < 256 ^ d.length ∧
        (List.range d.length).map (calls.withVendored.hash d.function key buf) =
          toLE d.length (value buf) := by
  obtain ⟨value, hnotices, hvalue⟩ := h.vendored key
  refine ⟨value, hnotices, fun buf => ?_⟩
  obtain ⟨hvendored, hlt⟩ := hvalue buf
  have hbytes : calls.withVendored.hash d.function key buf =
      fun k => (toLE d.length (value buf)).getD k 0 := by
    funext k
    simp only [HashCalls.withVendored, hvendored]
  exact ⟨hlt, by rw [hbytes, map_range_getD _ (length_toLE _ _)]⟩

/-- The digest of a block notices a change within a word. -/
theorem WordSignature.block (h : WordSignature signature n d) (calls : HashCalls)
    (keys : Registers) : Notices n (d.run calls.withVendored.library.hash keys) := by
  obtain ⟨value, hnotices, hvalue⟩ := h.withVendored calls (keys.dump d.key)
  have hrun (data : List UInt8) :
      d.run calls.withVendored.library.hash keys data = toLE d.length (value data) :=
    (hvalue data).2
  intro before x y after hbefore hlen hle hafter heq
  rw [hrun, hrun] at heq
  exact hnotices before x y after hbefore hlen hle hafter
    (toLE_inj (hvalue _).1 (hvalue _).1 heq)

/-- So does the digest of a file, which adds up what its reads give. -/
theorem WordSignature.file (h : WordSignature signature n d) (calls : HashCalls)
    (keys : Registers) : Notices n (d.run calls.withVendored.library.fileHash keys) := by
  obtain ⟨value, hnotices, hvalue⟩ := h.withVendored calls (keys.dump d.key)
  have hpos : 0 < 256 ^ d.length := Nat.pow_pos (by norm_num)
  have hcalls : calls.withVendored.value d.length d.function (keys.dump d.key) = value := by
    funext buf
    obtain ⟨hlt, hmap⟩ := hvalue buf
    rw [HashCalls.value, hmap, ofLE_toLE, Nat.mod_eq_of_lt hlt]
  have hrun (file : List UInt8) : d.run calls.withVendored.library.fileHash keys file =
      toLE d.length (wrappedSum (256 ^ d.length) value (untilShort kReadBufSize file)) := by
    rw [← hcalls]
    exact run_of_added h.added rfl calls.withVendored keys file
  have hsum := hnotices.wrappedSum (by decide) h.dvd fun buf => (hvalue buf).1
  intro before x y after hbefore hlen hle hafter heq
  rw [hrun, hrun] at heq
  exact hsum before x y after hbefore hlen hle hafter
    (toLE_inj (wrappedSum_lt hpos _ _) (wrappedSum_lt hpos _ _) heq)

end

/-- All of such a digest is stored, and compared. -/
theorem mdHashlist_wordLength : ∀ hash ∈ mdHashlist.take (hashlistsize mdHashlist),
    wordBytes hash.signature ≠ none → ∀ d ∈ digest hash.signature,
      hash.blocksize = d.length ∧ fileComparedLength hash = d.length := by decide +kernel

/-- Blocks of at most a word are told apart by a signature that goes by such words. -/
theorem separates_of_wordBytes {calls : HashCalls} {keys : Registers} {hashlistvt : List Hashlist}
    {hash : Hashlist} {block : List UInt8} {n : ℕ} (hreg : Registered mdHashlist hashlistvt)
    (hmem : hash ∈ hashlistvt) (hn : n ∈ wordBytes hash.signature) (hle : block.length ≤ n) :
    Separates calls.withVendored.library keys hashlistvt block := by
  intro data hlen hsame
  obtain ⟨d, hd⟩ := exists_wordSignature hn
  obtain ⟨hlength, -⟩ := mdHashlist_wordLength hash (hreg.mem hash hmem)
    (by rw [Option.mem_def.mp hn]; simp) d hd.digest
  have hwhole (bytes : List UInt8) : blockSignature calls.withVendored.library keys bytes hash =
      d.run calls.withVendored.library.hash keys bytes := by
    rw [blockSignature, hd.digest]
    exact List.take_of_length_le (by rw [Digest.length_run, hlength])
  have hsig := hsame hash hmem
  rw [hwhole, hwhole] at hsig
  exact (hd.block calls keys).short hlen (hlen ▸ hle) hsig

/-! Files in blocks of a word come back -/

section
variable (world : ZipWorld) {args : MdzipArgs}

/-- With the functions as they are, no assumption about the hashes is left. -/
theorem short_blocks_restored (memory : UnzipMemory) (calls : HashCalls)
    (hlib : world.lib = calls.withVendored.library) {T : ℕ} (hm : 2 ≤ args.modsize) (hT : 1 ≤ T)
    (hne : args.file ≠ []) {hash : Hashlist} (hmem : hash ∈ args.blockList) {n : ℕ}
    (hn : n ∈ wordBytes hash.signature) (hsize : args.zipBlocksize ≤ n)
    (hcount : args.zipBlockcount < 2 ^ 31) (hfits : FileFits args T) :
    ∃ archive job, mdzipfile world args = .ok (some archive) ∧
      mdunzipfile world.lib memory T args.mdzipname archive = .ok (some job) ∧
      ∀ schedule run, Fair schedule →
        Scheduled (unzipStep job) Disciplined (UnzipState.initial job) schedule run →
        ∃ t, Finished job (run t) ∧ (∀ m ≥ t, (run m).output = args.file) ∧
          ∀ m, ¬ Overruns (run m) := by
  have hsep : FileSeparated world args := by
    intro i hi
    obtain ⟨-, hle⟩ := length_block hne hi
    rw [hlib]
    exact separates_of_wordBytes args.registered_blockList hmem hn (hle.trans hsize)
  have hword : n ≤ 8 := by
    have hall : ∀ signature : Signature, ∀ n ∈ wordBytes signature, n ≤ 8 := by
      intro signature n hn
      cases signature <;> cases hn <;> norm_num
    exact hall _ n hn
  obtain ⟨archive, job, hzip, hjob, hthreads, hrestorable, hfit⟩ :=
    exists_restorable world memory hm hT hne hsep hcount fun h => absurd h (by omega)
  refine ⟨archive, job, hzip, hjob, fun schedule run hfair hrun => ?_⟩
  obtain ⟨t, hfinished, houtput, hcontained⟩ :=
    hrestorable.output_finally (hthreads ▸ hT) (hfit hfits) hfair hrun
  exact ⟨t, hfinished, fun m hmt => (houtput m hmt).trans (flatten_blocks hne), hcontained⟩

/-- The vendored functions, and zeros for all others. -/
def vendoredWorld : ZipWorld :=
  { echoWorld with
    lib := (HashCalls.mk (fun _ _ _ _ => 0) fun _ _ _ _ => 0).withVendored.library }

/-- Thirteen bytes in blocks of eight under `fast64` and a small modulus. -/
def shortArgs : MdzipArgs :=
  { echoArgs [1, 2, 3, 4, 5, 6, 7, 8, 9, 10, 11, 12, 13] (by decide) with
    blocksize := 8
    modsize := 2
    bhlist := [6]
    one_le_blocksize := by decide
    blocksize_le := by decide
    one_le_modsize := by decide
    modsize_lt := by decide }

theorem short_fileFits : FileFits shortArgs 2 := by
  intro i hi t ht
  have hi : i < 2 := hi
  right
  rw [decodeLineCount_eq (by omega)]
  interval_cases i <;> interval_cases t <;> decide +kernel

theorem short_blocks_restored_thirteen : ∃ archive job schedule run n,
    mdzipfile vendoredWorld shortArgs = .ok (some archive) ∧
    mdunzipfile vendoredWorld.lib echoMemory 2 shortArgs.mdzipname archive = .ok (some job) ∧
    Fair schedule ∧ Scheduled (unzipStep job) Disciplined (UnzipState.initial job) schedule run ∧
    (run n).output = shortArgs.file ∧ ∀ m, ¬ Overruns (run m) := by
  have hmem : ⟨.fast64, "fast64", 8, 8⟩ ∈ shortArgs.blockList := by decide
  obtain ⟨archive, job, hzip, hjob, hall⟩ := short_blocks_restored vendoredWorld echoMemory _ rfl
    (by decide) one_le_two (by decide) hmem (n := 8) rfl (by decide) (by decide) short_fileFits
  obtain ⟨schedule, run, hfair, hrun⟩ :=
    exists_fair_scheduled (unzipStep job) Disciplined (UnzipState.initial job)
  obtain ⟨n, -, houtput, hcontained⟩ := hall schedule run hfair hrun
  exact ⟨archive, job, schedule, run, n, hzip, hjob, hfair, hrun, houtput n le_rfl, hcontained⟩

end

/-! What `--val` does not let pass -/

/-- The signatures of a file, set when it is archived, written and read back,
and compared with the output of a decoder. -/
def outputValidates (lib : HashLibrary) (hashlistvt : List Hashlist) (file out rest : List UInt8)
    (zipMemory unzipMemory output : Registers) : Bool :=
  let hclfile := (MdHashContextList.new zipMemory hashlistvt).setFileHashList lib file
  let nf := IStream.ofBytes (hclfile.writeBlockHashList ++ rest)
  let (hclfile, _) := (MdHashContextList.new unzipMemory hashlistvt).readBlockHashList nf
  hclfile.compareFileHashList lib output out

section
variable {lib : HashLibrary} {out : List UInt8} {hashlistvt : List Hashlist}
  {hregister : Registers} {hash : Hashlist} {d : Digest}

/-- The loop stops at the first digest that is another. -/
theorem compareFileHashes_of_ne (hmem : hash ∈ hashlistvt) (hd : d ∈ fileDigest hash.signature)
    (hlength : fileComparedLength hash = d.length)
    (hne : hregister.fetch ⟨d.cell, d.length⟩ ≠ d.run lib.fileHash hregister out)
    (output : Registers) : compareFileHashes lib out hregister hashlistvt output = false := by
  induction hashlistvt generalizing output with
  | nil => cases hmem
  | cons first hashlistvt ih =>
    rw [compareFileHashes]
    rcases List.mem_cons.mp hmem with rfl | hmem
    · have hfetch : (output.store d.cell (d.run lib.fileHash hregister out)).fetch
          ⟨d.cell, d.length⟩ = d.run lib.fileHash hregister out := by
        have := Memory.fetch_store output d.cell (d.run lib.fileHash hregister out)
        rwa [Digest.length_run] at this
      rw [Option.mem_def.mp hd]
      dsimp only
      rw [hlength, hfetch, if_neg hne]
    · cases fileDigest first.signature with
      | none => exact ih hmem output
      | some e =>
        dsimp only
        split_ifs
        · exact ih hmem _
        · rfl

/-- An output that differs from the file within a word is not accepted, and one
that does not differ is. -/
theorem val_accepts_iff (calls : HashCalls) (fhlist : List ℤ) (rest : List UInt8)
    (zipMemory unzipMemory output : Registers) {before x y after : List UInt8} {n : ℕ}
    (hfilled : ∀ hash ∈ setVectorHL mdHashlist fhlist,
      hash.signature ≠ .md6 ∧ hash.signature ≠ .md62)
    (hmem : hash ∈ setVectorHL mdHashlist fhlist) (hn : n ∈ wordBytes hash.signature)
    (hbefore : n ∣ before.length) (hlen : x.length = y.length) (hle : x.length ≤ n)
    (hafter : x.length < n → after = []) :
    outputValidates calls.withVendored.library (setVectorHL mdHashlist fhlist)
      (before ++ x ++ after) (before ++ y ++ after) rest zipMemory unzipMemory output = true ↔
        x = y := by
  have hreg := setVectorHL_registered mdHashlist_wellNamed fhlist
  constructor
  · intro haccepted
    by_contra hxy
    obtain ⟨d, hd⟩ := exists_wordSignature hn
    obtain ⟨hlength, hcompared⟩ := mdHashlist_wordLength hash (hreg.mem hash hmem)
      (by rw [Option.mem_def.mp hn]; simp) d hd.digest
    obtain ⟨hregister, hread, hstored⟩ := exists_readFileSignatures calls.withVendored.library
      (before ++ x ++ after) rest hreg zipMemory unzipMemory
    have hfile := hstored hash hmem d hd.fileDigest d.length hlength.ge le_rfl
    rw [List.take_of_length_le (Digest.length_run ..).le] at hfile
    have hrejected := compareFileHashes_of_ne hmem hd.fileDigest hcompared (fun heq => hxy
      (hd.file calls hregister before x y after hbefore hlen hle hafter (hfile.symm.trans heq)))
      output
    unfold outputValidates at haccepted
    dsimp only at haccepted
    rw [hread, MdHashContextList.compareFileHashList, hrejected] at haccepted
    cases haccepted
  · intro hxy
    subst hxy
    exact fileValidates_of_filled hreg hfilled

/-- The second of three words of a file under `fast64`. -/
theorem val_accepts_iff_fast64 :
    outputValidates vendoredWorld.lib (setVectorHL mdHashlist [6])
      (List.replicate 8 1 ++ List.replicate 8 2 ++ List.replicate 8 3)
      (List.replicate 8 1 ++ List.replicate 8 4 ++ List.replicate 8 3) [] (fun _ _ => 0)
      (fun _ _ => 0) (fun _ _ => 0) = true ↔
        List.replicate 8 (2 : UInt8) = List.replicate 8 4 := by
  have hmem : ⟨.fast64, "fast64", 8, 8⟩ ∈ setVectorHL mdHashlist [6] := by decide
  exact val_accepts_iff _ [6] [] _ _ _ (by decide) hmem (n := 8) rfl (by simp) (by simp)
    (by simp) (by simp)

end

end Mdencode.Cpp
