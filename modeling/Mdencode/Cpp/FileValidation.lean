import Mdencode.Cpp.MdArchive

/-! The file digests of `mdHashContextList.h`: set when a file is archived,
written and read back with the header, and compared with those of the output
file under `--val`. A comparison makes its digest in an output register, which
holds what the memory happened to before; so does a member that the encoder
stores more bytes of than its digest has. -/

namespace Mdencode.Cpp

open Mdencode.Bytes

/-- The bytes `compareFileHashList` compares: all of an integer, a constant for
most of the others, and the registered size for `hw40`. -/
def fileComparedLength (hash : Hashlist) : ℕ :=
  match hash.signature with
  | .crc32 | .fast32 | .fnv32 | .fnv32a | .sip32 | .sip322 | .spk32 | .xxh32 => 4
  | .sip40 => 5
  | .sip48 => 6
  | .cit64 | .crc64 | .fast64 | .fnv64 | .fnv64a | .hw64 | .met641 | .met642 | .mx3 | .png
  | .sea | .sip64 | .sha164 | .spk64 | .xxh64 | .wyh => 8
  | .md2 | .md4 | .md5 | .ripe128 | .sip128 | .sha1128 => 16
  | .has160 | .md6 | .md62 | .ripe160 | .sha1 => 20
  | .tiger192 => 24
  | .edn224 => 28
  | .ripe256 | .sha256 => 32
  | .ripe320 => 40
  | .sha384 => 48
  | .sha512 | .wp => 64
  | _ => hash.blocksize

/-- The loop of `compareFileHashList`. `output` holds the members that are named
with an `o` where the digest's member is named with an `i`. -/
def compareFileHashes (lib : HashLibrary) (file : List UInt8) (hregister : Registers) :
    List Hashlist → Registers → Bool
  | [], _ => true
  | hash :: hashlistvt, output =>
    match fileDigest hash.signature with
    | none => compareFileHashes lib file hregister hashlistvt output
    | some d =>
      let output := output.store d.cell (d.run lib.fileHash hregister file)
      if hregister.fetch ⟨d.cell, fileComparedLength hash⟩ =
          output.fetch ⟨d.cell, fileComparedLength hash⟩ then
        compareFileHashes lib file hregister hashlistvt output
      else false

def MdHashContextList.compareFileHashList (lib : HashLibrary) (hcl : MdHashContextList)
    (output : Registers) (file : List UInt8) : Bool :=
  compareFileHashes lib file hcl.hregister hcl.hashlistvt output

/-- The signatures of a file, set on the encoding side, written and read, and
compared with the same file on the decoding side. -/
def fileValidates (lib : HashLibrary) (hashlistvt : List Hashlist) (file rest : List UInt8)
    (zipMemory unzipMemory output : Registers) : Bool :=
  let hclfile := (MdHashContextList.new zipMemory hashlistvt).setFileHashList lib file
  let nf := IStream.ofBytes (hclfile.writeBlockHashList ++ rest)
  let (hclfile, _) := (MdHashContextList.new unzipMemory hashlistvt).readBlockHashList nf
  hclfile.compareFileHashList lib output file

/-! The tables of the file digests -/

/-- A row whose file digest fills what is stored of it, out of keys alone. -/
def Hashlist.FileConsistent (hash : Hashlist) : Prop :=
  storedLength hash = hash.blocksize ∧ fileComparedLength hash = hash.blocksize ∧
    ∃ d ∈ fileDigest hash.signature, (∃ b ∈ digest hash.signature, b.cell = d.cell) ∧
      d.cell.isKey = false ∧ (∀ span ∈ d.key, span.cell.isKey = true) ∧
      (hash.blocksize ≤ d.length ∨ hash.signature = .md6 ∨ hash.signature = .md62)

instance (hash : Hashlist) : Decidable hash.FileConsistent :=
  inferInstanceAs (Decidable (_ ∧ _ ∧ ∃ d ∈ _, (∃ b ∈ _, _) ∧ _ ∧ (∀ span ∈ _, _) ∧ _))

theorem mdHashlist_fileConsistent :
    ∀ hash ∈ mdHashlist.take (hashlistsize mdHashlist), hash.FileConsistent := by decide +kernel

theorem mdHashlist_fileUnshared :
    ∀ a ∈ mdHashlist.take (hashlistsize mdHashlist),
      ∀ b ∈ mdHashlist.take (hashlistsize mdHashlist), (fileDigest a.signature).map Digest.cell =
        (fileDigest b.signature).map Digest.cell →
          fileDigest a.signature = fileDigest b.signature :=
  by decide +kernel

section
variable {lib : HashLibrary} {file rest : List UInt8} {hashlistvt : List Hashlist}
  {zipMemory unzipMemory output hregister keys : Registers} {hash : Hashlist}

/-! Signatures that are all of a digest -/

theorem fetch_store_take (r : Registers) (c : Member) (bytes : List UInt8) {n : ℕ}
    (h : n ≤ bytes.length) : (r.store c bytes).fetch ⟨c, n⟩ = bytes.take n := by
  rw [← Memory.take_fetch _ c h, Memory.fetch_store]

/-- The loop accepts when each signature read is that of the file. -/
theorem compareFileHashes_of_stored
    (hstored : ∀ hash ∈ hashlistvt, ∀ d ∈ fileDigest hash.signature,
      fileComparedLength hash ≤ d.length ∧ hregister.fetch ⟨d.cell, fileComparedLength hash⟩ =
        (d.run lib.fileHash hregister file).take (fileComparedLength hash)) :
    compareFileHashes lib file hregister hashlistvt output = true := by
  induction hashlistvt generalizing output with
  | nil => rfl
  | cons hash hashlistvt ih =>
    have hrest (output : Registers) :
        compareFileHashes lib file hregister hashlistvt output = true :=
      ih fun other hmem => hstored other (List.mem_cons_of_mem _ hmem)
    rw [compareFileHashes]
    cases hd : fileDigest hash.signature with
    | none => exact hrest output
    | some d =>
      obtain ⟨hle, hfetch⟩ := hstored hash List.mem_cons_self d hd
      dsimp only
      rw [if_pos]
      · exact hrest _
      · rw [hfetch, fetch_store_take _ _ _ (by rw [Digest.length_run]; exact hle)]

/-- What the decoder has of the file's digests and of its keys. -/
theorem registers_of_fileSignatures (lib : HashLibrary) (file rest : List UInt8)
    (hreg : Registered mdHashlist hashlistvt) (zipMemory unzipMemory : Registers) :
    ∃ hregister, (MdHashContextList.new unzipMemory hashlistvt).readBlockHashList
        (IStream.ofBytes (((MdHashContextList.new zipMemory hashlistvt).setFileHashList lib
          file).writeBlockHashList ++ rest)) =
          ({ hashlistvt, hregister, blocknumber := 0 }, IStream.ofBytes rest) ∧
      KeysAgree (initialRegisters zipMemory) hregister ∧
      ∀ hash ∈ hashlistvt, ∀ d ∈ fileDigest hash.signature, ∀ k < hash.blocksize,
        hregister d.cell k = ((MdHashContextList.new zipMemory hashlistvt).setFileHashList lib
          file).hregister d.cell k := by
  set enc := (MdHashContextList.new zipMemory hashlistvt).setFileHashList lib file with henc
  have hlist : enc.hashlistvt = hashlistvt := rfl
  have hspan {span : Span Member} (hspan : span ∈ enc.blockListSpans) :
      span.cell.isKey = false := by
    obtain ⟨hash, hmem, b, hb, rfl⟩ := mem_blockListSpans.mp hspan
    obtain ⟨-, -, d, -, ⟨b', hb', hcell⟩, hkey, -⟩ :=
      mdHashlist_fileConsistent hash (hreg.mem hash (hlist ▸ hmem))
    obtain rfl := Option.mem_unique hb hb'
    exact hcell ▸ hkey
  refine ⟨_, readBlockHashList_append hlist.symm rest, ?_, fun hash hmem d hd k hk => ?_⟩
  · exact (keysAgree_initialRegisters zipMemory unzipMemory).trans
      (keysAgree_overlay (fun span hmem => hspan hmem) _ _)
  · obtain ⟨hstored, -, d', hd', ⟨b, hb, hcell⟩, -⟩ :=
      mdHashlist_fileConsistent hash (hreg.mem hash hmem)
    obtain rfl := Option.mem_unique hd hd'
    rw [Memory.overlay, if_pos]
    exact ⟨_, mem_blockListSpans.mpr ⟨hash, hmem, b, hb, rfl⟩, hcell, by rw [hstored]; exact hk⟩

/-- What the decoder has read of a digest is what it computes of the file itself. -/
theorem exists_readFileSignatures (lib : HashLibrary) (file rest : List UInt8)
    (hreg : Registered mdHashlist hashlistvt) (zipMemory unzipMemory : Registers) :
    ∃ hregister, (MdHashContextList.new unzipMemory hashlistvt).readBlockHashList
        (IStream.ofBytes (((MdHashContextList.new zipMemory hashlistvt).setFileHashList lib
          file).writeBlockHashList ++ rest)) =
          ({ hashlistvt, hregister, blocknumber := 0 }, IStream.ofBytes rest) ∧
      ∀ hash ∈ hashlistvt, ∀ d ∈ fileDigest hash.signature, ∀ n ≤ hash.blocksize, n ≤ d.length →
        hregister.fetch ⟨d.cell, n⟩ = (d.run lib.fileHash hregister file).take n := by
  obtain ⟨hregister, hread, hkeys, hcells⟩ :=
    registers_of_fileSignatures lib file rest hreg zipMemory unzipMemory
  have hcons (hash : Hashlist) (hmem : hash ∈ hashlistvt) :=
    mdHashlist_fileConsistent hash (hreg.mem hash hmem)
  obtain ⟨-, hset⟩ := foldl_digestStep_of file fileDigest lib.fileHash
    (fun hash hmem => by
      obtain ⟨-, -, d, hd, -, hcell, hkey, -⟩ := hcons hash hmem
      exact ⟨d, hd, hcell, hkey⟩)
    (fun a ha b hb => mdHashlist_fileUnshared a (hreg.mem a ha) b (hreg.mem b hb))
    (KeysAgree.refl (initialRegisters zipMemory))
  refine ⟨hregister, hread, fun hash hmem d hd n hstored hle => ?_⟩
  obtain ⟨-, -, d', hd', -, -, hkey, -⟩ := hcons hash hmem
  obtain rfl := Option.mem_unique hd hd'
  rw [hkeys.symm.run file lib.fileHash hkey, ← hset hash hmem d hd, Memory.take_fetch _ _ hle]
  exact Memory.fetch_congr _ _ fun k hk => hcells hash hmem d hd k (hk.trans_le hstored)

theorem fileValidates_of_filled (hreg : Registered mdHashlist hashlistvt)
    (hfilled : ∀ hash ∈ hashlistvt, hash.signature ≠ .md6 ∧ hash.signature ≠ .md62) :
    fileValidates lib hashlistvt file rest zipMemory unzipMemory output = true := by
  obtain ⟨hregister, hread, hstored⟩ :=
    exists_readFileSignatures lib file rest hreg zipMemory unzipMemory
  unfold fileValidates
  dsimp only
  rw [hread, MdHashContextList.compareFileHashList]
  apply compareFileHashes_of_stored
  intro hash hmem d hd
  obtain ⟨-, hcompared, d', hd', -, -, -, hlength⟩ :=
    mdHashlist_fileConsistent hash (hreg.mem hash hmem)
  obtain rfl := Option.mem_unique hd hd'
  obtain ⟨hmd6, hmd62⟩ := hfilled hash hmem
  have hle : hash.blocksize ≤ d.length := by
    rcases hlength with h | h | h
    · exact h
    · exact absurd h hmd6
    · exact absurd h hmd62
  rw [hcompared]
  exact ⟨hle, hstored hash hmem d hd _ le_rfl hle⟩

/-! Signatures with bytes that no digest fills -/

section
variable {c : Member} {k : ℕ}

theorem store_of_length_le (r : Registers) {cell : Member} {bytes : List UInt8}
    (h : cell = c → bytes.length ≤ k) : r.store cell bytes c k = r c k := by
  rw [Memory.store]
  split_ifs with heq
  · rw [List.getD_eq_getElem?_getD, List.getElem?_eq_none (h heq.symm), Option.getD_none]
  · rfl

/-- A byte past the end of every digest of its member stays as it is. -/
theorem foldl_digestStep_stale
    (hshort : ∀ hash ∈ hashlistvt, ∀ d ∈ fileDigest hash.signature, d.cell = c → d.length ≤ k)
    (r : Registers) :
    (hashlistvt.foldl (fun r hash => digestStep lib.fileHash file r (fileDigest hash.signature))
      r) c k = r c k := by
  induction hashlistvt generalizing r with
  | nil => rfl
  | cons hash hashlistvt ih =>
    rw [List.foldl_cons, ih fun other hmem => hshort other (List.mem_cons_of_mem _ hmem)]
    cases hd : fileDigest hash.signature with
    | none => rfl
    | some d =>
      apply store_of_length_le r
      intro heq
      rw [Digest.length_run]
      exact hshort hash List.mem_cons_self d hd heq

/-- And fails the comparison when the two sides started with different bytes. -/
theorem compareFileHashes_of_stale {d : Digest}
    (hshort : ∀ hash ∈ hashlistvt, ∀ d ∈ fileDigest hash.signature, d.cell = c → d.length ≤ k)
    (hmem : hash ∈ hashlistvt) (hd : d ∈ fileDigest hash.signature) (hcell : d.cell = c)
    (hk : k < fileComparedLength hash) (hstale : hregister c k ≠ output c k) :
    compareFileHashes lib file hregister hashlistvt output = false := by
  induction hashlistvt generalizing output with
  | nil => cases hmem
  | cons first hashlistvt ih =>
    have hrest := fun other (hother : other ∈ hashlistvt) =>
      hshort other (List.mem_cons_of_mem _ hother)
    rw [compareFileHashes]
    cases hfirst : fileDigest first.signature with
    | none =>
      refine ih hrest ?_ hstale
      rcases List.mem_cons.mp hmem with rfl | hmem
      · rw [hfirst] at hd
        cases hd
      · exact hmem
    | some e =>
      dsimp only
      have hkeep : (output.store e.cell (e.run lib.fileHash hregister file)) c k = output c k :=
        store_of_length_le output fun heq => by
          rw [Digest.length_run]
          exact hshort first List.mem_cons_self e hfirst heq
      split_ifs with hsame
      · rcases List.mem_cons.mp hmem with rfl | hmem
        · obtain rfl := Option.mem_unique hd hfirst
          have hbyte := congrArg (fun bytes => bytes.getD k 0) hsame
          simp only [Memory.getD_fetch, if_pos hk, hcell] at hbyte
          rw [hcell] at hkeep
          exact absurd (hbyte.trans hkeep) hstale
        · exact ih hrest hmem (by rw [hkeep]; exact hstale)
      · rfl

end

/-- MD5 leaves the last four bytes of the two MD6 members alone. -/
theorem fileDigest_md6_length {c : Member} (hc : c = .md6i ∨ c = .md62i) (signature : Signature) :
    ∀ d ∈ fileDigest signature, d.cell = c → d.length ≤ 16 := by
  rcases hc with rfl | rfl <;> cases signature <;> simp [fileDigest, digest]

theorem not_fileValidates (lib : HashLibrary) (file rest : List UInt8) (unzipMemory : Registers)
    (hreg : Registered mdHashlist hashlistvt) (hmem : hash ∈ hashlistvt)
    (hmd6 : hash.signature = .md6 ∨ hash.signature = .md62) :
    fileValidates lib hashlistvt file rest (fun _ _ => 0) unzipMemory (fun _ _ => 1) = false := by
  obtain ⟨hregister, hread, -, hcells⟩ :=
    registers_of_fileSignatures lib file rest hreg (fun _ _ => 0) unzipMemory
  obtain ⟨-, hcompared, d, hd, -⟩ := mdHashlist_fileConsistent hash (hreg.mem hash hmem)
  have hcell : d.cell = .md6i ∨ d.cell = .md62i := by
    rcases hmd6 with h | h <;> rw [h] at hd <;> obtain rfl := Option.some.inj hd
    · exact .inl rfl
    · exact .inr rfl
  have hsize : 16 < hash.blocksize := by
    rw [← hcompared]
    rcases hmd6 with h | h <;> rw [fileComparedLength, h] <;> norm_num
  have hshort : ∀ hash ∈ hashlistvt, ∀ e ∈ fileDigest hash.signature, e.cell = d.cell →
      e.length ≤ 16 := fun hash _ => fileDigest_md6_length hcell hash.signature
  unfold fileValidates
  dsimp only
  rw [hread, MdHashContextList.compareFileHashList]
  apply compareFileHashes_of_stale hshort hmem hd rfl (hcompared ▸ hsize)
  dsimp only
  rw [hcells hash hmem d hd 16 hsize]
  refine ne_of_eq_of_ne (foldl_digestStep_stale hshort (initialRegisters fun _ _ => 0)) ?_
  rcases hcell with h | h <;> rw [h] <;> decide

/-! What `--val` promises -/

/-- A faithful decode validates, whatever the memory held, without the two MD6
signatures and only without them. -/
theorem fileValidates_iff (lib : HashLibrary) (fhlist : List ℤ) (file rest : List UInt8) :
    (∀ zipMemory unzipMemory output, fileValidates lib (setVectorHL mdHashlist fhlist) file rest
        zipMemory unzipMemory output = true) ↔
      ∀ hash ∈ setVectorHL mdHashlist fhlist, hash.signature ≠ .md6 ∧ hash.signature ≠ .md62 := by
  have hreg := setVectorHL_registered mdHashlist_wellNamed fhlist
  constructor
  · intro h hash hmem
    by_contra hmd6
    rw [not_and_or, not_not, not_not] at hmd6
    have hfalse := not_fileValidates lib file rest (fun _ _ => 0) hreg hmem hmd6
    rw [h] at hfalse
    cases hfalse
  · intro h zipMemory unzipMemory output
    exact fileValidates_of_filled hreg h

end

/-- The empty file under `md6`: a byte that MD5 does not fill differs. -/
theorem md6_not_validated :
    fileValidates ⟨fun _ _ _ _ => 0, fun _ _ _ _ => 0⟩ (setVectorHL mdHashlist [17]) [] []
      (fun _ _ => 0) (fun _ _ => 0) (fun _ _ => 1) = false :=
  not_fileValidates _ [] [] _ (setVectorHL_registered mdHashlist_wellNamed [17])
    (by decide : ⟨.md6, "md6", 20, 0⟩ ∈ setVectorHL mdHashlist [17]) (.inl rfl)

end Mdencode.Cpp
