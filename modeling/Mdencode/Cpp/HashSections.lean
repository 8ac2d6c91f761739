import Mdencode.Cpp.ValidateMdZip

/-! The two sections that a list of hashes has in an archive, its digests of a
block and its keys, over lists of any rows of the registry, repeated ones and
ones that share a register among them. -/

namespace Mdencode.Cpp

open Mdencode.Bytes

/-! Digests of a block -/

section
variable {hashlistvt : List Hashlist} {enc dec : MdHashContextList}

/-- What is written for a block is read back, and what the reader accepts then are
the blocks whose stored bytes are the same for every listed hash. -/
theorem compareBlockHashList_readBlockHashList (lib : HashLibrary) (block rest : List UInt8)
    (hmem : ∀ hash ∈ hashlistvt, hash ∈ mdHashlist.take (hashlistsize mdHashlist))
    (henc : enc.hashlistvt = hashlistvt) (hdec : dec.hashlistvt = hashlistvt)
    (hkeys : KeysAgree enc.hregister dec.hregister) :
    let out := enc.setByteBlockHashList lib block
    out.writeBlockHashList.length = calcBlockSize hashlistvt ∧
      ∃ read, dec.readBlockHashList (IStream.ofBytes (out.writeBlockHashList ++ rest)) =
          (read, IStream.ofBytes rest) ∧
        (∀ hash ∈ hashlistvt, ∀ d ∈ digest hash.signature,
          read.hregister.fetch ⟨d.cell, hash.blocksize⟩ =
            out.hregister.fetch ⟨d.cell, hash.blocksize⟩) ∧
        ∀ data, read.compareBlockHashList lib data = true ↔
          ∀ hash ∈ hashlistvt, blockSignature lib enc.hregister data hash =
            blockSignature lib enc.hregister block hash := by
  intro out
  have hcons : ∀ hash ∈ hashlistvt, hash.Consistent := fun hash h =>
    mdHashlist_tabled.consistent hash (hmem hash h)
  have hunshared : Unshared hashlistvt := fun a ha b hb =>
    mdHashlist_tabled.unshared a (hmem a ha) b (hmem b hb)
  have hlist : out.hashlistvt = hashlistvt := henc
  obtain ⟨-, hdigests⟩ := foldl_digestStep lib block (henc ▸ hcons) (henc ▸ hunshared)
    (KeysAgree.refl enc.hregister)
  have hread := readBlockHashList_append (hdec.trans hlist.symm) rest
  set hregister := Memory.overlay out.blockListSpans out.hregister dec.hregister
  have hstored : ∀ hash ∈ hashlistvt, ∀ d ∈ digest hash.signature,
      hregister.fetch ⟨d.cell, hash.blocksize⟩ =
        out.hregister.fetch ⟨d.cell, hash.blocksize⟩ := by
    intro hash h d hd
    obtain ⟨hsize, -⟩ := hcons hash h
    exact Memory.fetch_overlay _ _ _
      (mem_blockListSpans.mpr ⟨hash, hlist ▸ h, d, hd, by rw [hsize]⟩)
  refine ⟨?_, _, hread, hstored, fun data => ?_⟩
  · rw [length_writeBlockHashList (hlist ▸ hcons), hlist]
  · rw [MdHashContextList.compareBlockHashList, hdec, List.all_eq_true]
    refine forall₂_congr fun hash h => compareHash_iff lib data block (hcons hash h)
      (hkeys.trans (keysAgree_overlay
        (isKey_of_mem_blockListSpans fun other hother => hcons other (hlist ▸ hother)) _ _))
      fun d hd => ?_
    obtain ⟨-, -, ⟨d', hd', hle, -⟩, -⟩ := hcons hash h
    obtain rfl := Option.mem_unique hd hd'
    rw [hstored hash h d hd, ← hdigests hash (henc ▸ h) d hd, Memory.take_fetch _ _ hle]
    rfl

end

/-- The three cuts of SHA-1, the second one twice. -/
def sha1Rows : List Hashlist :=
  [⟨.sha1128, "sha1_128", 16, 0⟩, ⟨.sha1, "sha1", 20, 0⟩, ⟨.sha164, "sha1_64", 8, 0⟩,
    ⟨.sha1, "sha1", 20, 0⟩]

theorem compareBlockHashList_readBlockHashList_sha1 :
    ((MdHashContextList.new (fun _ _ => 0) sha1Rows).setByteBlockHashList zeroWorld.lib
      [7]).writeBlockHashList.length = 64 :=
  (compareBlockHashList_readBlockHashList zeroWorld.lib [7] [] (by decide) rfl rfl
    (KeysAgree.refl _)).1

/-! Keys -/

/-- The members that the digest of a row is made with. -/
def hashKey (hash : Hashlist) : List (Span Member) :=
  match digest hash.signature with
  | some d => d.key
  | none => []

/-- The keys of one context get into another one, and nothing else changes there. -/
def KeySectionRoundTrips (hashlistvt : List Hashlist) : Prop :=
  ∀ enc dec : MdHashContextList, enc.hashlistvt = hashlistvt → dec.hashlistvt = hashlistvt →
    ∀ rest,
      enc.writeKeyList.length = calcBlockKeySize hashlistvt ∧
      ∃ read, dec.readKeyList (IStream.ofBytes (enc.writeKeyList ++ rest)) =
          (read, IStream.ofBytes rest) ∧
        (∀ hash ∈ hashlistvt, ∀ span ∈ hashKey hash,
          read.hregister.fetch span = enc.hregister.fetch span) ∧
        ∀ c k, ¬ Memory.Covers (hashlistvt.flatMap hashKey) c k →
          read.hregister c k = dec.hregister c k

section
variable {hashlistvt : List Hashlist} {enc dec : MdHashContextList}

theorem readKeyList_append (h : dec.hashlistvt = enc.hashlistvt) (rest : List UInt8) :
    dec.readKeyList (IStream.ofBytes (enc.writeKeyList ++ rest)) =
      ({ dec with hregister := Memory.overlay enc.keyListSpans enc.hregister dec.hregister },
        IStream.ofBytes rest) := by
  have hspans : dec.keyListSpans = enc.keyListSpans := by
    rw [MdHashContextList.keyListSpans, h, MdHashContextList.keyListSpans]
  rw [MdHashContextList.readKeyList, hspans, MdHashContextList.writeKeyList, Memory.load_dump]

/-- Only `png` is written and read by another size than that of its key, and
only the key of `md62` is left out. -/
theorem keySpans_eq_hashKey :
    ∀ hash ∈ mdHashlist.take (hashlistsize mdHashlist), hash.signature ≠ .png →
      hash.signature ≠ .md62 → keySpans hash.signature = hashKey hash := by decide +kernel

theorem keySpans_ne_md62key (signature : Signature) :
    ∀ span ∈ keySpans signature, span.cell ≠ .md62key := by
  cases signature <;> simp [keySpans]

/-- A key of `md62` that the reader does not have is not restored. -/
theorem md62_not_restored {hash : Hashlist} (hmem : hash ∈ hashlistvt)
    (hmd62 : hash.signature = .md62) : ¬ KeySectionRoundTrips hashlistvt := by
  intro h
  let enc : MdHashContextList := { hashlistvt, hregister := fun _ _ => 1, blocknumber := 0 }
  let dec : MdHashContextList := { hashlistvt, hregister := fun _ _ => 0, blocknumber := 0 }
  have hkey : (⟨.md62key, 16⟩ : Span Member) ∈ hashKey hash := by
    rw [hashKey, hmd62]
    exact List.mem_singleton_self _
  have hcovers : ¬ Memory.Covers enc.keyListSpans .md62key 0 := by
    rintro ⟨span, hspan, hcell, -⟩
    obtain ⟨other, -, hspan⟩ := List.mem_flatMap.mp hspan
    exact keySpans_ne_md62key _ span hspan hcell
  obtain ⟨-, read, hread, hrestored, -⟩ := h enc dec rfl rfl []
  have happend := @readKeyList_append enc dec rfl []
  obtain ⟨rfl, -⟩ := Prod.mk.inj (happend.symm.trans hread)
  have hbyte := congrArg (fun bytes => bytes.getD 0 0) (hrestored hash hmem _ hkey)
  simp only [Memory.getD_fetch, Memory.overlay, if_neg hcovers] at hbyte
  exact absurd hbyte (by simp [enc, dec])

/-- The keys of a list of rows come through exactly when neither `png` nor
`md62` is among them. -/
theorem keySectionRoundTrips_iff
    (hmem : ∀ hash ∈ hashlistvt, hash ∈ mdHashlist.take (hashlistsize mdHashlist)) :
    KeySectionRoundTrips hashlistvt ↔
      ∀ hash ∈ hashlistvt, hash.signature ≠ .png ∧ hash.signature ≠ .md62 := by
  constructor
  · intro h
    let hcl := MdHashContextList.new (fun _ _ => 0) hashlistvt
    obtain ⟨hlength, -⟩ := h hcl hcl rfl rfl []
    rw [length_writeKeyList] at hlength
    have hpng := (keyBytes_eq_iff hmem).mp hlength.symm
    exact fun hash hhash => ⟨hpng hash hhash, fun hmd62 => md62_not_restored hhash hmd62 h⟩
  · rintro hplain enc dec rfl hdec rest
    have hspans : enc.keyListSpans = enc.hashlistvt.flatMap hashKey :=
      List.flatMap_congr fun hash h =>
        keySpans_eq_hashKey hash (hmem hash h) (hplain hash h).1 (hplain hash h).2
    refine ⟨?_, _, readKeyList_append hdec rest, fun hash h span hspan => ?_, fun c k hc => ?_⟩
    · rw [length_writeKeyList, ← (keyBytes_eq_iff hmem).mpr fun hash h => (hplain hash h).1]
    · apply Memory.fetch_overlay
      rw [hspans]
      exact List.mem_flatMap.mpr ⟨hash, h, hspan⟩
    · rw [hspans]
      exact if_neg hc

end

theorem keySectionRoundTrips_iff_sip40 :
    KeySectionRoundTrips [⟨.sip40, "sip40", 5, 16⟩] ↔
      ∀ hash ∈ [(⟨.sip40, "sip40", 5, 16⟩ : Hashlist)],
        hash.signature ≠ .png ∧ hash.signature ≠ .md62 :=
  keySectionRoundTrips_iff (by decide)

/-- Eight bytes are written for the four of `png`, and the last four are read
into the digest of `ripe128`. -/
theorem png_key_spills :
    let enc := MdHashContextList.new (fun _ _ => 1) [⟨.png, "png", 8, 4⟩]
    let dec := MdHashContextList.new (fun _ _ => 0) [⟨.png, "png", 8, 4⟩]
    enc.writeKeyList.length = 8 ∧
      (dec.readKeyList (IStream.ofBytes enc.writeKeyList)).1.hregister .ripe128i 0 = 1 ∧
      ¬ ∀ hashlistvt, (∀ hash ∈ hashlistvt, hash ∈ mdHashlist.take (hashlistsize mdHashlist)) →
        KeySectionRoundTrips hashlistvt := by
  intro enc dec
  have hlength : enc.writeKeyList.length = 8 := by decide
  refine ⟨hlength, by decide, fun h => ?_⟩
  obtain ⟨hsize, -⟩ := h [⟨.png, "png", 8, 4⟩] (by decide) enc dec rfl rfl []
  rw [hlength] at hsize
  revert hsize
  decide

end Mdencode.Cpp
