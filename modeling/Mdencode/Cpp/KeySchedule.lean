import Mdencode.Cpp.MdList
import Mdencode.Cpp.RoundTrip
import Mdencode.Cpp.ValidateMdZip

/-! The keys in force at each block. The encoder, the decoder and `mdlist` move
their keys on at different places of three loops; each keeps to the same
schedule, `contextAt`, whatever it reads or hashes in between. -/

namespace Mdencode.Cpp

open Mdencode.Bytes

/-! What the loops do with a context -/

section
variable {hcl : MdHashContextList}

/-- Reading digests in does not touch a key. -/
theorem sameContext_readBlockHashList (hcons : ∀ hash ∈ hcl.hashlistvt, hash.Consistent)
    (nf : IStream) : SameContext hcl (hcl.readBlockHashList nf).1 := by
  refine ⟨rfl, rfl, fun c hc => ?_⟩
  refine (Memory.load_of_not_mem hcl.hregister hcl.blockListSpans (fun span hspan => ?_) nf).symm
  obtain ⟨hash, hmem, d, hd, rfl⟩ := mem_blockListSpans.mp hspan
  obtain ⟨-, -, ⟨d', hd', -, hcell, -⟩, -⟩ := hcons hash hmem
  rw [Option.mem_def] at hd hd'
  rw [hd, Option.some.injEq] at hd'
  rintro rfl
  rw [hd', hcell] at hc
  cases hc

end

/-! The encoder -/

section
variable (lib : HashLibrary) (incKey : IncrementKey) (blocksize modsize : ℕ)

/-- The registers that `mdzipBlocks` hashes each block under, and the block. -/
def zippedBlocks (blockremainder : ℕ) :
    ℕ → List UInt8 → MdHashContextList → List (Registers × List UInt8)
  | 0, _, _ => []
  | left + 1, nf, hclblock =>
    let currentblocksize := if left = 0 ∧ blockremainder ≠ blocksize then blockremainder
      else blocksize
    let byteblock := nf.take currentblocksize
    ((hclblock.incrementBlockNum incKey).hregister, byteblock) ::
      zippedBlocks blockremainder left (nf.drop currentblocksize)
        (mdzipBlock lib incKey blocksize modsize hclblock byteblock).1

/-- The record of a block hashed under some registers. -/
def recordUnder (hashlistvt : List Hashlist) (hregister : Registers) (byteblock : List UInt8) :
    List UInt8 :=
  let hclblock : MdHashContextList := { hashlistvt, hregister, blocknumber := 0 }
  let byteblockInt := mpzImport byteblock
  (hclblock.setByteBlockHashList lib byteblock).writeBlockHashList ++
    exponentBytes blocksize (calcExponent byteblockInt) ++
    exportRemainder (calcModulusBytes modsize).toNat (byteblockInt % calcModulusInt modsize)

variable {blockremainder : ℕ}

/-- What the encoder writes is what these registers make of the blocks. -/
theorem mdzipBlocks_eq (left : ℕ) (nf : List UInt8) (hclblock : MdHashContextList) :
    mdzipBlocks lib incKey blocksize modsize blockremainder left nf hclblock =
      (zippedBlocks lib incKey blocksize modsize blockremainder left nf hclblock).flatMap
        fun zipped => recordUnder lib blocksize modsize hclblock.hashlistvt zipped.1 zipped.2 := by
  induction left generalizing nf hclblock with
  | zero => rfl
  | succ left ih =>
    have hlist (block : List UInt8) :
        (mdzipBlock lib incKey blocksize modsize hclblock block).1.hashlistvt =
          hclblock.hashlistvt := hashlistvt_incrementBlockNum hclblock
    have hrecord (block : List UInt8) :
        (mdzipBlock lib incKey blocksize modsize hclblock block).2 =
          recordUnder lib blocksize modsize hclblock.hashlistvt
            (hclblock.incrementBlockNum incKey).hregister block := by
      have hnext : (hclblock.incrementBlockNum incKey).hashlistvt = hclblock.hashlistvt :=
        hashlistvt_incrementBlockNum hclblock
      rw [← hnext]
      rfl
    rw [mdzipBlocks, zippedBlocks, List.flatMap_cons]
    dsimp only
    rw [ih, hlist, hrecord]

theorem length_zippedBlocks (left : ℕ) (nf : List UInt8) (hclblock : MdHashContextList) :
    (zippedBlocks lib incKey blocksize modsize blockremainder left nf hclblock).length = left := by
  induction left generalizing nf hclblock with
  | zero => rfl
  | succ left ih => rw [zippedBlocks, List.length_cons, ih]

variable {lib incKey blocksize modsize}

theorem zippedBlocks_keys {left : ℕ} {nf : List UInt8} {hcl spec : MdHashContextList}
    (hcons : ∀ hash ∈ hcl.hashlistvt, hash.Consistent) (hunshared : Unshared hcl.hashlistvt)
    (hspec : SameContext spec hcl) {i : ℕ} {zipped : Registers × List UInt8}
    (h : (zippedBlocks lib incKey blocksize modsize blockremainder left nf hcl)[i]? =
      some zipped) : KeysAgree (contextAt incKey spec i).hregister zipped.1 := by
  induction left generalizing nf hcl spec i with
  | zero => cases h
  | succ left ih =>
    have hnext := hspec.incrementBlockNum incKey
    rw [zippedBlocks] at h
    cases i with
    | zero =>
      rw [List.getElem?_cons_zero, Option.some.injEq] at h
      subst h
      exact hnext.keys
    | succ i =>
      rw [List.getElem?_cons_succ] at h
      have hlist : (hcl.incrementBlockNum incKey).hashlistvt = hcl.hashlistvt :=
        hashlistvt_incrementBlockNum hcl
      -- hashing the block has moved no key either
      have hhashed (block : List UInt8) : SameContext (spec.incrementBlockNum incKey)
          (mdzipBlock lib incKey blocksize modsize hcl block).1 :=
        hnext.trans (sameContext_setByteBlockHashList lib block (hlist.symm ▸ hcons)
          (hlist.symm ▸ hunshared)).symm
      exact ih (by rw [← (hhashed _).hashlistvt, hnext.hashlistvt, hlist]; exact hcons)
        (by rw [← (hhashed _).hashlistvt, hnext.hashlistvt, hlist]; exact hunshared) (hhashed _) h

end

/-! The readers -/

section
variable {incKey : IncrementKey} {blocksize blockremainder : ℤ}

/-- What both readers do with a context before they look at the rest of a record. -/
theorem consistent_readAndAdvance {hcl : MdHashContextList}
    (hcons : ∀ hash ∈ hcl.hashlistvt, hash.Consistent) (nf : IStream) :
    ∀ hash ∈ ((hcl.readBlockHashList nf).1.incrementBlockNum incKey).hashlistvt,
      hash.Consistent := by
  rw [hashlistvt_incrementBlockNum]
  exact hcons

theorem SameContext.readAndAdvance {spec hcl : MdHashContextList} (h : SameContext spec hcl)
    (incKey : IncrementKey) (hcons : ∀ hash ∈ hcl.hashlistvt, hash.Consistent) (nf : IStream) :
    SameContext (spec.incrementBlockNum incKey)
      ((hcl.readBlockHashList nf).1.incrementBlockNum incKey) :=
  (h.trans (sameContext_readBlockHashList hcons nf)).incrementBlockNum incKey

theorem readRecords_keys {left : ℕ} {r : UnzipReader} {spec : MdHashContextList}
    (hcons : ∀ hash ∈ r.hclblock.hashlistvt, hash.Consistent)
    (hspec : SameContext spec r.hclblock) {i : ℕ} {record : BlockRecord Registers}
    (h : (readRecords (fun _ => readRecord incKey blocksize) blocksize blockremainder left r)[i]? =
      some record) : KeysAgree (contextAt incKey spec i).hregister record.hregister := by
  induction left generalizing r spec i with
  | zero => cases h
  | succ left ih =>
    have hnext := hspec.readAndAdvance incKey hcons r.nf
    rw [readRecords] at h
    cases i with
    | zero =>
      rw [List.getElem?_cons_zero, Option.some.injEq] at h
      subst h
      exact hnext.keys
    | succ i =>
      rw [List.getElem?_cons_succ] at h
      have hagree := ih (consistent_readAndAdvance hcons r.nf) hnext h
      exact hagree

theorem listBlocks_keys {left : ℕ} {r : UnzipReader} {spec : MdHashContextList}
    (hcons : ∀ hash ∈ r.hclblock.hashlistvt, hash.Consistent)
    (hspec : SameContext spec r.hclblock) {i : ℕ} {info : BlockInfo}
    (h : (listBlocks incKey blocksize left r)[i]? = some info) :
    KeysAgree (contextAt incKey spec i).hregister info.hclblock.hregister := by
  induction left generalizing r spec i with
  | zero => cases h
  | succ left ih =>
    have hnext := hspec.readAndAdvance incKey hcons r.nf
    rw [listBlocks] at h
    cases i with
    | zero =>
      rw [List.getElem?_cons_zero, Option.some.injEq] at h
      subst h
      exact hnext.keys
    | succ i =>
      rw [List.getElem?_cons_succ] at h
      have hagree := ih (consistent_readAndAdvance hcons r.nf) hnext h
      exact hagree

theorem length_listBlocks (left : ℕ) (r : UnzipReader) :
    (listBlocks incKey blocksize left r).length = left := by
  induction left generalizing r with
  | zero => rfl
  | succ left ih => rw [listBlocks, List.length_cons, ih]

end

/-! The three schedules -/

/-- The encoder, each thread of the decoder and `mdlist` have the same keys at
every block, from whatever keys they start with and whatever the readers find
in the archive. -/
theorem key_schedules_agree (lib : HashLibrary) (incKey : IncrementKey)
    {enc : MdHashContextList} {unzip list : UnzipReader}
    (hreg : Registered mdHashlist enc.hashlistvt)
    (hunzip : SameContext enc unzip.hclblock) (hlist : SameContext enc list.hclblock)
    (blocksize modsize blockremainder : ℕ) (file : List UInt8)
    (unzipsize unzipremainder listsize : ℤ) (n : ℕ) :
    ∀ i < n, ∃ zipped record info,
      (zippedBlocks lib incKey blocksize modsize blockremainder n file enc)[i]? = some zipped ∧
      (readRecords (fun _ => readRecord incKey unzipsize) unzipsize unzipremainder n unzip)[i]? =
        some record ∧
      (listBlocks incKey listsize n list)[i]? = some info ∧
      (∀ (job : UnzipJob Registers) (tnum : ℕ) (ms : Modscan Registers),
        KeysAgree zipped.1 (prepareThread job i tnum record ms).hcl) ∧
      KeysAgree zipped.1 info.hclblock.hregister := by
  intro i hi
  have hcons := hreg.consistent mdHashlist_tabled
  have hunshared := hreg.unshared mdHashlist_tabled
  have hget {α : Type} {l : List α} (hlen : l.length = n) : ∃ a, l[i]? = some a :=
    ⟨_, List.getElem?_eq_getElem (hlen.symm ▸ hi)⟩
  obtain ⟨zipped, hzipped⟩ := hget
    (length_zippedBlocks lib incKey blocksize modsize n file enc)
  obtain ⟨record, hrecord⟩ := hget (length_readRecords n unzip)
  obtain ⟨info, hinfo⟩ := hget (length_listBlocks n list)
  have hzipkeys := zippedBlocks_keys hcons hunshared ⟨rfl, rfl, KeysAgree.refl _⟩ hzipped
  have hreadkeys : KeysAgree (contextAt incKey enc i).hregister record.hregister :=
    readRecords_keys (by rw [← hunzip.hashlistvt]; exact hcons) hunzip hrecord
  have hlistkeys : KeysAgree (contextAt incKey enc i).hregister info.hclblock.hregister :=
    listBlocks_keys (by rw [← hlist.hashlistvt]; exact hcons) hlist hinfo
  exact ⟨zipped, record, info, hzipped, hrecord, hinfo,
    fun job tnum ms => hzipkeys.symm.trans hreadkeys, hzipkeys.symm.trans hlistkeys⟩

/-- A reader with one keyed hash, `sip40`, and its default key. -/
def sip40Reader (archive : List UInt8) : UnzipReader where
  hclblock := .new (fun _ _ => 0) (setVectorHL mdHashlist [30])
  modexponent := intBytes 4 0
  modulusbytes := [0]
  nf := IStream.ofBytes archive

theorem sameContext_sip40Reader (archive archive' : List UInt8) :
    SameContext (sip40Reader archive).hclblock (sip40Reader archive').hclblock :=
  ⟨rfl, rfl, KeysAgree.refl _⟩

/-- The last of three blocks under a key that is moved down. -/
theorem key_schedules_agree_three :
    ∃ zipped record info,
      (zippedBlocks zeroWorld.lib .dec 2 8 1 3 [1, 2, 3, 4, 5] (sip40Reader []).hclblock)[2]? =
        some zipped ∧
      (readRecords (fun _ => readRecord .dec 2) 2 1 3 (sip40Reader [0, 1]))[2]? = some record ∧
      (listBlocks .dec 2 3 (sip40Reader [7]))[2]? = some info ∧
      (∀ (job : UnzipJob Registers) (tnum : ℕ) (ms : Modscan Registers),
        KeysAgree zipped.1 (prepareThread job 2 tnum record ms).hcl) ∧
      KeysAgree zipped.1 info.hclblock.hregister :=
  key_schedules_agree zeroWorld.lib .dec (setVectorHL_registered mdHashlist_wellNamed [30])
    (sameContext_sip40Reader [] [0, 1]) (sameContext_sip40Reader [] [7])
    2 8 1 [1, 2, 3, 4, 5] 2 1 2 3 2 (by norm_num)

/-- What an archive is made, decoded and listed with. -/
theorem archive_keys_agree {world : ZipWorld} {args : MdzipArgs} {memory listMemory : UnzipMemory}
    {T : ℕ} {archive : List UInt8} {job : UnzipJob Registers} {listed : List BlockInfo}
    (hzip : mdzipfile world args = .ok (some archive))
    (hjob : mdunzipfile world.lib memory T args.mdzipname archive = .ok (some job))
    (hlisted : mdlist listMemory args.mdzipname archive true = .ok (some listed)) :
    ∀ i < args.zipBlockcount, ∃ record info, job.records[i]? = some record ∧
      listed[i]? = some info ∧ KeysAgree (keysAt world args i) record.hregister ∧
      KeysAgree (keysAt world args i) info.hclblock.hregister := by
  intro i hi
  have hne := file_ne_nil_of_mdzipfile hzip
  rw [mdzipfile_eq world hne, Except.ok.injEq, Option.some.injEq] at hzip
  have hheader (memory : UnzipMemory) := readHeader_writeHeader world memory hne
    (chooseVersion args.inc args.dec).1 (mdzipBlocks world.lib (chooseVersion args.inc args.dec).2
      args.zipBlocksize args.modsize args.zipRemainder args.zipBlockcount args.file
      (args.hclblock world))
  rw [hzip] at hheader
  have hcons : ∀ hash ∈ (args.hclblock world).hashlistvt, hash.Consistent := by
    rw [hashlistvt_hclblock]
    exact args.registered_blockList.consistent mdHashlist_tabled
  obtain ⟨header, nf, hread, -, -, -, -, hrecords⟩ := mdunzipfile_eq_some hjob
  obtain ⟨header', nf', hread', hinfos⟩ := mdlist_eq_some hlisted
  obtain ⟨unzip, hunzip, hversion, -, -, -, -, hcount, -, -, hsame⟩ := hheader memory
  obtain ⟨list, hlist, hversion', -, -, -, -, hcount', -, -, hsame'⟩ := hheader listMemory
  rw [hread, Except.ok.injEq, Prod.mk.injEq] at hunzip
  rw [hread', Except.ok.injEq, Prod.mk.injEq] at hlist
  obtain ⟨rfl, rfl⟩ := hunzip
  obtain ⟨rfl, rfl⟩ := hlist
  rw [recordsOf, hversion, incKeyOf_chooseVersion, hcount, Int.toNat_natCast] at hrecords
  rw [hversion', incKeyOf_chooseVersion, hcount', Int.toNat_natCast] at hinfos
  obtain ⟨record, hrecord⟩ : ∃ record, job.records[i]? = some record :=
    ⟨_, List.getElem?_eq_getElem (by rw [hrecords, length_readRecords]; exact hi)⟩
  obtain ⟨info, hinfo⟩ : ∃ info, listed[i]? = some info :=
    ⟨_, List.getElem?_eq_getElem (by rw [hinfos, length_listBlocks]; exact hi)⟩
  refine ⟨record, info, hrecord, hinfo, ?_, ?_⟩
  · rw [hrecords] at hrecord
    refine readRecords_keys (fun hash hmem => ?_) ?_ hrecord
    · exact hcons hash (hsame.hashlistvt.symm ▸ hmem)
    · exact hsame
  · rw [hinfos] at hinfo
    refine listBlocks_keys (fun hash hmem => ?_) ?_ hinfo
    · exact hcons hash (hsame'.hashlistvt.symm ▸ hmem)
    · exact hsame'

end Mdencode.Cpp
