import Mdencode.Cpp.ExponentRoundTrip
import Mdencode.Cpp.MdUnzipSimple
import Mdencode.Cpp.UnzipTotal

/-! The other two formats, from the file to the file. The archives of
`mdzipsip47` have their exponents in a table, and come back when there is a
format for it; those without a header always do. -/

namespace Mdencode.Cpp

open Mdencode.Bytes Mdencode.Bits Mdencode.Transition

/-- Of what the threads test, the digests pick out the block. -/
def SeparatesTested (lib : HashLibrary) (keys : Registers) (hashlistvt : List Hashlist)
    (m T : ℕ) (pos : BlockPosition) (block : List UInt8) : Prop :=
  ∀ data, Tested m T pos (ofBE block % calcModulusInt m) (calcExponent (ofBE block)) block.length
      data →
    (∀ hash ∈ hashlistvt, blockSignature lib keys data hash = blockSignature lib keys block hash) →
      data = block

/-- A record that says what its block is leads back to it, if the digests tell
the block from the others that are tested. -/
theorem restores_of_separatesTested {job : UnzipJob Registers} {i : ℕ}
    {record : BlockRecord Registers} {block : List UInt8} {lib : HashLibrary} {keys : Registers}
    {hashlistvt : List Hashlist} (hm : 2 ≤ job.modsize) (hT : 1 ≤ job.threadcount)
    (hblocksize : record.blocksize = block.length)
    (hexp : record.modexponent = calcExponent (ofBE block))
    (hrem : record.modulusIntRemainder = ofBE block % calcModulusInt job.modsize)
    (haccepts : ∀ data, job.compareBlockHashList record.hregister data = true ↔
      ∀ hash ∈ hashlistvt, blockSignature lib keys data hash = blockSignature lib keys block hash)
    (hsep : SeparatesTested lib keys hashlistvt job.modsize job.threadcount (blockPosition i)
      block) : Restores job i record block := by
  refine ⟨hblocksize, hrem, (haccepts block).mpr fun _ _ => rfl, fun data hdata haccept => ?_, ?_⟩
  · rw [hblocksize, hexp, hrem] at hdata
    exact hsep data hdata ((haccepts data).mp haccept)
  · rw [hexp]
    exact metInTime_calcExponent hm hT block

/-! A digest of the end of the data -/

/-- Digests that begin with the last byte of the data and go back from there. -/
def tailLibrary : HashLibrary :=
  { echoWorld.lib with hash := fun _ _ data k => data.reverse.getD k 0 }

theorem ofBE_mod_of_reverse {xs ys : List UInt8} {d : ℕ} (hxs : d ≤ xs.length)
    (hys : d ≤ ys.length) (h : ∀ k < d, xs.reverse.getD k 0 = ys.reverse.getD k 0) :
    ofBE xs % 256 ^ d = ofBE ys % 256 ^ d := by
  have hsplit (bytes : List UInt8) (hlen : d ≤ bytes.length) :
      ofBE bytes % 256 ^ d = ofBE (bytes.reverse.take d).reverse := by
    have hlast : (bytes.reverse.take d).reverse = bytes.drop (bytes.length - d) := by
      rw [List.reverse_take, List.reverse_reverse, List.length_reverse]
    have hd : (bytes.drop (bytes.length - d)).length = d := by
      rw [List.length_drop]
      omega
    have hvalue := ofBE_append (bytes.take (bytes.length - d)) (bytes.drop (bytes.length - d))
    rw [List.take_append_drop, hd] at hvalue
    have hlt := ofBE_lt (bytes.drop (bytes.length - d))
    rw [hd] at hlt
    rw [hlast, hvalue, Nat.mul_add_mod_self_right, Nat.mod_eq_of_lt hlt]
  have htake : xs.reverse.take d = ys.reverse.take d := by
    apply List.ext_getElem (by simp [hxs, hys])
    intro k hk hk'
    have hkd : k < d := by
      rw [List.length_take] at hk
      omega
    have hget := h k hkd
    rw [List.getD_eq_getElem?_getD, List.getD_eq_getElem?_getD,
      List.getElem?_eq_getElem (by rw [List.length_reverse]; omega),
      List.getElem?_eq_getElem (by rw [List.length_reverse]; omega)] at hget
    rw [List.getElem_take, List.getElem_take]
    exact hget
  rw [hsplit xs hxs, hsplit ys hys, htake]

/-- Two candidates have the remainder of the block in common. -/
theorem candidate_mod {m T t : ℕ} {pos : BlockPosition} (b exponent k : ℕ) :
    scanStart m T t (b % calcModulusInt m) exponent pos + k * (calcModulusInt m * T) ≡ b
      [MOD calcModulusInt m] := by
  obtain ⟨c, hc⟩ : calcModulusInt m ∣ floorModulus m T pos := dvd_floorModulus
  have hsplit : scanStart m T t (b % calcModulusInt m) exponent pos +
      k * (calcModulusInt m * T) = b % calcModulusInt m +
        calcModulusInt m * (calcModulusInt exponent / floorModulus m T pos * c + t + k * T) := by
    rw [scanStart]
    set floor := calcModulusInt exponent / floorModulus m T pos
    rw [hc]
    ring
  rw [hsplit, Nat.ModEq, Nat.add_mul_mod_self_left, Nat.mod_mod]

/-- Such a digest of `d` bytes and the remainder pick the block out as long as the
threads stop below the product of what the two can tell apart. -/
theorem separatesTested_tail {keys : Registers} {hashlistvt : List Hashlist} {hash : Hashlist}
    {digestOf : Digest} {block : List UInt8} {m T d : ℕ} {pos : BlockPosition}
    (hmem : hash ∈ hashlistvt) (hdigest : digest hash.signature = some digestOf)
    (hd : d ≤ min digestOf.length hash.blocksize) (hlen : d ≤ block.length)
    (hcoprime : Nat.Coprime (256 ^ d) (calcModulusInt m))
    (hfit : 256 ^ d * calcModulusInt m ≤ 256 ^ block.length)
    (hblock : ofBE block < 256 ^ d * calcModulusInt m)
    (hstop : ∀ t < T, scanStart m T t (ofBE block % calcModulusInt m) (calcExponent (ofBE block))
      pos + ceilingStop (scanStart m T t (ofBE block % calcModulusInt m)
        (calcExponent (ofBE block)) pos) (calcModulusInt m * T)
        (2 ^ (calcExponent (ofBE block) + 1)) (decodeLineCount t) * (calcModulusInt m * T) <
          256 ^ d * calcModulusInt m) :
    SeparatesTested tailLibrary keys hashlistvt m T pos block := by
  rintro data ⟨t, ht, k, hk, rfl⟩ hsame
  set v := scanStart m T t (ofBE block % calcModulusInt m) (calcExponent (ofBE block)) pos +
    k * (calcModulusInt m * T) with hv
  have hlt : v < 256 ^ d * calcModulusInt m :=
    (Nat.add_le_add_left (Nat.mul_le_mul_right _ hk) _).trans_lt (hstop t ht)
  have hfits : v < 256 ^ block.length := hlt.trans_le hfit
  have hsig := hsame hash hmem
  have hget (bytes : List UInt8) (j : ℕ) (hj : j < d) :
      (blockSignature tailLibrary keys bytes hash)[j]? = some (bytes.reverse.getD j 0) := by
    have hjd : j < digestOf.length := by omega
    have hjb : j < hash.blocksize := by omega
    simp [blockSignature, hdigest, Digest.run, tailLibrary, hjd, hjb]
  have hbytes : ∀ j < d, (toBE block.length v).reverse.getD j 0 = block.reverse.getD j 0 := by
    intro j hj
    rw [← Option.some.injEq, ← hget _ j hj, ← hget _ j hj, ← hsig, exported_of_lt hfits]
  have hlow := ofBE_mod_of_reverse (by rwa [length_toBE]) hlen hbytes
  rw [ofBE_toBE_of_lt hfits] at hlow
  have hvalue : v = ofBE block :=
    ((Nat.modEq_and_modEq_iff_modEq_mul hcoprime).mp
      ⟨hlow, candidate_mod (ofBE block) _ k⟩).eq_of_lt_of_lt hlt hblock
  rw [exported_of_lt hfits, hvalue, toBE_ofBE]
/-! The records of `mdzipsip47` -/

/-- What the record of a block says besides its exponent. -/
structure Describes (lib : HashLibrary) (hashlistvt : List Hashlist) (keys : Registers)
    (modsize : ℕ) (block : List UInt8) (record : BlockRecord Registers) : Prop where
  blocksize : record.blocksize = block.length
  modulusIntRemainder : record.modulusIntRemainder = ofBE block % calcModulusInt modsize
  accepts : ∀ data, compareUnder lib hashlistvt record.hregister data = true ↔
    ∀ hash ∈ hashlistvt, blockSignature lib keys data hash = blockSignature lib keys block hash

namespace MdZip47

section
variable {lib : HashLibrary} {incKey : IncrementKey} {modsizebits : ℕ} {modsizeBytes : ℤ}
  {blocksize blockremainder left : ℕ}

/-- The loop only adds to what it has written. -/
theorem forByteblocks_mdzipBlock (nf : List UInt8) (enc : MdHashContextList)
    (mdzip : List UInt8) :
    (forByteblocks (mdzipBlock lib incKey modsizebits modsizeBytes) blocksize blockremainder left nf
        (enc, mdzip)).2 =
      mdzip ++ (forByteblocks (mdzipBlock lib incKey modsizebits modsizeBytes) blocksize
        blockremainder left nf (enc, [])).2 := by
  induction left generalizing nf enc mdzip with
  | zero => simp [forByteblocks]
  | succ left ih =>
    rw [forByteblocks, forByteblocks]
    simp only [mdzipBlock]
    rw [ih, ih _ _ ([] ++ _ ++ _)]
    simp only [List.nil_append, List.append_assoc]

/-- The reader takes one record in, and is ready for the next. -/
theorem readRecord_mdzipBlock
    (hfit : ∀ v, v % calcModulusInt modsizebits < 256 ^ modsizeBytes.toNat)
    {enc spec : MdHashContextList} {r : MdUnzip47.Reader}
    (hcons : ∀ hash ∈ enc.hashlistvt, hash.Consistent) (hunshared : Unshared enc.hashlistvt)
    (hsame : SameContext enc r.hclblock) (hspec : SameContext enc spec)
    (hbytes : r.modulusbytes.length = modsizeBytes.toNat) (f base : ℕ) (last last' : Bool)
    (block rest : List UInt8) (hnf : r.nf = IStream.ofBytes
      ((mdzipBlock lib incKey modsizebits modsizeBytes last block (enc, [])).2 ++ rest)) :
    let next := (mdzipBlock lib incKey modsizebits modsizeBytes last block (enc, [])).1
    ∃ record r', MdUnzip47.readRecord incKey f base last' block.length r = (record, r') ∧
      Describes lib enc.hashlistvt (spec.incrementBlockNum incKey).hregister modsizebits block
        record ∧
      SameContext next r'.hclblock ∧ SameContext next (spec.incrementBlockNum incKey) ∧
      r'.modulusbytes.length = modsizeBytes.toNat ∧ r'.nf = IStream.ofBytes rest := by
  intro next
  obtain ⟨dec, bsr, modulusbytes, nf⟩ := r
  dsimp only at hsame hbytes hnf
  subst hnf
  have hrem := hfit (ofBE block)
  obtain ⟨dec', hread, hnext, haccepts⟩ := readBlockHashList_writeBlockHashList lib block hsame
    hcons hunshared incKey
    (exportRemainder modsizeBytes.toNat (ofBE block % calcModulusInt modsizebits) ++ rest)
  have hlistNext : (enc.incrementBlockNum incKey).hashlistvt = enc.hashlistvt :=
    hashlistvt_incrementBlockNum enc
  have hlist : (dec'.incrementBlockNum incKey).hashlistvt = enc.hashlistvt :=
    hnext.hashlistvt.symm.trans hlistNext
  have hkeys := (hspec.incrementBlockNum incKey).keys
  have hrun : MdUnzip47.readRecord incKey f base last' block.length ⟨dec, bsr, modulusbytes,
      IStream.ofBytes ((mdzipBlock lib incKey modsizebits modsizeBytes last block (enc, [])).2 ++
        rest)⟩ =
      (⟨(dec'.incrementBlockNum incKey).hregister, (MdUnzip47.readExponent f base last' bsr).1,
          mpzImport (exportRemainder modsizeBytes.toNat
            (ofBE block % calcModulusInt modsizebits)), (block.length : ℤ).toNat⟩,
        ⟨dec'.incrementBlockNum incKey, (MdUnzip47.readExponent f base last' bsr).2,
          exportRemainder modsizeBytes.toNat (ofBE block % calcModulusInt modsizebits),
          IStream.ofBytes rest⟩) := by
    simp only [MdUnzip47.readRecord, mdzipBlock, List.nil_append, List.append_assoc, mpzImport]
    rw [hread]
    dsimp only
    rw [IStream.read_append (by rw [exportRemainder_eq hrem, length_toBE, hbytes])]
  refine ⟨_, _, hrun, ⟨by simp, ?_, fun data => ?_⟩, hnext, ?_, ?_, rfl⟩
  · rw [exportRemainder_eq hrem, mpzImport, ofBE_toBE_of_lt hrem]
  · have hcompare : compareUnder lib enc.hashlistvt (dec'.incrementBlockNum incKey).hregister data =
        (dec'.incrementBlockNum incKey).compareBlockHashList lib data := by
      rw [compareUnder, MdHashContextList.compareBlockHashList,
        MdHashContextList.compareBlockHashList, hlist]
    rw [hcompare, haccepts]
    exact forall₂_congr fun hash hmem => by
      rw [blockSignature_congr lib (hcons hash hmem) hkeys,
        blockSignature_congr lib (hcons hash hmem) hkeys]
  · exact (sameContext_setByteBlockHashList lib block (hlistNext.symm ▸ hcons)
      (hlistNext.symm ▸ hunshared)).trans (hspec.incrementBlockNum incKey)
  · rw [exportRemainder_eq hrem, length_toBE]

/-- Every block has its record. -/
theorem readRecords_records
    (hfit : ∀ v, v % calcModulusInt modsizebits < 256 ^ modsizeBytes.toNat)
    (hrem : blockremainder ≤ blocksize) (f base : ℕ) {nf : List UInt8}
    {enc spec : MdHashContextList} {r : MdUnzip47.Reader}
    (hcons : ∀ hash ∈ enc.hashlistvt, hash.Consistent) (hunshared : Unshared enc.hashlistvt)
    (hsame : SameContext enc r.hclblock) (hspec : SameContext enc spec)
    (hbytes : r.modulusbytes.length = modsizeBytes.toNat)
    (hlen : 0 < left → nf.length = (left - 1) * blocksize + blockremainder)
    (hnf : r.nf = IStream.ofBytes (forByteblocks (mdzipBlock lib incKey modsizebits modsizeBytes)
      blocksize blockremainder left nf (enc, [])).2) {i : ℕ} (hi : i < left) :
    ∃ record, (readRecords (MdUnzip47.readRecord incKey f base) blocksize blockremainder left
        r)[i]? = some record ∧
      Describes lib enc.hashlistvt (contextAt incKey spec i).hregister modsizebits
        (fileBlock blocksize nf i) record := by
  induction left generalizing nf enc spec r i with
  | zero => omega
  | succ left ih =>
    replace hlen := hlen (Nat.succ_pos _)
    rw [Nat.add_sub_cancel] at hlen
    have hblock := take_eq_fileBlock hrem hlen
    have hcurr := nextSize_eq hrem hlen
    set block := fileBlock blocksize nf 0
    rw [forByteblocks, forByteblocks_mdzipBlock, hblock] at hnf
    obtain ⟨record, r', hread, hrecord, hsame', hspec', hbytes', hnf'⟩ :=
      readRecord_mdzipBlock hfit hcons hunshared hsame hspec hbytes f base (left = 0) (left = 0)
        block _ hnf
    rw [readRecords, hcurr, hread]
    dsimp only
    cases i with
    | zero => exact ⟨record, rfl, hrecord⟩
    | succ i =>
      have hcurr' : (if left = 0 ∧ blockremainder ≠ blocksize then blockremainder
          else blocksize) = blocksize := if_neg (by omega)
      rw [hcurr'] at hnf'
      have hlist : (mdzipBlock lib incKey modsizebits modsizeBytes (left = 0) block
          (enc, [])).1.hashlistvt = enc.hashlistvt := hashlistvt_incrementBlockNum enc
      obtain ⟨record', hget, hrecord'⟩ := ih (hlist ▸ hcons) (hlist ▸ hunshared) hsame' hspec'
        hbytes' (length_drop_block hlen) hnf' (Nat.lt_of_succ_lt_succ hi)
      rw [hlist] at hrecord'
      refine ⟨record', by simpa using hget, ?_⟩
      rw [← fileBlock_drop]
      exact hrecord'

end

theorem mdversion_of_readHeader {memory : Unzip47Memory} {version : ℕ} {rest : List UInt8}
    {header : MdUnzip47.Header} {nf : IStream}
    (h : MdUnzip47.readHeader memory (IStream.ofBytes (toLE 8 version ++ rest)) =
      .ok (some (header, nf))) : header.mdversion = toLE 8 version := by
  unfold MdUnzip47.readHeader at h
  rw [IStream.read_append (by simp)] at h
  dsimp only at h
  split_ifs at h
  · cases h
  · obtain ⟨⟨_, _, _⟩, -, h⟩ := exists_of_bind_eq_ok h
    obtain ⟨⟨_, _, _⟩, -, h⟩ := exists_of_bind_eq_ok h
    obtain ⟨_, -, h⟩ := exists_of_bind_eq_ok h
    obtain ⟨_, -, h⟩ := exists_of_bind_eq_ok h
    obtain ⟨rfl, -⟩ := Prod.mk.inj (Option.some.inj (Except.ok.inj h))
    rfl

variable {mdz : MdZip47} (world : Zip47World)

/-- The keys in force at block `i`. -/
def keysAt (mdz : MdZip47) (i : ℕ) : Registers :=
  (contextAt (chooseVersion mdz.inc mdz.dec).2 (mdz.hclblock world) i).hregister

/-- Block `i` of the file. -/
def block (mdz : MdZip47) (i : ℕ) : List UInt8 := fileBlock mdz.zipBlocksize mdz.file i

theorem flatten_block (hne : mdz.file ≠ []) :
    ((List.range mdz.zipBlockcount).map mdz.block).flatten = mdz.file := by
  obtain ⟨m, hm, hlen⟩ := exists_blocks hne
  have hle := zipRemainder_le hne
  apply (Chunks.flatten_slices mdz.zipBlocksize mdz.file mdz.zipBlockcount).trans
  apply List.take_of_length_le
  rw [hm, Nat.succ_mul]
  omega

/-- A remainder fits in the bytes it is given. -/
theorem mod_lt_setModulus (mdz : MdZip47) (v : ℕ) :
    v % calcModulusInt mdz.modsizebits < 256 ^ (MdUnzip47.setModulus mdz.modsizebits).toNat := by
  rcases mdz.blockList_cases with ⟨-, h⟩ | ⟨-, h⟩ | ⟨-, h⟩ <;> rw [h]
  all_goals
    exact (Nat.mod_lt _ (calcModulusInt_pos (by norm_num))).trans_le (by decide)

theorem setModulus_eq (mdz : MdZip47) :
    setModulus mdz.modsizebits = MdUnzip47.setModulus mdz.modsizebits := by
  rcases mdz.blockList_cases with ⟨-, h⟩ | ⟨-, h⟩ | ⟨-, h⟩ <;> rw [h] <;> rfl

/-- No thread gets past the buffer of a block of the file. -/
def FileFits (mdz : MdZip47) (T : ℕ) : Prop :=
  ∀ i < mdz.zipBlockcount, ∀ t < T,
    Fits mdz.modsizebits T t (blockPosition i) (calcExponent (ofBE (mdz.block i))) (mdz.block i)

/-- The job the reader makes of an archive with a table leads back to the blocks. -/
theorem exists_restorable (memory : Unzip47Memory) {T : ℕ} (hT : 1 ≤ T) (hne : mdz.file ≠ [])
    (hspread : HasFormat (spread mdz.exponents)) (hcount : mdz.zipBlockcount < 2 ^ 31)
    (hsep : ∀ i < mdz.zipBlockcount, SeparatesTested world.lib (mdz.keysAt world i) mdz.blockList
      mdz.modsizebits T (blockPosition i) (mdz.block i)) :
    ∃ archive job, mdz.mdzipfile world = .ok (some archive) ∧
      MdUnzip47.mdunzipfile world.lib memory T mdz.mdzipname archive = .ok (some job) ∧
      job.threadcount = T ∧ Restorable job ((List.range mdz.zipBlockcount).map mdz.block) ∧
      (mdz.FileFits T → AllFit job ((List.range mdz.zipBlockcount).map mdz.block)) := by
  obtain ⟨f, h2, h7, hformat, hwidth, hzip⟩ := mdzipfile_eq hne
  have hf := hformat.mpr hspread
  have hbits := MdBitstream.tableBitSize_lt hcount h7
  obtain ⟨header, nf, hcl, hread, hblocksize, hmodsize, hmodbytes, hblockcount, hblockrem, hsame,
    hunfold⟩ := mdunzipfile_archive_eq world memory T hne h7 hbits
  have hversion : header.mdversion = toLE 8 (chooseVersion mdz.inc mdz.dec).1 := by
    simp only [archive, MdZip47.header, writeHeader, List.append_assoc] at hread
    exact mdversion_of_readHeader hread
  have hpos := zipRemainder_pos hne
  have hle := zipRemainder_le hne
  have hsmall := zipBlocksize_le mdz
  obtain ⟨m, hm, hlen⟩ := exists_blocks hne
  set reader : MdUnzip47.Reader :=
    { hclblock := hcl
      bsr := (openTable f (mdz.table f world.stray)).2
      modulusbytes := List.replicate header.modsizeBytes.toNat 0
      nf := IStream.ofBytes (mdz.records world) } with hreader
  obtain ⟨job, hjob, hthreads, hjobsize, hcompare, hrecords⟩ := startBlocks_eq T header.modsizebits
    (initialRegisters memory.threadMemory) (compareUnder world.lib hcl.hashlistvt)
    (MdUnzip47.readRecord_blocksize (incKeyOf header.mdversion) f
      (openTable f (mdz.table f world.stray)).1) reader
    (by omega : header.blockcount < 2 ^ 31) (by omega : header.blocksize < 2 ^ 31)
    (by omega : 0 < header.blockremainder) (by omega : header.blockremainder ≤ header.blocksize)
  rw [hjob, ok_bind] at hunfold
  have hlist : (mdz.hclblock world).hashlistvt = mdz.blockList := hashlistvt_hclblock mdz world
  have hjobmod : job.modsize = mdz.modsizebits := by rw [hjobsize, hmodsize, Int.toNat_natCast]
  have hmod : 2 ≤ job.modsize := by
    rw [hjobmod]
    rcases mdz.blockList_cases with ⟨-, h⟩ | ⟨-, h⟩ | ⟨-, h⟩ <;> rw [h] <;> norm_num
  have hexponents : job.records.map BlockRecord.modexponent = mdz.exponents := by
    rw [hrecords, MdUnzip47.modexponents_readRecords, hblockcount, Int.toNat_natCast,
      readExponents_table hne h2 hf (hwidth hf)]
  have hlength : job.records.length = mdz.zipBlockcount := by
    rw [hrecords, length_readRecords, hblockcount, Int.toNat_natCast]
  have hrecordOf {i : ℕ} {record : BlockRecord Registers} {block : List UInt8}
      (hrecord : job.records[i]? = some record)
      (hblock : ((List.range mdz.zipBlockcount).map mdz.block)[i]? = some block) :
      i < mdz.zipBlockcount ∧ mdz.block i = block ∧
        record.modexponent = calcExponent (ofBE (mdz.block i)) := by
    have hi : i < mdz.zipBlockcount := hlength ▸ (List.getElem?_eq_some_iff.mp hrecord).1
    have hget := congrArg (·[i]?) hexponents
    rw [List.getElem?_map, hrecord, exponents, exponentsOf, List.getElem?_map,
      List.getElem?_range hi, Option.map_some, Option.map_some, Option.some.injEq] at hget
    exact ⟨hi, by simpa [hi] using hblock, hget⟩
  refine ⟨_, job, by rw [hzip, if_pos hbits], hunfold, hthreads, ⟨by omega, by simp [hlength],
    fun i record block hrecord hblock => ?_⟩, fun hfits i record block hrecord hblock t ht => ?_⟩
  · obtain ⟨hi, rfl, hexp⟩ := hrecordOf hrecord hblock
    have hcons : ∀ hash ∈ (mdz.hclblock world).hashlistvt, hash.Consistent :=
      hlist ▸ mdz.registered_blockList.consistent mdHashlistNew_tabled
    have hunshared : Unshared (mdz.hclblock world).hashlistvt :=
      hlist ▸ mdz.registered_blockList.unshared mdHashlistNew_tabled
    have hspec : SameContext (mdz.hclblock world) (mdz.hclblock world) :=
      ⟨rfl, rfl, KeysAgree.refl _⟩
    obtain ⟨record', hrecord', hof⟩ := readRecords_records (r := reader) mdz.mod_lt_setModulus hle
      f (openTable f (mdz.table f world.stray)).1 hcons hunshared hsame hspec
      (by rw [hreader]; simp [hmodbytes]) (fun _ => by rw [hm]; exact hlen)
      (by rw [hreader, records, setModulus_eq]) hi
    rw [hrecords, hblockcount, Int.toNat_natCast, hversion, incKeyOf_chooseVersion, hblocksize,
      hblockrem] at hrecord
    obtain rfl : record = record' := Option.some.inj (hrecord.symm.trans hrecord')
    rw [hlist] at hof
    apply restores_of_separatesTested hmod (hthreads ▸ hT) hof.blocksize hexp
      (hjobmod.symm ▸ hof.modulusIntRemainder) _ (hjobmod.symm ▸ hthreads.symm ▸ hsep i hi)
    rw [hcompare, ← hsame.hashlistvt, hlist]
    exact hof.accepts
  · obtain ⟨hi, rfl, hexp⟩ := hrecordOf hrecord hblock
    rw [hexp, hjobmod, hthreads]
    exact hfits i hi t (hthreads ▸ ht)

/-- Every fair disciplined run over the archive of a file whose exponents are
close enough to be put in a table, and whose blocks the digest tells apart and the
candidates fit, leaves the file behind. The bound on the blocks is that of the
offset of the bit stream. -/
theorem sip47_restores_finally (memory : Unzip47Memory) {T : ℕ} (hT : 1 ≤ T) (hne : mdz.file ≠ [])
    (hspread : HasFormat (spread mdz.exponents)) (hcount : mdz.zipBlockcount ≤ 2 ^ 29)
    (hsep : ∀ i < mdz.zipBlockcount, SeparatesTested world.lib (mdz.keysAt world i) mdz.blockList
      mdz.modsizebits T (blockPosition i) (mdz.block i))
    (hfits : mdz.FileFits T) :
    ∃ archive job, mdz.mdzipfile world = .ok (some archive) ∧
      MdUnzip47.mdunzipfile world.lib memory T mdz.mdzipname archive = .ok (some job) ∧
      ∀ schedule run, Fair schedule →
        Scheduled (unzipStep job) Disciplined (UnzipState.initial job) schedule run →
        ∃ n, Finished job (run n) ∧ (∀ m ≥ n, (run m).output = mdz.file) ∧
          ∀ m, ¬ Overruns (run m) := by
  obtain ⟨archive, job, hzip, hjob, hthreads, hrestorable, hfit⟩ :=
    exists_restorable world memory hT hne hspread (by omega) hsep
  refine ⟨archive, job, hzip, hjob, fun schedule run hfair hrun => ?_⟩
  obtain ⟨n, hfinished, houtput, hcontained⟩ :=
    hrestorable.output_finally (hthreads ▸ hT) (hfit hfits) hfair hrun
  exact ⟨n, hfinished, fun m hmn => (houtput m hmn).trans (flatten_block hne), hcontained⟩

def tailWorld47 : Zip47World :=
  { echoWorld with lib := tailLibrary, stray := fun _ => 0 }

theorem pair_separatesTested (i : ℕ) (hi : i < pairArgs.zipBlockcount) :
    SeparatesTested tailWorld47.lib (pairArgs.keysAt tailWorld47 i) pairArgs.blockList
      pairArgs.modsizebits 2 (blockPosition i) (pairArgs.block i) := by
  have hi : i < 2 := hi
  have hmem : ⟨.sip40, "sip40", 5, 16⟩ ∈ pairArgs.blockList := by decide
  apply separatesTested_tail hmem rfl (d := 5) (by decide)
  · interval_cases i <;> decide +kernel
  · decide +kernel
  · interval_cases i <;> decide +kernel
  · interval_cases i <;> decide +kernel
  · intro t ht
    rw [decodeLineCount_eq (by omega)]
    interval_cases i <;> interval_cases t <;> decide +kernel

theorem pair_fileFits : pairArgs.FileFits 2 := by
  intro i hi t ht
  have hi : i < 2 := hi
  right
  rw [decodeLineCount_eq (by omega)]
  interval_cases i <;> interval_cases t <;> decide +kernel

/-- Two threads bring both blocks back. -/
theorem sip47_restores_finally_pair : ∃ archive job schedule run n,
    pairArgs.mdzipfile tailWorld47 = .ok (some archive) ∧
    MdUnzip47.mdunzipfile tailWorld47.lib zeroMemory47 2 pairArgs.mdzipname archive =
      .ok (some job) ∧
    Fair schedule ∧ Scheduled (unzipStep job) Disciplined (UnzipState.initial job) schedule run ∧
    (run n).output = pairArgs.file ∧ ∀ m, ¬ Overruns (run m) := by
  obtain ⟨archive, job, hzip, hjob, hall⟩ := sip47_restores_finally tailWorld47 zeroMemory47
    one_le_two (by decide) (by decide) (by decide) pair_separatesTested pair_fileFits
  obtain ⟨schedule, run, hfair, hrun⟩ :=
    exists_fair_scheduled (unzipStep job) Disciplined (UnzipState.initial job)
  obtain ⟨n, -, houtput, hcontained⟩ := hall schedule run hfair hrun
  exact ⟨archive, job, schedule, run, n, hzip, hjob, hfair, hrun, houtput n le_rfl, hcontained⟩

end MdZip47

/-! The format without a header -/

namespace MdSimple

section
variable {mdz : MdSimple} (lib : HashLibrary) (blockMemory : Registers)

/-- No thread gets past the buffer of a block of the file. -/
def FileFits (mdz : MdSimple) (T : ℕ) : Prop :=
  ∀ i < mdz.zipBlockcount, ∀ t < T,
    Fits modsize T t (blockPosition i) (calcExponent (ofBE (mdz.block i))) (mdz.block i)

/-- Every fair disciplined run over the archive of a file whose blocks `FAST64`
tells from the others that are tested, and the candidates fit, leaves the file
behind. -/
theorem simple_restores_finally (memory : UnzipMemory) {T : ℕ} (hT : 1 ≤ T) (hne : mdz.file ≠ [])
    (hsep : ∀ i < mdz.zipBlockcount, SeparatesTested lib (mdz.keys blockMemory) blocklist modsize
      T (blockPosition i) (mdz.block i))
    (hcount : mdz.zipBlockcount < 2 ^ 31) (hfits : mdz.FileFits T) :
    ∃ archive job, mdz.mdzipfileNoHeader lib blockMemory = .ok (some archive) ∧
      mdunzipfile lib memory T mdz.mdzipname archive = .ok (some job) ∧
      ∀ schedule run, Fair schedule →
        Scheduled (unzipStep job) Disciplined (UnzipState.initial job) schedule run →
        ∃ n, Finished job (run n) ∧ (∀ m ≥ n, (run m).output = mdz.file) ∧
          ∀ m, ¬ Overruns (run m) := by
  obtain ⟨job, hjob, hthreads, hm, hcompare, hlength, hrecords⟩ :=
    mdunzipfile_archive lib blockMemory memory T hne hcount
  have hrecordOf {i : ℕ} {record : BlockRecord Registers} {block : List UInt8}
      (hrecord : job.records[i]? = some record)
      (hblock : ((List.range mdz.zipBlockcount).map mdz.block)[i]? = some block) :
      i < mdz.zipBlockcount ∧ mdz.block i = block ∧ record.blocksize = block.length ∧
        record.modexponent = calcExponent (ofBE block) ∧
        record.modulusIntRemainder = ofBE block % calcModulusInt job.modsize ∧
        ∀ data, job.compareBlockHashList record.hregister data = true ↔ ∀ hash ∈ blocklist,
          blockSignature lib (mdz.keys blockMemory) data hash =
            blockSignature lib (mdz.keys blockMemory) block hash := by
    have hi : i < mdz.zipBlockcount := hlength ▸ (List.getElem?_eq_some_iff.mp hrecord).1
    obtain rfl : mdz.block i = block := by simpa [hi] using hblock
    obtain ⟨record', hrecord', hof⟩ := hrecords i hi
    obtain rfl : record = record' := Option.some.inj (hrecord.symm.trans hrecord')
    obtain ⟨hpos, hle⟩ := length_block hne hi
    refine ⟨hi, rfl, hof.blocksize, hof.modexponent.trans (storedExponent_calcExponent hpos hle),
      hm ▸ hof.modulusIntRemainder, ?_⟩
    rw [hcompare]
    exact hof.accepts
  refine ⟨_, job, mdzipfileNoHeader_archive lib blockMemory hne, hjob, fun schedule run hfair
    hrun => ?_⟩
  have hmodsize : 2 ≤ job.modsize := by rw [hm]; decide
  have hrestorable : Restorable job ((List.range mdz.zipBlockcount).map mdz.block) := by
    refine ⟨by omega, by simp [hlength], fun i record block hrecord hblock => ?_⟩
    obtain ⟨hi, rfl, hsize, hexp, hrem, haccepts⟩ := hrecordOf hrecord hblock
    exact restores_of_separatesTested hmodsize (hthreads ▸ hT) hsize hexp hrem haccepts
      (hm.symm ▸ hthreads.symm ▸ hsep i hi)
  have hfit : AllFit job ((List.range mdz.zipBlockcount).map mdz.block) := by
    intro i record block hrecord hblock t ht
    obtain ⟨hi, rfl, -, hexp, -⟩ := hrecordOf hrecord hblock
    rw [hexp, hm, hthreads]
    exact hfits i hi t (hthreads ▸ ht)
  obtain ⟨n, hfinished, houtput, hcontained⟩ :=
    hrestorable.output_finally (hthreads ▸ hT) hfit hfair hrun
  exact ⟨n, hfinished, fun m hmn => (houtput m hmn).trans (flatten_block hne), hcontained⟩

/-- Two blocks that begin with zeros, of which the second is short. -/
def pairArgs : MdSimple :=
  plainArgs [0, 0, 0, 1, 2, 3, 4, 5, 6, 7, 8, 9, 10, 11, 0, 0, 3, 1, 4, 1, 5, 9, 2, 6, 5, 3]
    (by simp)

theorem pair_separatesTested (i : ℕ) (hi : i < pairArgs.zipBlockcount) :
    SeparatesTested tailLibrary (pairArgs.keys echoWorld.blockMemory) blocklist modsize 2
      (blockPosition i) (pairArgs.block i) := by
  have hi : i < 2 := hi
  have hmem : ⟨.fast64, "fast64", 8, 8⟩ ∈ blocklist := by decide
  apply separatesTested_tail hmem rfl (d := 8) (by decide)
  · interval_cases i <;> decide +kernel
  · decide +kernel
  · interval_cases i <;> decide +kernel
  · interval_cases i <;> decide +kernel
  · intro t ht
    rw [decodeLineCount_eq (by omega)]
    interval_cases i <;> interval_cases t <;> decide +kernel

theorem pair_fileFits : pairArgs.FileFits 2 := by
  intro i hi t ht
  have hi : i < 2 := hi
  right
  rw [decodeLineCount_eq (by omega)]
  interval_cases i <;> interval_cases t <;> decide +kernel

/-- Two threads bring both blocks back. -/
theorem simple_restores_finally_pair : ∃ archive job schedule run n,
    pairArgs.mdzipfileNoHeader tailLibrary echoWorld.blockMemory = .ok (some archive) ∧
    mdunzipfile tailLibrary echoMemory 2 pairArgs.mdzipname archive = .ok (some job) ∧
    Fair schedule ∧ Scheduled (unzipStep job) Disciplined (UnzipState.initial job) schedule run ∧
    (run n).output = pairArgs.file ∧ ∀ m, ¬ Overruns (run m) := by
  obtain ⟨archive, job, hzip, hjob, hall⟩ := simple_restores_finally tailLibrary
    echoWorld.blockMemory echoMemory one_le_two (by decide) pair_separatesTested (by decide)
    pair_fileFits
  obtain ⟨schedule, run, hfair, hrun⟩ :=
    exists_fair_scheduled (unzipStep job) Disciplined (UnzipState.initial job)
  obtain ⟨n, -, houtput, hcontained⟩ := hall schedule run hfair hrun
  exact ⟨archive, job, schedule, run, n, hzip, hjob, hfair, hrun, houtput n le_rfl, hcontained⟩

end

end MdSimple

end Mdencode.Cpp
