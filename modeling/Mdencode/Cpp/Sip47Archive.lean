import Mdencode.Cpp.ExponentTable

/-! The archive of `mdzipsip47`: its header and its table, written and read back,
and its records. -/

namespace Mdencode.Cpp

open Mdencode.Bytes Mdencode.Bits

namespace MdZip47

/-! The block split -/

section
variable (mdz : MdZip47)

def zipBlocksize : ℕ :=
  if mdz.file.length < mdz.blocksize then mdz.file.length else mdz.blocksize

def zipBlockcount : ℕ := (mdz.file.length + mdz.zipBlocksize - 1) / mdz.zipBlocksize

def zipRemainder : ℕ :=
  if mdz.file.length % mdz.zipBlocksize = 0 then mdz.zipBlocksize
  else mdz.file.length % mdz.zipBlocksize

/-- The exponents of the blocks of the file. -/
def exponents : List ℕ := exponentsOf mdz.zipBlocksize mdz.file mdz.zipBlockcount

def fileList : List Hashlist := setVectorHL mdHashlistNew mdz.fhlist

def blockList : List Hashlist := setVectorHL mdHashlistNew mdz.bhlist

theorem registered_fileList : Registered mdHashlistNew mdz.fileList :=
  setVectorHL_registered mdHashlistNew_wellNamed mdz.fhlist

theorem registered_blockList : Registered mdHashlistNew mdz.blockList :=
  setVectorHL_registered mdHashlistNew_wellNamed mdz.bhlist

theorem fileExtension_mdzipname : fileExtension mdz.mdzipname = ascii "mdz" :=
  fileExtension_mdz mdz.filename_ne

theorem blockList_cases :
    mdz.blockList = [⟨.sip40, "sip40", 5, 16⟩] ∧ mdz.modsizebits = 32 ∨
      mdz.blockList = [⟨.sip48, "sip48", 6, 16⟩] ∧ mdz.modsizebits = 24 ∨
      mdz.blockList = [⟨.hw48, "hw48", 6, 32⟩] ∧ mdz.modsizebits = 24 := by
  unfold blockList bhlist modsizebits
  cases mdz.sip48 <;> cases mdz.hw48 <;> decide

theorem zipBlocksize_le : mdz.zipBlocksize ≤ 10 := by
  have := mdz.blocksize_le
  unfold zipBlocksize
  split_ifs <;> omega

variable {mdz}

theorem zipBlocksize_pos (hne : mdz.file ≠ []) : 0 < mdz.zipBlocksize := by
  have := List.length_pos_iff.mpr hne
  have := mdz.one_le_blocksize
  unfold zipBlocksize
  split_ifs <;> omega

theorem zipRemainder_pos (hne : mdz.file ≠ []) : 0 < mdz.zipRemainder := by
  have := zipBlocksize_pos hne
  unfold zipRemainder
  split_ifs <;> omega

theorem zipRemainder_le (hne : mdz.file ≠ []) : mdz.zipRemainder ≤ mdz.zipBlocksize := by
  have := Nat.mod_lt mdz.file.length (zipBlocksize_pos hne)
  unfold zipRemainder
  split_ifs <;> omega

/-- The file has some blocks before its last. -/
theorem exists_blocks (hne : mdz.file ≠ []) :
    ∃ m, mdz.zipBlockcount = m + 1 ∧
      mdz.file.length = m * mdz.zipBlocksize + mdz.zipRemainder := by
  obtain ⟨hcount, hlen⟩ := length_eq_blocks (List.length_pos_iff.mpr hne) (zipBlocksize_pos hne)
  exact ⟨mdz.zipBlockcount - 1, (Nat.sub_add_cancel hcount).symm, hlen⟩

/-- Exponents are small, and none is zero. -/
theorem exponent_mem (hne : mdz.file ≠ []) {e : ℕ} (he : e ∈ mdz.exponents) :
    1 ≤ e ∧ e < 2 ^ 7 := by
  obtain ⟨m, hm, hlen⟩ := exists_blocks hne
  have hpos := zipRemainder_pos hne
  have hsize := mdz.zipBlocksize_le
  rw [exponents, hm] at he
  obtain ⟨i, hi, rfl⟩ := List.mem_map.mp he
  rw [List.mem_range] at hi
  have hle := Nat.mul_le_mul_right mdz.zipBlocksize (Nat.le_of_lt_succ hi)
  have hblock : 0 < (fileBlock mdz.zipBlocksize mdz.file i).length ∧
      (fileBlock mdz.zipBlocksize mdz.file i).length ≤ mdz.zipBlocksize := by
    have := zipBlocksize_pos hne
    rw [fileBlock, List.length_take, List.length_drop]
    omega
  have := calcExponent_le hblock.1
  exact ⟨(calcExponent_spec _).1, by omega⟩

end

/-! The table of exponents -/

section
variable (mdz : MdZip47)

/-- What the differences in the table are taken to. -/
def modexponentbase : ℕ := (leastExponent mdz.exponents).toNat

/-- The table in the archive. In format 7 it is what stray memory holds. -/
def table (f : ℕ) (stray : ℕ → UInt8) : List UInt8 :=
  if f < 7 then
    pack (MdBitstream.tableBytes f mdz.zipBlockcount)
      (toBits 7 mdz.modexponentbase ++ MdBitstream.tableBits f mdz.modexponentbase
        mdz.exponents.dropLast (mdz.exponents.getLastD 0))
  else (List.range (MdBitstream.tableBytes f mdz.zipBlockcount)).map stray

theorem length_table (f : ℕ) (stray : ℕ → UInt8) :
    (mdz.table f stray).length = MdBitstream.tableBytes f mdz.zipBlockcount := by
  unfold table
  split_ifs <;> simp

variable {mdz}

theorem leastExponent_eq : leastExponent mdz.exponents = mdz.modexponentbase := by
  refine (Int.toNat_of_nonneg ?_).symm
  rw [leastExponent, le_foldl_min_iff]
  refine ⟨by norm_num, fun e he => ?_⟩
  obtain ⟨e, -, rfl⟩ := List.mem_map.mp he
  exact Int.natCast_nonneg e

/-- The differences to the least exponent are at most the spread. -/
theorem modexponentbase_le {e : ℕ} (he : e ∈ mdz.exponents.dropLast) :
    mdz.modexponentbase ≤ e ∧ ((e - mdz.modexponentbase : ℕ) : ℤ) ≤ spread mdz.exponents := by
  have hle := (le_foldl_min_iff.mp (le_refl (leastExponent mdz.exponents))).2 e
    (List.mem_map.mpr ⟨e, he, rfl⟩)
  have hge := (foldl_max_le_iff.mp (le_refl (largestExponent mdz.exponents))).2 e
    (List.mem_map.mpr ⟨e, List.dropLast_subset _ he, rfl⟩)
  rw [leastExponent_eq] at hle
  rw [spread, leastExponent_eq]
  omega

theorem exponents_concat {m : ℕ} (hm : mdz.zipBlockcount = m + 1) :
    mdz.exponents.dropLast = exponentsOf mdz.zipBlocksize mdz.file m ∧
      mdz.exponents.getLastD 0 =
        calcExponent (ofBE (fileBlock mdz.zipBlocksize mdz.file m)) := by
  rw [exponents, hm, exponentsOf_succ, List.dropLast_concat, List.getLastD_concat]
  exact ⟨rfl, rfl⟩

/-- What the passes over the file put in the archive. -/
theorem writeTable_eq (hne : mdz.file ≠ []) :
    ∃ (f : ℕ) (mb : MdBitstream), 2 ≤ f ∧ f ≤ 7 ∧ (f < 7 ↔ HasFormat (spread mdz.exponents)) ∧
      (f < 7 → spread mdz.exponents < 2 ^ f) ∧ mb.bitformat = f ∧
      (({} : MdBitstream).mdInitBitstream mdz.zipBlocksize mdz.zipBlockcount
        mdz.zipRemainder).calcMinMaxExponent mdz.file = mb ∧
      if MdBitstream.tableBitSize f mdz.zipBlockcount < 2 ^ 63 then
        ∃ mb', (if mb.bitformat < 7 then mb.mdzipModExponentBitstream26 mdz.file
            else mb.mdzipModExponentBitstream mdz.file) = .ok mb' ∧
          ∀ stray, mb'.writeBitstream stray = mdz.table f stray
      else (if mb.bitformat < 7 then mb.mdzipModExponentBitstream26 mdz.file
            else mb.mdzipModExponentBitstream mdz.file) = .error .signedOverflow := by
  obtain ⟨m, hm, hlen⟩ := exists_blocks hne
  have hrem := zipRemainder_le hne
  obtain ⟨f, hmeasured, h2, h7, hformat, hwidth⟩ :=
    MdBitstream.calcMinMaxExponent_measured hrem hlen
  obtain ⟨hinit, hlast⟩ := exponents_concat hm
  rw [← hm, ← exponents] at hformat hwidth
  refine ⟨f, _, h2, h7, hformat, hwidth, hmeasured.bitformat, by rw [hm], ?_⟩
  generalize (({} : MdBitstream).mdInitBitstream mdz.zipBlocksize (m + 1 : ℕ)
    mdz.zipRemainder).calcMinMaxExponent mdz.file = mb at hmeasured ⊢
  have hbase : leastExponent (exponentsOf mdz.zipBlocksize mdz.file (m + 1)) =
      mdz.modexponentbase := by
    rw [← hm]
    exact leastExponent_eq
  have hle : ∀ e ∈ exponentsOf mdz.zipBlocksize mdz.file m, mdz.modexponentbase ≤ e := by
    rw [← hinit]
    exact fun e he => (modexponentbase_le he).1
  have hbits := MdBitstream.calcBitstreamSize_eq hmeasured.blockcount hmeasured.bitformat
  rw [hmeasured.bitformat, hm]
  by_cases hf7 : f < 7
  · rw [if_pos (by omega : (f : ℤ) < 7)]
    split_ifs with hsize
    · obtain ⟨mb', heq, hbytes, htable⟩ := MdBitstream.mdzipModExponentBitstream26_eq hrem hlen
        hmeasured h2 (by omega) hbase hle hsize
      refine ⟨mb', heq, fun stray => ?_⟩
      rw [MdBitstream.writeBitstream, htable, table, if_pos hf7, hinit, hlast, hm]
      dsimp only
      rw [hbytes, Int.toNat_natCast, List.take_of_length_le (by simp)]
    · rw [MdBitstream.mdzipModExponentBitstream26, hbits, if_neg hsize]
      rfl
  · obtain rfl : f = 7 := by omega
    rw [if_neg (by norm_num : ¬ ((7 : ℕ) : ℤ) < 7)]
    split_ifs with hsize
    · obtain ⟨mb', heq, hbytes, htable⟩ :=
        MdBitstream.mdzipModExponentBitstream_eq hmeasured hsize
      refine ⟨mb', heq, fun stray => ?_⟩
      rw [MdBitstream.writeBitstream, htable, table, if_neg (by norm_num), hm]
      dsimp only
      rw [hbytes, Int.toNat_natCast]
    · rw [MdBitstream.mdzipModExponentBitstream, hbits, if_neg hsize]
      rfl

end

/-! The records -/

section
variable (mdz : MdZip47) (world : Zip47World)

/-- What follows the table. -/
def records : List UInt8 :=
  (forByteblocks (mdzipBlock world.lib (chooseVersion mdz.inc mdz.dec).2 mdz.modsizebits
    (setModulus mdz.modsizebits)) mdz.zipBlocksize mdz.zipRemainder mdz.zipBlockcount mdz.file
    (mdz.hclblock world, [])).2

theorem hashlistvt_hclblock : (mdz.hclblock world).hashlistvt = mdz.blockList :=
  hashlistvt_blockContext world.toZipWorld mdz.bhlist mdz.randombh

/-- A digest and a remainder take nine bytes, whatever the flags choose. -/
theorem recordSize_eq : calcBlockSize mdz.blockList + (setModulus mdz.modsizebits).toNat = 9 := by
  rcases mdz.blockList_cases with ⟨hlist, hmod⟩ | ⟨hlist, hmod⟩ | ⟨hlist, hmod⟩ <;>
    rw [hlist, hmod] <;> decide

theorem length_exportRemainder (n v : ℕ) : (exportRemainder n v).length = n := by
  simp [exportRemainder, length_padBlockBytes, length_mpzExport]

/-- The record loop has written `n` records. -/
def Written (n : ℕ) (s : MdHashContextList × List UInt8) : Prop :=
  s.1.hashlistvt = mdz.blockList ∧ s.2.length = 9 * n

theorem Written.mdzipBlock {mdz : MdZip47} {n : ℕ} {s : MdHashContextList × List UInt8}
    (h : mdz.Written n s) (lib : HashLibrary) (incKey : IncrementKey) (last : Bool)
    (byteblock : List UInt8) :
    mdz.Written (n + 1) (mdzipBlock lib incKey mdz.modsizebits (setModulus mdz.modsizebits) last
      byteblock s) := by
  obtain ⟨hcl, mdzip⟩ := s
  obtain ⟨hlist, hlen⟩ := h
  dsimp only at hlist hlen
  have hcons := mdz.registered_blockList.consistent mdHashlistNew_tabled
  have hnext : ((hcl.incrementBlockNum incKey).setByteBlockHashList lib byteblock).hashlistvt =
      mdz.blockList := (hashlistvt_incrementBlockNum hcl).trans hlist
  have hsize := mdz.recordSize_eq
  refine ⟨hnext, ?_⟩
  simp only [MdZip47.mdzipBlock, List.length_append, hlen, length_exportRemainder,
    length_writeBlockHashList (hnext ▸ hcons), hnext]
  omega

theorem length_records : (mdz.records world).length = 9 * mdz.zipBlockcount := by
  have hrun : mdz.Written (0 + mdz.zipBlockcount)
      (forByteblocks (mdzipBlock world.lib (chooseVersion mdz.inc mdz.dec).2 mdz.modsizebits
        (setModulus mdz.modsizebits)) mdz.zipBlocksize mdz.zipRemainder mdz.zipBlockcount mdz.file
        (mdz.hclblock world, [])) :=
    forByteblocks_induction (fun _ last byteblock _ h => h.mdzipBlock _ _ last byteblock)
      ⟨mdz.hashlistvt_hclblock world, rfl⟩ mdz.file
  rw [records, hrun.2, Nat.zero_add]

/-! The archive -/

theorem setLastBlockSize_eq : setLastBlockSize mdz.file.length mdz.zipBlocksize =
    mdz.zipRemainder := setLastBlockSize_natCast _ _

/-- What comes before the table. -/
def header : List UInt8 :=
  mdz.writeHeader (chooseVersion mdz.inc mdz.dec).1 mdz.zipBlocksize (mdz.hclfile world)
    (mdz.hclblock world)

def archive (f : ℕ) : List UInt8 :=
  mdz.header world ++ intBytes 1 f ++ mdz.table f world.stray ++ mdz.records world

variable {mdz}

/-- The archive of a file, unless its table is too large to count. -/
theorem mdzipfile_eq (hne : mdz.file ≠ []) :
    ∃ f : ℕ, 2 ≤ f ∧ f ≤ 7 ∧ (f < 7 ↔ HasFormat (spread mdz.exponents)) ∧
      (f < 7 → spread mdz.exponents < 2 ^ f) ∧ ∀ world, mdz.mdzipfile world =
        if MdBitstream.tableBitSize f mdz.zipBlockcount < 2 ^ 63 then
          .ok (some (mdz.archive world f))
        else .error .signedOverflow := by
  obtain ⟨f, mb, h2, h7, hformat, hwidth, hbitformat, hmeasured, htable⟩ := writeTable_eq hne
  refine ⟨f, h2, h7, hformat, hwidth, fun world => ?_⟩
  have hlen := (List.length_pos_iff.mpr hne).ne'
  have hpos := zipBlocksize_pos hne
  have hcount : calcFileBlocks mdz.file.length mdz.zipBlocksize = .ok mdz.zipBlockcount :=
    calcFileBlocks_natCast hpos
  rw [mdzipfile]
  dsimp only
  rw [if_neg hlen, ← zipBlocksize, hcount, ok_bind, setLastBlockSize_eq, hmeasured]
  by_cases hsize : MdBitstream.tableBitSize f mdz.zipBlockcount < 2 ^ 63
  · rw [if_pos hsize] at htable ⊢
    obtain ⟨mb', heq, hwrite⟩ := htable
    rw [heq, ok_bind, hwrite, hbitformat]
    rfl
  · rw [if_neg hsize] at htable ⊢
    rw [htable]
    rfl

/-! The sizes of the parts -/

variable (mdz)

/-- The keys that are written are those the registry lists. -/
theorem keyBytes_blockList : keyBytes mdz.blockList = calcBlockKeySize mdz.blockList := by
  rcases mdz.blockList_cases with ⟨hlist, -⟩ | ⟨hlist, -⟩ | ⟨hlist, -⟩ <;> rw [hlist] <;> rfl

theorem length_names_blockList : 4 ≤ (getHLvectorsStringNames mdz.blockList).length ∧
    (getHLvectorsStringNames mdz.blockList).length ≤ 5 := by
  rcases mdz.blockList_cases with ⟨hlist, -⟩ | ⟨hlist, -⟩ | ⟨hlist, -⟩ <;> rw [hlist] <;> decide

/-- The keys in the archive, which are none without `--randbh`. -/
def keysize : ℕ := if mdz.randombh then calcBlockKeySize mdz.blockList else 0

def headerSize : ℕ :=
  40 + (getHLvectorsStringNames mdz.fileList).length +
    (getHLvectorsStringNames mdz.blockList).length + calcBlockSize mdz.fileList + mdz.keysize

theorem length_header : (mdz.header world).length = mdz.headerSize := by
  have hlist : (mdz.hclfile world).hashlistvt = mdz.fileList := rfl
  have hdigests : (mdz.hclfile world).writeBlockHashList.length = calcBlockSize mdz.fileList :=
    length_writeBlockHashList (mdz.registered_fileList.consistent mdHashlistNew_tabled)
  have hkeys : (writeKeys mdz.randombh (mdz.hclblock world)).length = 4 + mdz.keysize := by
    unfold writeKeys keysize
    split_ifs
    · rw [List.length_append, length_intBytes, length_writeKeyList, hashlistvt_hclblock,
        keyBytes_blockList]
    · simp
  simp only [header, writeHeader, writeLists, writeNames, List.length_append, length_toLE,
    length_intBytes, hdigests, hkeys, hlist, hashlistvt_hclblock, headerSize]
  ring

theorem length_archive (f : ℕ) : (mdz.archive world f).length =
    mdz.headerSize + 1 + MdBitstream.tableBytes f mdz.zipBlockcount + 9 * mdz.zipBlockcount := by
  simp only [archive, List.length_append, length_header, length_intBytes, length_table,
    length_records]

variable {mdz}

theorem le_length_archive (hne : mdz.file ≠ []) (f : ℕ) :
    48 ≤ (mdz.archive world f).length := by
  obtain ⟨m, hm, -⟩ := exists_blocks hne
  obtain ⟨hnames, -⟩ := mdz.length_names_blockList
  rw [length_archive, headerSize, hm]
  omega

/-! The header, read back -/

variable (mdz) in
theorem validateVersion_chooseVersion :
    MdUnzip47.validateVersion (toLE 8 (chooseVersion mdz.inc mdz.dec).1) = false := by
  cases mdz.inc <;> cases mdz.dec <;> decide

/-- The header a reader finds, and where it leaves the stream. -/
theorem readHeader_header (memory : Unzip47Memory) (hne : mdz.file ≠ []) (rest : List UInt8) :
    ∃ header nf, MdUnzip47.readHeader memory (IStream.ofBytes (mdz.header world ++ rest)) =
        .ok (some (header, nf)) ∧
      header.blocksize = mdz.zipBlocksize ∧ header.modsizebits = mdz.modsizebits ∧
      header.modsizeBytes = MdUnzip47.setModulus mdz.modsizebits ∧
      header.hclfilesize = (getHLvectorsStringNames mdz.fileList).length ∧
      header.hclblocksize = (getHLvectorsStringNames mdz.blockList).length ∧
      header.blockcount = mdz.zipBlockcount ∧ header.blockremainder = mdz.zipRemainder ∧
      header.hclfile.hashlistvt = mdz.fileList ∧
      header.hclblock = MdHashContextList.new memory.blockMemory mdz.blockList ∧
      ∃ keysize, (IStream.ofBytes (writeKeys mdz.randombh (mdz.hclblock world) ++ rest)).read
          (intBytes 4 0) = (keysize, nf) ∧ header.hclblockkeysize = intOfBytes keysize := by
  have hfile := mdz.registered_fileList
  have hblock := mdz.registered_blockList
  have hsmall := mdHashlistNew_sound.names_lt
  have hfilenames := hfile.length_names_le
  have hblocknames := hblock.length_names_le
  have hpos := zipBlocksize_pos hne
  have hsize := mdz.zipBlocksize_le
  have hlen := mdz.length_lt
  have hmod : mdz.modsizebits ≤ 32 := by
    rcases mdz.blockList_cases with ⟨-, h⟩ | ⟨-, h⟩ | ⟨-, h⟩ <;> omega
  have hread₁ : intOfBytes (intBytes 8 mdz.file.length) = mdz.file.length :=
    intOfBytes_intBytes_of_range (by omega) (by norm_num; omega)
  have hread₂ : intOfBytes (intBytes 8 mdz.zipBlocksize) = mdz.zipBlocksize :=
    intOfBytes_intBytes_of_range (by omega) (by norm_num; omega)
  have hread₃ : intOfBytes (intBytes 4 mdz.modsizebits) = mdz.modsizebits :=
    intOfBytes_intBytes_of_range (by omega) (by norm_num; omega)
  have hcount : calcFileBlocks mdz.file.length mdz.zipBlocksize = .ok mdz.zipBlockcount :=
    calcFileBlocks_natCast hpos
  have hrem : calcFileBlocksRemainder mdz.file.length mdz.zipBlocksize = .ok mdz.zipRemainder :=
    calcFileBlocksRemainder_natCast hpos
  have hlist : (mdz.hclfile world).hashlistvt = mdz.fileList := rfl
  rw [header, writeHeader, writeLists, hlist, hashlistvt_hclblock]
  simp only [List.append_assoc]
  unfold MdUnzip47.readHeader
  rw [IStream.read_append (by simp)]
  dsimp only
  rw [IStream.read_append (by simp)]
  dsimp only
  rw [IStream.read_append (by simp)]
  dsimp only
  rw [IStream.read_append (by simp)]
  dsimp only
  rw [validateVersion_chooseVersion, if_neg (by simp), hread₁, hread₂, hread₃,
    readNames_writeNames (by simp) (by simp) (by omega), ok_bind]
  dsimp only
  rw [readNames_writeNames (by simp) (by simp) (by omega), ok_bind]
  dsimp only
  rw [hcount, ok_bind, hrem, ok_bind, setVectorHLstring_names mdHashlistNew_wellNamed hfile,
    setVectorHLstring_names mdHashlistNew_wellNamed hblock, readBlockHashList_append hlist.symm]
  exact ⟨_, _, rfl, rfl, rfl, rfl, rfl, rfl, rfl, rfl, rfl, rfl, _, rfl, rfl⟩

end

end MdZip47

end Mdencode.Cpp
