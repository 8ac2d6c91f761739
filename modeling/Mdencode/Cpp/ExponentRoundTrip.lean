import Mdencode.Cpp.ValidateFormats

/-! The exponents that `mdunzipfile` of `mdUnzip47.h` finds in the archive of
`mdzipsip47`. A table of format 7 is not written, since its buffer hides the
member that is. -/

namespace Mdencode.Cpp

open Mdencode.Bytes Mdencode.Bits

namespace MdZip47

/-- The reader finds the exponent of every block. -/
def ExponentsRestored (world : Zip47World) (memory : Unzip47Memory) (mdz : MdZip47) (T : ℕ) :
    Prop :=
  ∃ archive job, mdz.mdzipfile world = .ok (some archive) ∧
    MdUnzip47.mdunzipfile world.lib memory T mdz.mdzipname archive = .ok (some job) ∧
    job.records.map BlockRecord.modexponent = mdz.exponents

section
variable {mdz : MdZip47}

/-- The base and what follows it, in a table of format `f`. -/
def openTable (f : ℕ) (table : List UInt8) : ℕ × BitstreamReader :=
  if f < 7 then (BitstreamReader.new table).get 7 else (0, BitstreamReader.new table)

/-- The table is found where the header ends. -/
theorem readTable_table (memory : Unzip47Memory) {header : MdUnzip47.Header} {f : ℕ} (h7 : f ≤ 7)
    (hcount : header.blockcount = mdz.zipBlockcount)
    (hbits : MdBitstream.tableBitSize f mdz.zipBlockcount < 2 ^ 63) (stray : ℕ → UInt8)
    (rest : List UInt8) :
    MdUnzip47.readTable memory header
        (IStream.ofBytes (intBytes 1 f ++ (mdz.table f stray ++ rest))) =
      .ok (f, (openTable f (mdz.table f stray)).1, (openTable f (mdz.table f stray)).2,
        IStream.ofBytes rest) := by
  have hformat : ofLE (intBytes 1 (f : ℤ)) = f := by
    have hpos : ((f : ℤ) % 256 ^ 1).toNat = f := by omega
    rw [intBytes, hpos, ofLE_toLE, Nat.mod_eq_of_lt (by omega)]
  rw [MdUnzip47.readTable, IStream.read_append (by simp)]
  dsimp only
  rw [hformat, hcount, MdBitstream.calcBitstreamSize_setFormat, if_pos hbits, ok_bind]
  dsimp only
  rw [if_neg (by omega), IStream.read_append (by simp [length_table]), openTable]

theorem modsizeBytes_nonneg (mdz : MdZip47) : 0 ≤ MdUnzip47.setModulus mdz.modsizebits := by
  rcases mdz.blockList_cases with ⟨-, h⟩ | ⟨-, h⟩ | ⟨-, h⟩ <;> rw [h] <;> decide

/-- Up to the block loop the reader takes an archive for what it is. -/
theorem mdunzipfile_archive_eq (world : Zip47World) (memory : Unzip47Memory) (T : ℕ)
    (hne : mdz.file ≠ []) {f : ℕ} (h7 : f ≤ 7)
    (hbits : MdBitstream.tableBitSize f mdz.zipBlockcount < 2 ^ 63) :
    ∃ (header : MdUnzip47.Header) (nf : IStream) (hcl : MdHashContextList),
      MdUnzip47.readHeader memory (IStream.ofBytes (mdz.archive world f)) =
        .ok (some (header, nf)) ∧
      header.blocksize = mdz.zipBlocksize ∧ header.modsizebits = mdz.modsizebits ∧
      header.modsizeBytes = MdUnzip47.setModulus mdz.modsizebits ∧
      header.blockcount = mdz.zipBlockcount ∧ header.blockremainder = mdz.zipRemainder ∧
      SameContext (mdz.hclblock world) hcl ∧
      MdUnzip47.mdunzipfile world.lib memory T mdz.mdzipname (mdz.archive world f) =
        (startBlocks T header.modsizebits (initialRegisters memory.threadMemory)
          (compareUnder world.lib hcl.hashlistvt)
          (MdUnzip47.readRecord_blocksize (incKeyOf header.mdversion) f
            (openTable f (mdz.table f world.stray)).1)
          header.blocksize header.blockremainder header.blockcount
          { hclblock := hcl
            bsr := (openTable f (mdz.table f world.stray)).2
            modulusbytes := List.replicate header.modsizeBytes.toNat 0
            nf := IStream.ofBytes (mdz.records world) } >>= fun job => .ok (some job)) := by
  set rest := intBytes 1 f ++ (mdz.table f world.stray ++ mdz.records world) with hrest
  have harchive : mdz.archive world f = mdz.header world ++ rest := by
    simp [archive, hrest]
  obtain ⟨header, nf, hread, hblocksize, hmodsize, hmodbytes, -, -, hcount, hrem, -, hclblock,
    keysize, hkeysize, hheader⟩ := readHeader_header world memory hne rest
  obtain ⟨hcl, hkeys, hsame⟩ := readKeys_writeKeys mdHashlistNew_sound world.toZipWorld mdz.bhlist
    mdz.randombh memory.blockMemory rest
  have hread' : MdUnzip47.readKeys header nf = (hcl, IStream.ofBytes rest) := by
    rw [← blockList, ← MdZip47.hclblock, readKeys, hkeysize] at hkeys
    rw [MdUnzip47.readKeys, hheader, hclblock]
    exact hkeys
  have hsize : 48 ≤ (mdz.archive world f).length := le_length_archive world hne f
  refine ⟨header, nf, hcl, harchive ▸ hread, hblocksize, hmodsize, hmodbytes, hcount, hrem, hsame,
    ?_⟩
  rw [MdUnzip47.mdunzipfile, if_neg (by simp [fileExtension_mdzipname]), if_neg (by omega),
    harchive, hread, ok_bind]
  dsimp only
  rw [hread']
  dsimp only
  rw [hrest, readTable_table memory h7 hcount hbits, ok_bind]
  dsimp only
  rw [hmodbytes, if_neg (not_lt.mpr mdz.modsizeBytes_nonneg)]

/-- What the reader does with an archive. -/
theorem mdunzipfile_archive (world : Zip47World) (memory : Unzip47Memory) (T : ℕ)
    (hne : mdz.file ≠ []) {f : ℕ} (h7 : f ≤ 7)
    (hbits : MdBitstream.tableBitSize f mdz.zipBlockcount < 2 ^ 63) :
    if mdz.zipBlockcount < 2 ^ 31 then
      ∃ job, MdUnzip47.mdunzipfile world.lib memory T mdz.mdzipname (mdz.archive world f) =
          .ok (some job) ∧
        job.records.map BlockRecord.modexponent =
          MdUnzip47.readExponents f (openTable f (mdz.table f world.stray)).1 mdz.zipBlockcount
            (openTable f (mdz.table f world.stray)).2
    else MdUnzip47.mdunzipfile world.lib memory T mdz.mdzipname (mdz.archive world f) =
      .error .signedOverflow := by
  obtain ⟨header, -, hcl, -, hblocksize, -, -, hcount, hrem, -, hunfold⟩ :=
    mdunzipfile_archive_eq world memory T hne h7 hbits
  rw [hunfold]
  split_ifs with hlt
  · have hpos := zipRemainder_pos hne
    have hle := zipRemainder_le hne
    have hfull := zipBlocksize_le mdz
    obtain ⟨job, hjob, -, -, -, hrecords⟩ := startBlocks_eq T header.modsizebits
      (initialRegisters memory.threadMemory) (compareUnder world.lib hcl.hashlistvt)
      (MdUnzip47.readRecord_blocksize (incKeyOf header.mdversion) f
        (openTable f (mdz.table f world.stray)).1)
      { hclblock := hcl
        bsr := (openTable f (mdz.table f world.stray)).2
        modulusbytes := List.replicate header.modsizeBytes.toNat 0
        nf := IStream.ofBytes (mdz.records world) }
      (by omega : header.blockcount < 2 ^ 31) (by omega : header.blocksize < 2 ^ 31)
      (by omega : 0 < header.blockremainder)
      (by omega : header.blockremainder ≤ header.blocksize)
    refine ⟨job, by rw [hjob, ok_bind], ?_⟩
    rw [hrecords, MdUnzip47.modexponents_readRecords, hcount, Int.toNat_natCast]
  · rw [startBlocks, if_pos (by omega)]
    rfl

/-! Reading the table -/

/-- A table of a format below 7 gives back what was put in it. -/
theorem readExponents_table (hne : mdz.file ≠ []) {f : ℕ} (h2 : 2 ≤ f) (h6 : f < 7)
    (hwidth : spread mdz.exponents < 2 ^ f) (stray : ℕ → UInt8) :
    MdUnzip47.readExponents f (openTable f (mdz.table f stray)).1 mdz.zipBlockcount
      (openTable f (mdz.table f stray)).2 = mdz.exponents := by
  obtain ⟨m, hm, -⟩ := exists_blocks hne
  obtain ⟨hinit, hlast⟩ := exponents_concat hm
  set init := mdz.exponents.dropLast with hinitdef
  set last := mdz.exponents.getLastD 0 with hlastdef
  have hexponents : mdz.exponents = init ++ [last] := by
    rw [hinit, hlast, exponents, hm, exponentsOf_succ]
  have hcount : init.length = m := by
    rw [hinit, exponentsOf, List.length_map, List.length_range]
  have hsmall : ∀ e ∈ mdz.exponents, e < 2 ^ 7 := fun e he => (exponent_mem hne he).2
  have hlastlt : last < 2 ^ 7 := hsmall last (by rw [hexponents]; simp)
  have hfits : (toBits 7 mdz.modexponentbase ++
      MdBitstream.tableBits f mdz.modexponentbase init last).length ≤
        8 * MdBitstream.tableBytes f mdz.zipBlockcount := by
    have := MdBitstream.bits_le_tableBytes f m
    rw [if_pos h6] at this
    rwa [List.length_append, length_toBits, MdBitstream.length_tableBits, hcount, hm]
  obtain ⟨zeros, hopen⟩ : ∃ zeros, openTable f (mdz.table f stray) =
      (mdz.modexponentbase % 2 ^ 7,
        ⟨MdBitstream.tableBits f mdz.modexponentbase init last ++ zeros⟩) := by
    rw [openTable, if_pos h6, table, if_pos h6, BitstreamReader.new, unpack_pack hfits, padTo,
      List.append_assoc, MdUnzip47.get_append (length_toBits 7 _), ofBits_toBits]
    exact ⟨_, rfl⟩
  rw [hopen, hm, ← hcount, hexponents]
  dsimp only
  rcases init.eq_nil_or_concat with hnil | ⟨init', e, hconcat⟩
  · -- the base is not looked at when the last block is the only one
    rw [hnil]
    exact MdUnzip47.readExponents_tableBits h2 (by omega) (by simp) hlastlt zeros
  · have hbase : mdz.modexponentbase % 2 ^ 7 = mdz.modexponentbase := by
      have he : e ∈ init := by rw [hconcat]; simp
      have hle := (modexponentbase_le he).1
      have hlt := hsmall e (by rw [hexponents]; exact List.mem_append_left _ he)
      exact Nat.mod_eq_of_lt (by omega)
    rw [hbase]
    refine MdUnzip47.readExponents_tableBits h2 (by omega) (fun e he => ?_) hlastlt zeros
    obtain ⟨hle, hspread⟩ := modexponentbase_le he
    exact ⟨hle, by exact_mod_cast hspread.trans_lt hwidth⟩

theorem ofBits_replicate_false (n : ℕ) : ofBits (List.replicate n false) = 0 := by
  induction n with
  | zero => rfl
  | succ n ih => simp [List.replicate_succ, ofBits, ih]

/-- Zeros where the table of format 7 should be are read as exponents. -/
theorem readExponents_zeros (mdz : MdZip47) {count : ℕ} (hcount : 0 < count) :
    0 ∈ MdUnzip47.readExponents 7 (openTable 7 (mdz.table 7 fun _ => 0)).1 count
      (openTable 7 (mdz.table 7 fun _ => 0)).2 := by
  have hbits : unpack (mdz.table 7 fun _ => 0) =
      List.replicate (8 * MdBitstream.tableBytes 7 mdz.zipBlockcount) false := by
    rw [table, if_neg (lt_irrefl 7), unpack]
    refine List.eq_replicate_iff.mpr ⟨?_, fun b hb => ?_⟩
    · simp [List.length_flatMap, Nat.mul_comm]
    · obtain ⟨byte, hbyte, hb⟩ := List.mem_flatMap.mp hb
      obtain ⟨-, -, rfl⟩ := List.mem_map.mp hbyte
      simpa [toBits] using hb
  obtain ⟨left, rfl⟩ := Nat.exists_eq_add_of_le' hcount
  rw [MdUnzip47.readExponents, MdUnzip47.readExponent]
  simp only [openTable, lt_irrefl, if_false, BitstreamReader.new, hbits, BitstreamReader.get,
    List.take_replicate, ofBits_replicate_false]
  split_ifs <;> simp

/-! What the format promises -/

/-- Where zeros stand for a table that was not written, no file of format 7
comes back. -/
theorem hasFormat_of_exponentsRestored (world : Zip47World) {memory : Unzip47Memory} {T : ℕ}
    (hne : mdz.file ≠ [])
    (h : mdz.ExponentsRestored { world with stray := fun _ => 0 } memory T) :
    HasFormat (spread mdz.exponents) ∧ mdz.zipBlockcount < 2 ^ 31 := by
  obtain ⟨f, -, h7, hformat, -, hzip⟩ := mdzipfile_eq hne
  obtain ⟨m, hm, -⟩ := exists_blocks hne
  obtain ⟨archive, job, harchive, hjob, hrestored⟩ := h
  rw [hzip] at harchive
  split_ifs at harchive with hbits
  obtain rfl : mdz.archive { world with stray := fun _ => 0 } f = archive := by
    simpa using harchive
  have hread := mdunzipfile_archive { world with stray := fun _ => 0 } memory T hne h7 hbits
  split_ifs at hread with hcount
  · refine ⟨hformat.mp (lt_of_le_of_ne h7 ?_), hcount⟩
    rintro rfl
    obtain ⟨job', hjob', hexponents⟩ := hread
    rw [hjob', Except.ok.injEq, Option.some.injEq] at hjob
    subst hjob
    have hzero := readExponents_zeros mdz (by omega : 0 < mdz.zipBlockcount)
    rw [← hexponents, hrestored] at hzero
    exact absurd (exponent_mem hne hzero).1 (by norm_num)
  · rw [hread] at hjob
    cases hjob

/-- Every table of a format below 7 is read back, and no other. -/
theorem exponentsRestored_iff (world : Zip47World) (memory : Unzip47Memory) (mdz : MdZip47) (T : ℕ)
    (hne : mdz.file ≠ []) :
    (∀ stray, mdz.ExponentsRestored { world with stray } memory T) ↔
      HasFormat (spread mdz.exponents) ∧ mdz.zipBlockcount < 2 ^ 31 := by
  refine ⟨fun h => hasFormat_of_exponentsRestored world hne (h fun _ => 0), ?_⟩
  rintro ⟨hspread, hcount⟩ stray
  obtain ⟨f, h2, h7, hformat, hwidth, hzip⟩ := mdzipfile_eq hne
  have hf := hformat.mpr hspread
  have hbits := MdBitstream.tableBitSize_lt hcount h7
  have hread := mdunzipfile_archive { world with stray } memory T hne h7 hbits
  rw [if_pos hcount] at hread
  obtain ⟨job, hjob, hexponents⟩ := hread
  refine ⟨_, job, by rw [hzip, if_pos hbits], hjob, ?_⟩
  rw [hexponents, readExponents_table hne h2 hf (hwidth hf)]

end

/-! Two files -/

instance (d : ℤ) : Decidable (HasFormat d) :=
  inferInstanceAs (Decidable (_ ∧ _ ∧ _ ∧ _))

/-- Two blocks that begin with zeros, of which the second is short. -/
def pairArgs : MdZip47 :=
  plainArgs [0, 0, 0, 1, 2, 3, 4, 5, 6, 7, 0, 0, 3, 1, 4, 1, 5, 9, 2] (by simp)

/-- Their exponents, 48 and 49, are one apart. -/
theorem exponentsRestored_iff_pair : pairArgs.file ≠ [] ∧
    ∀ stray, pairArgs.ExponentsRestored { zeroWorld47 with stray } zeroMemory47 2 :=
  ⟨by decide, (exponentsRestored_iff zeroWorld47 zeroMemory47 pairArgs 2 (by decide)).mpr
    (by decide)⟩

/-- A block of zeros and a last one of exponent 9. -/
def spreadFile : List UInt8 := List.replicate 10 0 ++ [2, 0]

/-- The exponents are 1 and 9, and stray memory of zeros is read for them. -/
theorem spread_not_restored : spreadFile ≠ [] ∧
    ¬ (plainArgs spreadFile (by decide)).ExponentsRestored zeroWorld47 zeroMemory47 1 := by
  refine ⟨by decide, fun h => ?_⟩
  obtain ⟨hformat, -⟩ := hasFormat_of_exponentsRestored zeroWorld47
    (by decide : (plainArgs spreadFile _).file ≠ []) h
  exact absurd hformat (by decide)

end MdZip47

end Mdencode.Cpp
