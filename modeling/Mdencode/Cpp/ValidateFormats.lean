import Mdencode.Cpp.MdSimple
import Mdencode.Cpp.Sip47Archive
import Mdencode.Cpp.ValidateMdZip

/-! The sums of the other two validators against the archives of their encoders.
Here as much is counted as is written, and only an `int` can go wrong: the block
total in both, and the sum itself in the simple one. -/

namespace Mdencode.Cpp

open Mdencode.Bytes

/-- A sum with the block total wrapped to 32 bits is the length only when
nothing was wrapped. -/
theorem wrapped_total_eq_iff {base total : ℕ} (hbase : base < 2 ^ 62) (htotal : total < 2 ^ 63) :
    ((base : ℤ) + toInt32 total) % 2 ^ 64 = (base + total : ℕ) ↔ total < 2 ^ 31 := by
  have hsum := @wrapped_sum_eq_iff base 0 0 total hbase (by norm_num) (by norm_num) htotal
  simpa using hsum

namespace MdSimple

def Validates (lib : HashLibrary) (blockMemory : Registers) (mdz : MdSimple) : Prop :=
  ∃ archive, mdz.mdzipfileNoHeader lib blockMemory = .ok (some archive) ∧
    validateMDzip mdz.mdzipname archive = .ok 0

variable {mdz : MdSimple}

def zipBlockcount (mdz : MdSimple) : ℕ := (mdz.file.length + blocksize - 1) / blocksize

theorem fileExtension_mdzipname (mdz : MdSimple) :
    fileExtension mdz.mdzipname = ascii "mdsz" :=
  fileExtension_append mdz.filename_ne (by decide)

/-- An `int` sum with a wrapped block total has a value that is the length only
when nothing was wrapped and nothing overflows. -/
theorem int_sum_eq_iff {total : ℕ} (htotal : total < 2 ^ 63) :
    (int32 (16 + toInt32 total) >>= fun sum =>
        (.ok (if sum % 2 ^ 64 = (16 + total : ℕ) then 0 else 1) : Except Trap ℕ)) = .ok 0 ↔
      16 + total < 2 ^ 31 := by
  have hwrap : -2 ^ 31 ≤ toInt32 total := by
    unfold toInt32
    exact Int.le_bmod (by norm_num)
  constructor
  · intro h
    obtain ⟨sum, hsum, htest⟩ := exists_of_bind_eq_ok h
    obtain ⟨hrange, rfl⟩ := int32_eq_ok_iff.mp hsum
    rw [ok_ite_eq_zero_iff] at htest
    omega
  · intro hlt
    have hsame : toInt32 total = total := toInt32_of_range (by omega) (by omega)
    rw [hsame, int32_eq_ok_iff.mpr ⟨by omega, rfl⟩, ok_bind, ok_ite_eq_zero_iff]
    omega

/-- A record takes thirteen bytes. -/
theorem mdzipfileNoHeader_eq (lib : HashLibrary) (blockMemory : Registers) (hne : mdz.file ≠ []) :
    ∃ records, records.length = 13 * mdz.zipBlockcount ∧
      mdz.mdzipfileNoHeader lib blockMemory =
        .ok (some (intBytes 8 mdz.file.length ++ toLE 8 mdz.key.toNat ++ records)) := by
  have hlen := (List.length_pos_iff.mpr hne).ne'
  have hpos : 0 < blocksize := by decide
  have hcount : calcFileBlocks mdz.file.length blocksize = .ok mdz.zipBlockcount :=
    calcFileBlocks_natCast hpos
  have hcons : ∀ hash ∈ (mdz.hclblock blockMemory).hashlistvt, hash.Consistent :=
    (setVectorHL_registered mdHashlist_wellNamed [6]).consistent mdHashlist_tabled
  rw [mdzipfileNoHeader, if_neg hlen, hcount, ok_bind, calcFileBlocksRemainder_natCast hpos,
    ok_bind]
  refine ⟨_, ?_, rfl⟩
  rw [length_mdzipBlocks (by decide) hcons]
  rfl

theorem validates_iff_total (lib : HashLibrary) (blockMemory : Registers) (hne : mdz.file ≠ []) :
    mdz.Validates lib blockMemory ↔ 16 + 13 * mdz.zipBlockcount < 2 ^ 31 := by
  obtain ⟨records, hrecords, harchive⟩ := mdzipfileNoHeader_eq lib blockMemory hne
  set archive := intBytes 8 mdz.file.length ++ toLE 8 mdz.key.toNat ++ records with hset
  have hlength : archive.length = 16 + 13 * mdz.zipBlockcount := by
    simp only [hset, List.length_append, length_intBytes, length_toLE, hrecords]
  have hcountpos : 0 < mdz.zipBlockcount :=
    (length_eq_blocks (List.length_pos_iff.mpr hne) (by decide : 0 < blocksize)).1
  have hlt := mdz.length_lt
  have hread : (IStream.ofBytes archive).read (intBytes 8 0) =
      (intBytes 8 mdz.file.length, IStream.ofBytes (toLE 8 mdz.key.toNat ++ records)) := by
    rw [hset, List.append_assoc, IStream.read_append (by simp)]
  have hsize : intOfBytes (intBytes 8 mdz.file.length) = mdz.file.length :=
    intOfBytes_intBytes_of_range (by omega) (by norm_num; omega)
  have hcount : calcFileBlocks mdz.file.length blocksize = .ok mdz.zipBlockcount :=
    calcFileBlocks_natCast (by decide)
  have hrecord : toInt32 (calcBlockSize blocklist + calcModulusBytes modsize + 1) = 13 := by decide
  have hvalidate : validateMDzip mdz.mdzipname archive =
      (int64 (13 * mdz.zipBlockcount : ℕ) >>= fun total => int32 (16 + toInt32 total) >>= fun sum =>
        .ok (if sum % 2 ^ 64 = (archive.length : ℤ) then 0 else 1)) := by
    rw [validateMDzip, if_neg (by simp [fileExtension_mdzipname]), if_neg (by omega)]
    dsimp only
    rw [hread, hsize, hcount, ok_bind, hrecord]
    rfl
  have haccept : mdz.Validates lib blockMemory ↔
      validateMDzip mdz.mdzipname archive = .ok 0 := by
    simp [Validates, harchive]
  rw [haccept, hvalidate, int64_natCast]
  split_ifs with hrange
  · rw [ok_bind, hlength]
    exact int_sum_eq_iff hrange
  · exact iff_of_false (fun h => by cases h) fun h => by omega

/-- A file under the default key. -/
def plainArgs (file : List UInt8) (h : file.length < 2 ^ 63) : MdSimple where
  filename := ascii "plain"
  file
  key := 100000
  filename_ne := by decide
  length_lt := h

end MdSimple

namespace MdZip47

def Validates (world : Zip47World) (memory : Unzip47Memory) (mdz : MdZip47) : Prop :=
  ∃ archive, mdz.mdzipfile world = .ok (some archive) ∧
    MdUnzip47.validateMDzip memory mdz.mdzipname archive = .ok 0

variable {mdz : MdZip47}

/-- Skipping what comes next. -/
theorem seekg_append (pre skipped rest : List UInt8) {offset : ℤ}
    (h : offset = skipped.length) :
    MdUnzip47.seekg (pre ++ (skipped ++ rest)) offset (IStream.ofBytes (skipped ++ rest)) =
      IStream.ofBytes rest := by
  have hposition : ((pre ++ (skipped ++ rest)).length : ℤ) - (skipped ++ rest).length + offset =
      (pre ++ skipped).length := by
    rw [h]
    simp only [List.length_append]
    push_cast
    ring
  rw [MdUnzip47.seekg, IStream.ofBytes]
  dsimp only
  rw [hposition, if_neg (by simp), if_neg (by omega), Int.toNat_natCast, ← List.append_assoc,
    List.drop_left]
  rfl

/-- The validator goes past the keys that the encoder wrote, or none. -/
theorem seekg_keys (world : Zip47World) (pre rest : List UInt8) {size : List UInt8}
    {nf : IStream}
    (hread : (IStream.ofBytes (writeKeys mdz.randombh (mdz.hclblock world) ++ rest)).read
      (intBytes 4 0) = (size, nf)) :
    (if intOfBytes size > 0 then (calcBlockKeySize mdz.blockList : ℤ) else intOfBytes size) =
        mdz.keysize ∧
      MdUnzip47.seekg (pre ++ (writeKeys mdz.randombh (mdz.hclblock world) ++ rest)) mdz.keysize
        nf = IStream.ofBytes rest := by
  obtain ⟨hnames, hnames'⟩ := mdz.length_names_blockList
  rw [writeKeys, hashlistvt_hclblock] at hread ⊢
  rw [MdZip47.keysize]
  by_cases hrandom : mdz.randombh = true
  · have hvalue : intOfBytes (intBytes 4 (getHLvectorsStringNames mdz.blockList).length) =
        (getHLvectorsStringNames mdz.blockList).length :=
      intOfBytes_intBytes_of_range (by omega) (by norm_num; omega)
    have hkeys : (calcBlockKeySize mdz.blockList : ℤ) =
        (mdz.hclblock world).writeKeyList.length := by
      rw [length_writeKeyList, hashlistvt_hclblock, keyBytes_blockList]
    rw [if_pos hrandom, List.append_assoc, IStream.read_append (by simp), Prod.mk.injEq] at hread
    obtain ⟨rfl, rfl⟩ := hread
    rw [hvalue, if_pos (by omega), if_pos hrandom, if_pos hrandom, List.append_assoc,
      ← List.append_assoc pre]
    exact ⟨rfl, seekg_append _ _ rest hkeys⟩
  · rw [if_neg hrandom, IStream.read_append (by simp), Prod.mk.injEq] at hread
    obtain ⟨rfl, rfl⟩ := hread
    have hzero : intOfBytes (intBytes 4 0) = 0 := by decide
    rw [hzero, if_neg (lt_irrefl _), if_neg hrandom, if_neg hrandom, ← List.append_assoc]
    exact ⟨rfl, seekg_append (pre ++ intBytes 4 0) [] rest rfl⟩

/-- Nothing in a header is large. -/
theorem headerSize_lt (mdz : MdZip47) : mdz.headerSize < 10000 := by
  have hfile := mdz.registered_fileList
  have hnames := hfile.length_names_le
  have hdigests := hfile.sum_le Hashlist.blocksize
  have hbound : ((mdHashlistNew.take (hashlistsize mdHashlistNew)).map Hashlist.blocksize).sum <
      1000 := by decide
  have hsmall := mdHashlistNew_sound.names_lt
  obtain ⟨-, hnames'⟩ := mdz.length_names_blockList
  have hkeys : mdz.keysize ≤ 32 := by
    unfold keysize
    rcases mdz.blockList_cases with ⟨h, -⟩ | ⟨h, -⟩ | ⟨h, -⟩ <;> rw [h] <;> split_ifs <;> decide
  unfold headerSize calcBlockSize
  omega

theorem validateMDzip_archive (world : Zip47World) (memory : Unzip47Memory) (hne : mdz.file ≠ [])
    {f : ℕ} (h7 : f ≤ 7) (hbits : MdBitstream.tableBitSize f mdz.zipBlockcount < 2 ^ 63) :
    MdUnzip47.validateMDzip memory mdz.mdzipname (mdz.archive world f) =
      (int64 (9 * mdz.zipBlockcount : ℕ) >>= fun total =>
        .ok (if ((mdz.headerSize + 1 + MdBitstream.tableBytes f mdz.zipBlockcount : ℕ) +
            toInt32 total) % 2 ^ 64 = ((mdz.archive world f).length : ℤ) then 0 else 1)) := by
  set rest := intBytes 1 f ++ (mdz.table f world.stray ++ mdz.records world) with hrest
  have harchive : mdz.archive world f = mdz.header world ++ rest := by
    simp [archive, hrest]
  obtain ⟨header, nf, hread, -, -, hmodbytes, hnames, hnames', hcount, -, hfile, hclblock, size,
    hsize, hkeysize⟩ := readHeader_header world memory hne rest
  obtain ⟨hkeys, hseek⟩ := seekg_keys world
    (toLE 8 (chooseVersion mdz.inc mdz.dec).1 ++ intBytes 8 mdz.file.length ++
      intBytes 8 mdz.zipBlocksize ++ intBytes 4 mdz.modsizebits ++
      writeNames (getHLvectorsStringNames (mdz.hclfile world).hashlistvt) ++
      writeNames (getHLvectorsStringNames (mdz.hclblock world).hashlistvt) ++
      (mdz.hclfile world).writeBlockHashList) rest hsize
  have hseek' : MdUnzip47.seekg (mdz.archive world f) mdz.keysize nf = IStream.ofBytes rest := by
    rw [← hseek, harchive, MdZip47.header, writeHeader, writeLists]
    simp only [List.append_assoc]
  have hformat : ofLE (intBytes 1 (f : ℤ)) = f := by
    have hpos : ((f : ℤ) % 256 ^ 1).toNat = f := by omega
    rw [intBytes, hpos, ofLE_toLE, Nat.mod_eq_of_lt (by omega)]
  have hrecord : toInt32 (calcBlockSize mdz.blockList + header.modsizeBytes) = 9 := by
    rw [hmodbytes]
    rcases mdz.blockList_cases with ⟨h, h'⟩ | ⟨h, h'⟩ | ⟨h, h'⟩ <;> rw [h, h'] <;> decide
  have hblocks : header.hclblock.hashlistvt = mdz.blockList := by rw [hclblock]; rfl
  have hmin := le_length_archive world hne f
  rw [MdUnzip47.validateMDzip, if_neg (by simp [fileExtension_mdzipname]), if_neg (by omega)]
  rw [← harchive] at hread
  rw [hread, ok_bind]
  dsimp only
  rw [hblocks, hkeysize, hkeys, hseek', hrest, IStream.read_append (by simp)]
  dsimp only
  rw [hformat, if_neg (by omega), hcount, MdBitstream.calcBitstreamSize_setFormat, if_pos hbits,
    ok_bind]
  dsimp only
  have hbase : (40 + ((getHLvectorsStringNames mdz.fileList).length : ℤ) +
      (getHLvectorsStringNames mdz.blockList).length +
      ((MdBitstream.tableBytes f mdz.zipBlockcount : ℤ) + 1) + calcBlockSize mdz.fileList +
      mdz.keysize) = (mdz.headerSize + 1 + MdBitstream.tableBytes f mdz.zipBlockcount : ℕ) := by
    rw [headerSize]
    push_cast
    ring
  rw [hrecord, hnames, hnames', hfile, hbase]
  rfl

theorem validates_iff_total (world : Zip47World) (memory : Unzip47Memory) (hne : mdz.file ≠ []) :
    mdz.Validates world memory ↔ 9 * mdz.zipBlockcount < 2 ^ 31 := by
  obtain ⟨f, -, h7, -, -, hzip⟩ := mdzipfile_eq hne
  have hmul : mdz.zipBlockcount * f ≤ mdz.zipBlockcount * 7 := Nat.mul_le_mul_left _ h7
  by_cases hbits : MdBitstream.tableBitSize f mdz.zipBlockcount < 2 ^ 63
  · have haccept : mdz.Validates world memory ↔
        MdUnzip47.validateMDzip memory mdz.mdzipname (mdz.archive world f) = .ok 0 := by
      rw [Validates, hzip, if_pos hbits]
      simp
    have hheader := mdz.headerSize_lt
    rw [haccept, validateMDzip_archive world memory hne h7 hbits, int64_natCast, length_archive]
    split_ifs with hrange
    · rw [ok_bind, ok_ite_eq_zero_iff]
      refine wrapped_total_eq_iff ?_ hrange
      rw [MdBitstream.tableBytes]
      omega
    · exact iff_of_false (fun h => by cases h) fun h => by omega
  · refine iff_of_false ?_ fun h => hbits ?_
    · rintro ⟨archive, hzip', -⟩
      rw [hzip, if_neg hbits] at hzip'
      cases hzip'
    · rw [MdBitstream.tableBitSize]
      split_ifs <;> omega

def zeroWorld47 : Zip47World := { zeroWorld with stray := fun _ => 0 }

def zeroMemory47 : Unzip47Memory where
  buffers := fun _ _ => 0
  fileMemory := fun _ _ => 0
  blockMemory := fun _ _ => 0
  threadMemory := fun _ _ => 0

/-- A file under the default flags. -/
def plainArgs (file : List UInt8) (h : file.length < 2 ^ 63) : MdZip47 where
  filename := ascii "plain"
  file
  blocksize := 10
  fhlist := []
  sip48 := false
  hw48 := false
  randombh := false
  inc := false
  dec := false
  filename_ne := by decide
  one_le_blocksize := by norm_num
  blocksize_le := le_rfl
  length_lt := h

end MdZip47

/-- An archive of the sip formats validates exactly when its records take less
than `2 ^ 31` bytes, and a simple one exactly when all of it does. -/
theorem formats_validate_iff (world : Zip47World) (memory : Unzip47Memory) (mdz : MdZip47)
    (hne : mdz.file ≠ []) (lib : HashLibrary) (blockMemory : Registers) (simple : MdSimple)
    (hsimple : simple.file ≠ []) :
    (mdz.Validates world memory ↔ 9 * mdz.zipBlockcount < 2 ^ 31) ∧
      (simple.Validates lib blockMemory ↔ 16 + 13 * simple.zipBlockcount < 2 ^ 31) :=
  ⟨MdZip47.validates_iff_total world memory hne,
    MdSimple.validates_iff_total lib blockMemory hsimple⟩

/-- Files of one byte. -/
theorem formats_validate_iff_one :
    (MdZip47.plainArgs [1] (by simp)).Validates MdZip47.zeroWorld47 MdZip47.zeroMemory47 ∧
      (MdSimple.plainArgs [1] (by simp)).Validates zeroWorld.lib zeroWorld.blockMemory := by
  obtain ⟨hzip, hsimple⟩ := formats_validate_iff MdZip47.zeroWorld47 MdZip47.zeroMemory47
    (MdZip47.plainArgs [1] (by simp)) (by simp [MdZip47.plainArgs]) zeroWorld.lib
    zeroWorld.blockMemory (MdSimple.plainArgs [1] (by simp)) (by simp [MdSimple.plainArgs])
  exact ⟨hzip.mpr (by decide), hsimple.mpr (by decide)⟩

/-- Neither archive of a file of 2.5 gigabytes is accepted. -/
theorem archives_rejected {file : List UInt8} (hlen : file.length = 10 * 2 ^ 28)
    (h : file.length < 2 ^ 63) : file ≠ [] ∧
      ¬ (MdZip47.plainArgs file h).Validates MdZip47.zeroWorld47 MdZip47.zeroMemory47 ∧
      ¬ (MdSimple.plainArgs file h).Validates zeroWorld.lib zeroWorld.blockMemory := by
  have hne : file ≠ [] := List.length_pos_iff.mp (by rw [hlen]; norm_num)
  refine ⟨hne, ?_, ?_⟩
  · rw [MdZip47.validates_iff_total _ _ (by exact hne), MdZip47.zipBlockcount,
      MdZip47.zipBlocksize]
    simp only [MdZip47.plainArgs, hlen]
    norm_num
  · rw [MdSimple.validates_iff_total _ _ (by exact hne), MdSimple.zipBlockcount]
    simp only [MdSimple.plainArgs, hlen, MdSimple.blocksize]
    norm_num

def zeros (n : ℕ) : List UInt8 := List.replicate n 0

theorem length_zeros (n : ℕ) : (zeros n).length = n := List.length_replicate

theorem length_zeros_lt : (zeros (10 * 2 ^ 28)).length < 2 ^ 63 :=
  (length_zeros _).trans_lt (by norm_num)

theorem large_archives_rejected :
    zeros (10 * 2 ^ 28) ≠ [] ∧
      ¬ (MdZip47.plainArgs (zeros (10 * 2 ^ 28)) length_zeros_lt).Validates
        MdZip47.zeroWorld47 MdZip47.zeroMemory47 ∧
      ¬ (MdSimple.plainArgs (zeros (10 * 2 ^ 28)) length_zeros_lt).Validates zeroWorld.lib
        zeroWorld.blockMemory :=
  archives_rejected (length_zeros _) _

end Mdencode.Cpp
