import Mdencode.Cpp.ValidateMdZip

/-! The header of an archive of arbitrary bytes. Nothing in it is checked before
`validateMDzip` uses it: a list of names is allocated and read with the length in
front of it, and the file size is divided by the block size. -/

namespace Mdencode.Cpp

open Mdencode.Bytes

/-- The integer at a place of the archive. -/
def field (archive : List UInt8) (offset size : ℕ) : ℤ :=
  intOfBytes ((archive.drop offset).take size)

structure HeaderFields where
  filesize : ℤ
  blocksize : ℤ
  modsize : ℤ
  hclfilesize : ℤ
  hclblocksize : ℤ
  blockhashnames : List UInt8

/-- The fields by their places; the list of file hash names moves those behind it. -/
def headerFields (archive : List UInt8) : HeaderFields :=
  let hclfilesize := field archive 28 4
  let hclblocksize := field archive (32 + hclfilesize.toNat) 4
  { filesize := field archive 8 8
    blocksize := field archive 16 8
    modsize := field archive 24 4
    hclfilesize
    hclblocksize
    blockhashnames := (archive.drop (32 + hclfilesize.toNat + 4)).take hclblocksize.toNat }

namespace HeaderFields

variable (f : HeaderFields)

/-- What is multiplied: the size of a record, and how many there are. -/
def recordSize : ℤ :=
  calcBlockSize (setVectorHLstring mdHashlist f.blockhashnames) + calcModulusBytes f.modsize +
    if f.blocksize > 32 then 4 else 1

def blockcount : ℤ :=
  f.filesize.tdiv f.blocksize + if f.filesize.tmod f.blocksize = 0 then 0 else 1

/-- Fields that nothing goes wrong with in an archive of this length. -/
structure Safe (length : ℕ) : Prop where
  hclfilesize_nonneg : 0 ≤ f.hclfilesize
  hclblocksize_nonneg : 0 ≤ f.hclblocksize
  names_le : 36 + f.hclfilesize + f.hclblocksize ≤ length
  blocksize_ne : f.blocksize ≠ 0
  quotient : ¬ (f.blocksize = -1 ∧ f.filesize = -2 ^ 63)
  total_ge : -2 ^ 63 ≤ f.recordSize * f.blockcount
  total_lt : f.recordSize * f.blockcount < 2 ^ 63

end HeaderFields

/-- Whatever the memory held, an answer is given, and what is allocated and read
for the names lies within the archive. -/
def ReadsSafely (filename archive : List UInt8) : Prop :=
  ∀ memory, (∃ result, validateMDzip memory filename archive = .ok result) ∧
    ∃ header nf, readHeader memory (IStream.ofBytes archive) = .ok (header, nf) ∧
      36 + header.hclfilesize + header.hclblocksize ≤ archive.length

/-! Lists of names -/

section
variable {hclsize archive names : List UInt8} {buf : ℕ → List UInt8} {nf nf' : IStream}
  {size : ℤ} {offset : ℕ}

theorem nonneg_of_readNames (h : readNames hclsize buf nf = .ok (size, names, nf')) : 0 ≤ size := by
  unfold readNames at h
  dsimp only at h
  split_ifs at h with hneg
  obtain ⟨rfl, -⟩ := Prod.mk.inj (Except.ok.inj h)
  exact Int.not_lt.mp hneg

variable (hsize : hclsize.length = 4) (hfour : offset + 4 ≤ archive.length)
include hsize hfour

theorem read_size : (IStream.ofBytes (archive.drop offset)).read hclsize =
    ((archive.drop offset).take 4, IStream.ofBytes (archive.drop (offset + 4))) := by
  rw [IStream.read_of_le (by rw [List.length_drop]; omega), hsize, List.drop_drop]

theorem size_of_readNames
    (h : readNames hclsize buf (IStream.ofBytes (archive.drop offset)) = .ok (size, names, nf')) :
    size = field archive offset 4 := by
  rw [readNames, read_size hsize hfour] at h
  dsimp only at h
  split_ifs at h
  obtain ⟨rfl, -⟩ := Prod.mk.inj (Except.ok.inj h)
  rfl

theorem readNames_of_le (hbuf : ∀ n, (buf n).length = n) (hnonneg : 0 ≤ field archive offset 4)
    (hle : offset + 4 + field archive offset 4 ≤ archive.length) :
    readNames hclsize buf (IStream.ofBytes (archive.drop offset)) =
      .ok (field archive offset 4,
        (archive.drop (offset + 4)).take (field archive offset 4).toNat,
        IStream.ofBytes (archive.drop (offset + 4 + (field archive offset 4).toNat))) := by
  have hfield : intOfBytes ((archive.drop offset).take 4) = field archive offset 4 := rfl
  have hrest :
      (buf (field archive offset 4).toNat).length ≤ (archive.drop (offset + 4)).length := by
    rw [hbuf, List.length_drop]
    omega
  rw [readNames, read_size hsize hfour]
  dsimp only
  rw [hfield, if_neg (by omega), IStream.read_of_le hrest, hbuf, List.drop_drop]

end

/-! The header -/

/-- The header holds these fields. -/
structure MdzipHeader.Has (header : MdzipHeader) (f : HeaderFields) : Prop where
  filesize : header.filesize = f.filesize
  blocksize : header.blocksize = f.blocksize
  modsize : header.modsize = f.modsize
  hclfilesize : header.hclfilesize = f.hclfilesize
  hclblocksize : header.hclblocksize = f.hclblocksize
  hashlistvt : header.hclblock.hashlistvt = setVectorHLstring mdHashlist f.blockhashnames

/-- `readHeader` behind the sizes. -/
def readHashLists (memory : UnzipMemory) (mdversion : List UInt8) (filesize blocksize modsize : ℤ)
    (nf : IStream) : Except Trap (MdzipHeader × IStream) := do
  let (hclfilesize, filehashnames, nf) ←
    readNames (memory.locals.fetch ⟨.hclfilesize, 4⟩) (fun n => memory.locals.fetch ⟨.buf, n⟩) nf
  let (hclblocksize, blockhashnames, nf) ←
    readNames (memory.locals.fetch ⟨.hclblocksize, 4⟩) (fun n => memory.locals.fetch ⟨.buf2, n⟩) nf
  let blockcount ← calcFileBlocks filesize blocksize
  let blockremainder ← calcFileBlocksRemainder filesize blocksize
  let hclfile := MdHashContextList.new memory.fileMemory
    (setVectorHLstring mdHashlist filehashnames)
  let hclblock := MdHashContextList.new memory.blockMemory
    (setVectorHLstring mdHashlist blockhashnames)
  let (hclfile, nf) := hclfile.readBlockHashList nf
  let (hclblock, nf) := readKeys hclblock nf
  .ok ({ mdversion, filesize, blocksize, modsize, hclfilesize, hclblocksize, blockcount,
         blockremainder, hclfile, hclblock }, nf)

theorem hashlistvt_readKeys (hregister : Registers) (hashlistvt : List Hashlist) (nf : IStream) :
    (readKeys (MdHashContextList.new hregister hashlistvt) nf).1.hashlistvt = hashlistvt := by
  unfold readKeys
  dsimp only
  split_ifs <;> rfl

section
variable {archive : List UInt8} {header : MdzipHeader} {nf : IStream} (memory : UnzipMemory)
  (hlen : 48 ≤ archive.length)
include hlen

theorem readHeader_ofBytes :
    readHeader memory (IStream.ofBytes archive) =
      readHashLists memory (archive.take 8) (headerFields archive).filesize
        (headerFields archive).blocksize (headerFields archive).modsize
        (IStream.ofBytes (archive.drop 28)) := by
  have hread (buf : List UInt8) (k : ℕ) (hk : k + buf.length ≤ 48) :
      (IStream.ofBytes (archive.drop k)).read buf =
        ((archive.drop k).take buf.length, IStream.ofBytes (archive.drop (k + buf.length))) := by
    rw [IStream.read_of_le (by rw [List.length_drop]; omega), List.drop_drop]
  have hversion := hread (toLE 8 version100) 0 (by rw [length_toLE]; norm_num)
  have hfilesize := hread (intBytes 8 0) 8 (by rw [length_intBytes]; norm_num)
  have hblocksize := hread (intBytes 8 0) 16 (by rw [length_intBytes]; norm_num)
  have hmodsize := hread (intBytes 4 0) 24 (by rw [length_intBytes]; norm_num)
  simp only [length_toLE, length_intBytes, List.drop_zero] at hversion hfilesize hblocksize hmodsize
  unfold readHeader
  rw [hversion]
  dsimp only
  rw [hfilesize]
  dsimp only
  rw [hblocksize]
  dsimp only
  rw [hmodsize]
  rfl

/-- What has been read when the lists of names are in the archive. -/
theorem has_of_readHeader
    (h : readHeader memory (IStream.ofBytes archive) = .ok (header, nf))
    (hle : 36 + header.hclfilesize + header.hclblocksize ≤ archive.length) :
    0 ≤ header.hclfilesize ∧ 0 ≤ header.hclblocksize ∧ header.Has (headerFields archive) := by
  rw [readHeader_ofBytes memory hlen] at h
  obtain ⟨⟨hclfilesize, filehashnames, nf₁⟩, hfile, h⟩ := exists_of_bind_eq_ok h
  obtain ⟨⟨hclblocksize, blockhashnames, nf₂⟩, hblock, h⟩ := exists_of_bind_eq_ok h
  obtain ⟨blockcount, -, h⟩ := exists_of_bind_eq_ok h
  obtain ⟨blockremainder, -, h⟩ := exists_of_bind_eq_ok h
  dsimp only at h
  rw [Except.ok.injEq, Prod.mk.injEq] at h
  obtain ⟨rfl, -⟩ := h
  dsimp only at hfile hblock hle ⊢
  have hnonneg := nonneg_of_readNames hfile
  have hnonneg' := nonneg_of_readNames hblock
  obtain rfl := size_of_readNames (Memory.length_fetch _ _) (by omega) hfile
  rw [readNames_of_le (Memory.length_fetch _ _) (by omega) (fun n => Memory.length_fetch _ _)
    hnonneg (by push_cast; omega), Except.ok.injEq] at hfile
  obtain ⟨-, -, rfl⟩ := hfile
  have hoffset : 32 + (field archive 28 4).toNat + 4 ≤ archive.length := by omega
  obtain rfl := size_of_readNames (Memory.length_fetch _ _) hoffset hblock
  rw [readNames_of_le (Memory.length_fetch _ _) hoffset (fun n => Memory.length_fetch _ _)
    hnonneg' (by push_cast; omega), Except.ok.injEq, Prod.mk.injEq, Prod.mk.injEq] at hblock
  have hnames := hblock.2.1
  refine ⟨hnonneg, hnonneg', rfl, rfl, rfl, rfl, rfl, ?_⟩
  rw [hashlistvt_readKeys, ← hnames]
  rfl

theorem exists_readHeader (hsafe : (headerFields archive).Safe archive.length) :
    ∃ header nf, readHeader memory (IStream.ofBytes archive) = .ok (header, nf) ∧
      header.hclfilesize = (headerFields archive).hclfilesize ∧
      header.hclblocksize = (headerFields archive).hclblocksize := by
  obtain ⟨hnonneg, hnonneg', hle, hzero, hquotient, -, -⟩ := hsafe
  obtain ⟨blockremainder, hrem⟩ := exists_calcFileBlocksRemainder hzero hquotient
  have hcount := calcFileBlocks_eq_ok_iff.mpr ⟨hzero, hquotient, rfl⟩
  dsimp only [headerFields] at hnonneg hnonneg' hle
  have hoffset : 32 + (field archive 28 4).toNat + 4 ≤ archive.length := by omega
  have hblock {hclsize : List UInt8} {buf : ℕ → List UInt8} (hsize : hclsize.length = 4)
      (hbuf : ∀ n, (buf n).length = n) :=
    readNames_of_le hsize hoffset hbuf hnonneg' (by push_cast; omega)
  rw [readHeader_ofBytes memory hlen, readHashLists,
    readNames_of_le (Memory.length_fetch _ _) (by omega) (fun n => Memory.length_fetch _ _)
      hnonneg (by push_cast; omega), ok_bind]
  dsimp only
  rw [hblock (Memory.length_fetch _ _) (fun n => Memory.length_fetch _ _), ok_bind]
  dsimp only
  rw [hcount, ok_bind, hrem, ok_bind]
  exact ⟨_, _, rfl, rfl, rfl⟩

end

/-! The record size -/

theorem field_range (archive : List UInt8) (offset : ℕ) :
    -2 ^ 31 ≤ field archive offset 4 ∧ field archive offset 4 < 2 ^ 31 := by
  have hlen : ((archive.drop offset).take 4).length ≤ 4 := List.length_take_le _ _
  have hpow := Nat.pow_le_pow_right (show 0 < 256 by norm_num) hlen
  have hpos : 0 < 256 ^ ((archive.drop offset).take 4).length := by positivity
  have hlo := @Int.le_bmod (ofLE ((archive.drop offset).take 4)) _ hpos
  have hhi := @Int.bmod_lt (ofLE ((archive.drop offset).take 4)) _ hpos
  unfold field intOfBytes
  omega

/-- The two narrowings leave it alone. -/
theorem toInt32_headerFields (archive : List UInt8) :
    toInt32 (toInt32 (calcBlockSize (setVectorHLstring mdHashlist
        (headerFields archive).blockhashnames) + calcModulusBytes (headerFields archive).modsize) +
      if (headerFields archive).blocksize > 32 then 4 else 1) =
        (headerFields archive).recordSize := by
  have hsize :
      calcBlockSize (setVectorHLstring mdHashlist (headerFields archive).blockhashnames) < 1000 :=
    calcBlockSize_lt (setVectorHL_registered mdHashlist_wellNamed _)
  obtain ⟨hlo, hhi⟩ := field_range archive 24
  obtain ⟨hlo', hhi'⟩ := calcModulusBytes_range hlo hhi
  change -2 ^ 29 ≤ calcModulusBytes (headerFields archive).modsize at hlo'
  change calcModulusBytes (headerFields archive).modsize ≤ 2 ^ 29 at hhi'
  have hinner : toInt32 (calcBlockSize (setVectorHLstring mdHashlist
      (headerFields archive).blockhashnames) + calcModulusBytes (headerFields archive).modsize) =
        calcBlockSize (setVectorHLstring mdHashlist (headerFields archive).blockhashnames) +
          calcModulusBytes (headerFields archive).modsize :=
    toInt32_of_range (by omega) (by omega)
  rw [hinner, toInt32_of_range, HeaderFields.recordSize]
  · split_ifs <;> omega
  · split_ifs <;> omega

section
variable {filename archive : List UInt8} (hext : fileExtension filename = ascii "mdz")
  (hlen : 48 ≤ archive.length)
include hext hlen

/-- Behind the header only the product can go wrong. -/
theorem validateMDzip_isOk_iff {memory : UnzipMemory} {header : MdzipHeader} {nf : IStream}
    (hread : readHeader memory (IStream.ofBytes archive) = .ok (header, nf))
    (hhas : header.Has (headerFields archive)) :
    (∃ result, validateMDzip memory filename archive = .ok result) ↔
      -2 ^ 63 ≤ (headerFields archive).recordSize * (headerFields archive).blockcount ∧
        (headerFields archive).recordSize * (headerFields archive).blockcount < 2 ^ 63 := by
  have hcount := (calcFileBlocks_of_readHeader hread).1
  rw [hhas.filesize, hhas.blocksize, calcFileBlocks_eq_ok_iff] at hcount
  rw [← int64_isOk_iff, HeaderFields.blockcount, hcount.2.2, validateMDzip,
    if_neg (by simp [hext]), if_neg (by omega), hread, ok_bind]
  dsimp only
  rw [hhas.hashlistvt, hhas.modsize, hhas.blocksize, toInt32_headerFields]
  constructor
  · rintro ⟨result, h⟩
    obtain ⟨total, htotal, -⟩ := exists_of_bind_eq_ok h
    exact ⟨total, htotal⟩
  · rintro ⟨total, htotal⟩
    rw [htotal]
    exact ⟨_, rfl⟩

/-- With an extension and a length that get it past the first checks, an archive
is read safely when its fields are safe, and only then. -/
theorem readsSafely_iff :
    ReadsSafely filename archive ↔ (headerFields archive).Safe archive.length := by
  constructor
  · intro hreads
    obtain ⟨hresult, header, nf, hread, hle⟩ := hreads zeroMemory
    obtain ⟨hnonneg, hnonneg', hhas⟩ := has_of_readHeader zeroMemory hlen hread hle
    obtain ⟨hge, hlt⟩ := (validateMDzip_isOk_iff hext hlen hread hhas).mp hresult
    have hcount := (calcFileBlocks_of_readHeader hread).1
    rw [hhas.filesize, hhas.blocksize, calcFileBlocks_eq_ok_iff] at hcount
    obtain ⟨hzero, hquotient, -⟩ := hcount
    rw [hhas.hclfilesize] at hnonneg hle
    rw [hhas.hclblocksize] at hnonneg' hle
    exact ⟨hnonneg, hnonneg', hle, hzero, hquotient, hge, hlt⟩
  · intro hsafe memory
    obtain ⟨header, nf, hread, hfile, hblock⟩ := exists_readHeader memory hlen hsafe
    have hle := hsafe.names_le
    rw [← hfile, ← hblock] at hle
    obtain ⟨-, -, hhas⟩ := has_of_readHeader memory hlen hread hle
    exact ⟨(validateMDzip_isOk_iff hext hlen hread hhas).mpr ⟨hsafe.total_ge, hsafe.total_lt⟩,
      header, nf, hread, hle⟩

end

/-- An archive of nothing but a block size. -/
def blocksizeArchive (blocksize : UInt8) : List UInt8 :=
  List.replicate 16 0 ++ blocksize :: List.replicate 31 0

theorem readsSafely_iff_blocksize :
    ReadsSafely (ascii "a.mdz") (blocksizeArchive 12) ↔
      (headerFields (blocksizeArchive 12)).Safe (blocksizeArchive 12).length :=
  readsSafely_iff (by decide) (by decide)

/-- A block size of zero. -/
theorem zero_blocksize_divides :
    validateMDzip zeroMemory (ascii "a.mdz") (blocksizeArchive 0) = .error .divideByZero ∧
      ¬ ∀ filename archive, fileExtension filename = ascii "mdz" → 48 ≤ archive.length →
        ReadsSafely filename archive := by
  have htrap : validateMDzip zeroMemory (ascii "a.mdz") (blocksizeArchive 0) =
      .error .divideByZero := rfl
  refine ⟨htrap, fun h => ?_⟩
  obtain ⟨⟨result, hresult⟩, -⟩ := h (ascii "a.mdz") (blocksizeArchive 0) (by decide) (by decide)
    zeroMemory
  rw [htrap] at hresult
  cases hresult

end Mdencode.Cpp
