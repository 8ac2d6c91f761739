import Mdencode.Cpp.MdArchive

/-! The records of an archive, written and read back. -/

namespace Mdencode.Cpp

open Mdencode.Bytes

/-! The exponent -/

theorem length_exponentBytes (blocksize modexponent : ℕ) :
    (exponentBytes blocksize modexponent).length = if blocksize > 32 then 4 else 1 := by
  unfold exponentBytes
  split_ifs <;> simp

theorem ofLE_low (v : ℕ) : ofLE [UInt8.ofNat v, 0, 0, 0] = v % 256 := by
  simp [ofLE, ofBE]

theorem ofLE_intBytes {n v : ℕ} (h : v < 256 ^ n) : ofLE (intBytes n v) = v := by
  have hmod : ((v : ℤ) % 256 ^ n).toNat = v := by
    rw [Int.emod_eq_of_lt (by positivity) (by exact_mod_cast h), Int.toNat_natCast]
  rw [intBytes, hmod, ofLE_toLE, Nat.mod_eq_of_lt h]

/-- The exponent variable of the reader can take in the next record. -/
def ExponentReady (blocksize : ℕ) (modexponent : List UInt8) : Prop :=
  modexponent.length = 4 ∧ (blocksize ≤ 32 → modexponent.drop 1 = [0, 0, 0])

theorem readExponent_exponentBytes {blocksize e : ℕ} (he : e < 2 ^ 31)
    {modexponent : List UInt8} (h : ExponentReady blocksize modexponent) (rest : List UInt8) :
    ∃ bytes, readExponent blocksize modexponent
        (IStream.ofBytes (exponentBytes blocksize e ++ rest)) = (bytes, IStream.ofBytes rest) ∧
      ExponentReady blocksize bytes ∧ ofLE bytes = storedExponent blocksize e := by
  obtain ⟨hlen, hzero⟩ := h
  unfold readExponent exponentBytes storedExponent ExponentReady
  by_cases hsize : blocksize ≤ 32
  · rw [if_neg (by omega), if_neg (by omega), if_pos hsize, IStream.read_append (by simp [hlen]),
      hzero hsize]
    exact ⟨_, rfl, ⟨rfl, fun _ => rfl⟩, ofLE_low e⟩
  · rw [if_pos (by omega), if_pos (by omega), if_neg hsize, IStream.read_append (by simp [hlen])]
    refine ⟨_, rfl, ⟨by simp, fun h => absurd h hsize⟩, ?_⟩
    rw [Nat.mod_eq_of_lt (by omega)]
    exact ofLE_intBytes (by norm_num; omega)

/-! The remainder -/

theorem exportRemainder_eq {n v : ℕ} (h : v < 256 ^ n) : exportRemainder n v = toBE n v := by
  have hfit : v < 256 ^ (List.replicate n (0 : UInt8)).length := by simpa using h
  simpa [exportRemainder] using padBlockBytes_mpzExport hfit

theorem mod_calcModulusInt_lt {m : ℕ} (hm : 1 ≤ m) (v : ℕ) :
    v % calcModulusInt m < 256 ^ (calcModulusBytes m).toNat := by
  have hpos : 0 < calcModulusInt m := calcModulusInt_pos hm
  have hbytes : m ≤ 8 * (calcModulusBytes m).toNat := by
    rw [calcModulusBytes_natCast]
    omega
  calc
    v % calcModulusInt m < 2 ^ m := (Nat.mod_lt _ hpos).trans_le (Nat.sub_le _ _)
    _ ≤ 2 ^ (8 * (calcModulusBytes m).toNat) := Nat.pow_le_pow_right (by norm_num) hbytes
    _ = 256 ^ (calcModulusBytes m).toNat := by rw [pow_mul]; norm_num

/-! One record -/

/-- The context in force at block `i`: its key has been incremented `i` times. -/
def contextAt (incKey : IncrementKey) (hcl : MdHashContextList) : ℕ → MdHashContextList
  | 0 => hcl.incrementBlockNum incKey
  | i + 1 => contextAt incKey (hcl.incrementBlockNum incKey) i

/-- Block `i` of a file. -/
def fileBlock (blocksize : ℕ) (file : List UInt8) (i : ℕ) : List UInt8 :=
  (file.drop (i * blocksize)).take blocksize

theorem fileBlock_drop (blocksize : ℕ) (file : List UInt8) (i : ℕ) :
    fileBlock blocksize (file.drop blocksize) i = fileBlock blocksize file (i + 1) := by
  rw [fileBlock, fileBlock, List.drop_drop, Nat.succ_mul, Nat.add_comm]

/-- What a record says about a block: its length, exponent and remainder, and
digests that are those of the block under the keys in force. -/
structure RecordOf (lib : HashLibrary) (hashlistvt : List Hashlist) (keys : Registers)
    (modsize fullsize : ℕ) (block : List UInt8) (record : BlockRecord Registers) : Prop where
  blocksize : record.blocksize = block.length
  modexponent : record.modexponent = storedExponent fullsize (calcExponent (ofBE block))
  modulusIntRemainder : record.modulusIntRemainder = ofBE block % calcModulusInt modsize
  accepts : ∀ data, compareUnder lib hashlistvt record.hregister data = true ↔
    ∀ hash ∈ hashlistvt, blockSignature lib keys data hash = blockSignature lib keys block hash

section
variable {lib : HashLibrary} {incKey : IncrementKey} {blocksize modsize : ℕ}

variable (lib) in
theorem blockSignature_congr {hash : Hashlist} (hcons : hash.Consistent) {r₁ r₂ : Registers}
    (h : KeysAgree r₁ r₂) (data : List UInt8) :
    blockSignature lib r₁ data hash = blockSignature lib r₂ data hash := by
  obtain ⟨-, -, ⟨d, hd, -, -, hkey⟩, -⟩ := hcons
  rw [Option.mem_def] at hd
  unfold blockSignature
  rw [hd]
  dsimp only
  rw [h.run data lib.hash hkey]

theorem hashlistvt_incrementBlockNum (hcl : MdHashContextList) :
    (hcl.incrementBlockNum incKey).hashlistvt = hcl.hashlistvt := by
  unfold MdHashContextList.incrementBlockNum
  split_ifs <;> rfl

theorem length_mdzipBlock (hm : 1 ≤ modsize) {enc : MdHashContextList}
    (hcons : ∀ hash ∈ enc.hashlistvt, hash.Consistent) (block : List UInt8) :
    (mdzipBlock lib incKey blocksize modsize enc block).2.length =
      calcBlockSize enc.hashlistvt + (if blocksize > 32 then 4 else 1) +
        (calcModulusBytes modsize).toNat := by
  have hlist : ((enc.incrementBlockNum incKey).setByteBlockHashList lib block).hashlistvt =
      enc.hashlistvt := hashlistvt_incrementBlockNum enc
  simp only [mdzipBlock, List.length_append, length_exponentBytes,
    exportRemainder_eq (mod_calcModulusInt_lt hm _), length_toBE]
  rw [length_writeBlockHashList (by rw [hlist]; exact hcons), hlist]

/-- The reader takes one record in, and is ready for the next. -/
theorem readRecord_mdzipBlock (hm : 1 ≤ modsize) {enc spec : MdHashContextList} {r : UnzipReader}
    (hcons : ∀ hash ∈ enc.hashlistvt, hash.Consistent) (hunshared : Unshared enc.hashlistvt)
    (hsame : SameContext enc r.hclblock) (hspec : SameContext enc spec)
    (hexp : ExponentReady blocksize r.modexponent)
    (hbytes : r.modulusbytes.length = (calcModulusBytes modsize).toNat)
    {block : List UInt8} (hpos : 0 < block.length) (hle : block.length ≤ 100) (rest : List UInt8)
    (hnf : r.nf = IStream.ofBytes
      ((mdzipBlock lib incKey blocksize modsize enc block).2 ++ rest)) :
    let next := (mdzipBlock lib incKey blocksize modsize enc block).1
    ∃ record r', readRecord incKey blocksize block.length r = (record, r') ∧
      RecordOf lib enc.hashlistvt (spec.incrementBlockNum incKey).hregister modsize blocksize block
        record ∧
      SameContext next r'.hclblock ∧ SameContext next (spec.incrementBlockNum incKey) ∧
      ExponentReady blocksize r'.modexponent ∧
      r'.modulusbytes.length = (calcModulusBytes modsize).toNat ∧
      r'.nf = IStream.ofBytes rest := by
  intro next
  obtain ⟨dec, modexponent, modulusbytes, nf⟩ := r
  dsimp only at hsame hexp hbytes hnf
  subst hnf
  have he : calcExponent (ofBE block) < 2 ^ 31 := (calcExponent_le hpos).trans_lt (by omega)
  have hrem := mod_calcModulusInt_lt hm (ofBE block)
  obtain ⟨dec', hread, hnext, haccepts⟩ := readBlockHashList_writeBlockHashList lib block hsame
    hcons hunshared incKey (exponentBytes blocksize (calcExponent (ofBE block)) ++
      (exportRemainder (calcModulusBytes modsize).toNat (ofBE block % calcModulusInt modsize) ++
        rest))
  obtain ⟨bytes, hreadExponent, hready, hvalue⟩ := readExponent_exponentBytes he hexp
    (exportRemainder (calcModulusBytes modsize).toNat (ofBE block % calcModulusInt modsize) ++
      rest)
  have hlistNext : (enc.incrementBlockNum incKey).hashlistvt = enc.hashlistvt :=
    hashlistvt_incrementBlockNum enc
  have hlist : (dec'.incrementBlockNum incKey).hashlistvt = enc.hashlistvt :=
    hnext.hashlistvt.symm.trans hlistNext
  have hkeys := (hspec.incrementBlockNum incKey).keys
  have hrun : readRecord incKey blocksize block.length ⟨dec, modexponent, modulusbytes,
      IStream.ofBytes ((mdzipBlock lib incKey blocksize modsize enc block).2 ++ rest)⟩ =
      (⟨(dec'.incrementBlockNum incKey).hregister, ofLE bytes,
          mpzImport (exportRemainder (calcModulusBytes modsize).toNat
            (ofBE block % calcModulusInt modsize)), (block.length : ℤ).toNat⟩,
        ⟨dec'.incrementBlockNum incKey, bytes, exportRemainder (calcModulusBytes modsize).toNat
          (ofBE block % calcModulusInt modsize), IStream.ofBytes rest⟩) := by
    simp only [readRecord, mdzipBlock, List.append_assoc, mpzImport]
    rw [hread]
    dsimp only
    rw [hreadExponent]
    dsimp only
    rw [IStream.read_append (by rw [exportRemainder_eq hrem, length_toBE, hbytes])]
  refine ⟨_, _, hrun, ⟨by simp, hvalue, ?_, fun data => ?_⟩, hnext, ?_, hready, ?_, rfl⟩
  · rw [exportRemainder_eq hrem, mpzImport, ofBE_toBE_of_lt hrem]
  · have hsignature (hash : Hashlist) (hmem : hash ∈ enc.hashlistvt) (data : List UInt8) :=
      blockSignature_congr lib (hcons hash hmem) hkeys data
    have hcompare : compareUnder lib enc.hashlistvt (dec'.incrementBlockNum incKey).hregister data =
        (dec'.incrementBlockNum incKey).compareBlockHashList lib data := by
      rw [compareUnder, MdHashContextList.compareBlockHashList,
        MdHashContextList.compareBlockHashList, hlist]
    rw [hcompare, haccepts]
    exact forall₂_congr fun hash hmem => by
      rw [hsignature hash hmem, hsignature hash hmem]
  · exact (sameContext_setByteBlockHashList lib block (hlistNext.symm ▸ hcons)
      (hlistNext.symm ▸ hunshared)).trans (hspec.incrementBlockNum incKey)
  · rw [exportRemainder_eq hrem, length_toBE]

/-! All records -/

section
variable {blockremainder left : ℕ} {nf : List UInt8}

/-- The bytes the loop takes for its next block. -/
theorem take_eq_fileBlock (hrem : blockremainder ≤ blocksize)
    (hlen : nf.length = left * blocksize + blockremainder) :
    nf.take (if left = 0 ∧ blockremainder ≠ blocksize then blockremainder else blocksize) =
      fileBlock blocksize nf 0 := by
  rw [fileBlock, Nat.zero_mul, List.drop_zero]
  split_ifs with hlast
  · rw [hlast.1, Nat.zero_mul, Nat.zero_add] at hlen
    rw [List.take_of_length_le hlen.le, List.take_of_length_le (hlen.trans_le hrem)]
  · rfl

theorem length_fileBlock_zero (hrem : blockremainder ≤ blocksize)
    (hlen : nf.length = left * blocksize + blockremainder) :
    (fileBlock blocksize nf 0).length =
      if left = 0 ∧ blockremainder ≠ blocksize then blockremainder else blocksize := by
  rw [← take_eq_fileBlock hrem hlen, List.length_take, Nat.min_eq_left]
  split_ifs with hlast
  · omega
  · rcases Nat.eq_zero_or_pos left with rfl | hleft
    · have : blockremainder = blocksize := by simpa using hlast
      omega
    · have := Nat.mul_le_mul_right blocksize hleft
      omega

/-- What the reader takes for the size of its next block. -/
theorem nextSize_eq (hrem : blockremainder ≤ blocksize)
    (hlen : nf.length = left * blocksize + blockremainder) :
    (if left = 0 ∧ (blockremainder : ℤ) ≠ blocksize then (blockremainder : ℤ) else blocksize) =
      (fileBlock blocksize nf 0).length := by
  rw [length_fileBlock_zero hrem hlen]
  push_cast
  simp

/-- There is as much behind a block as the blocks to come have. -/
theorem length_drop_block (hlen : nf.length = left * blocksize + blockremainder)
    (hleft : 0 < left) :
    (nf.drop blocksize).length = (left - 1) * blocksize + blockremainder := by
  obtain ⟨k, rfl⟩ := Nat.exists_eq_succ_of_ne_zero hleft.ne'
  rw [List.length_drop, hlen, Nat.succ_mul, Nat.succ_sub_one]
  omega

theorem length_mdzipBlocks (hm : 1 ≤ modsize) {enc : MdHashContextList}
    (hcons : ∀ hash ∈ enc.hashlistvt, hash.Consistent) :
    (mdzipBlocks lib incKey blocksize modsize blockremainder left nf enc).length =
      (calcBlockSize enc.hashlistvt + (if blocksize > 32 then 4 else 1) +
        (calcModulusBytes modsize).toNat) * left := by
  induction left generalizing nf enc with
  | zero => simp [mdzipBlocks]
  | succ left ih =>
    have hlist (block : List UInt8) :
        (mdzipBlock lib incKey blocksize modsize enc block).1.hashlistvt = enc.hashlistvt :=
      hashlistvt_incrementBlockNum enc
    rw [mdzipBlocks, List.length_append, length_mdzipBlock hm hcons,
      ih (by rw [hlist]; exact hcons), hlist]
    ring

/-- Every block has its record. -/
theorem readRecords_mdzipBlocks (hm : 1 ≤ modsize) (hpos : 0 < blockremainder)
    (hrem : blockremainder ≤ blocksize) (hle : blocksize ≤ 100) (rest : List UInt8)
    {enc spec : MdHashContextList} {r : UnzipReader}
    (hcons : ∀ hash ∈ enc.hashlistvt, hash.Consistent) (hunshared : Unshared enc.hashlistvt)
    (hsame : SameContext enc r.hclblock) (hspec : SameContext enc spec)
    (hexp : ExponentReady blocksize r.modexponent)
    (hbytes : r.modulusbytes.length = (calcModulusBytes modsize).toNat)
    (hlen : 0 < left → nf.length = (left - 1) * blocksize + blockremainder)
    (hnf : r.nf = IStream.ofBytes
      (mdzipBlocks lib incKey blocksize modsize blockremainder left nf enc ++ rest)) {i : ℕ}
    (hi : i < left) :
    ∃ record,
      (readRecords (fun _ => readRecord incKey blocksize) blocksize blockremainder left r)[i]? =
        some record ∧
      RecordOf lib enc.hashlistvt (contextAt incKey spec i).hregister modsize blocksize
        (fileBlock blocksize nf i) record := by
  induction left generalizing nf enc spec r i with
  | zero => omega
  | succ left ih =>
    replace hlen := hlen (Nat.succ_pos _)
    rw [Nat.add_sub_cancel] at hlen
    have hblock := take_eq_fileBlock hrem hlen
    have hlenblock := length_fileBlock_zero hrem hlen
    have hcurr := nextSize_eq hrem hlen
    set block := fileBlock blocksize nf 0
    have hblockpos : 0 < block.length := by
      rw [hlenblock]
      split_ifs <;> omega
    have hblockle : block.length ≤ 100 := by
      rw [hlenblock]
      split_ifs <;> omega
    have hlist : (mdzipBlock lib incKey blocksize modsize enc block).1.hashlistvt =
        enc.hashlistvt := hashlistvt_incrementBlockNum enc
    rw [mdzipBlocks] at hnf
    dsimp only at hnf
    rw [hblock, List.append_assoc] at hnf
    obtain ⟨record, r', hread, hrecord, hsame', hspec', hexp', hbytes', hnf'⟩ :=
      readRecord_mdzipBlock hm hcons hunshared hsame hspec hexp hbytes hblockpos hblockle _ hnf
    rw [readRecords, hcurr, hread]
    dsimp only
    cases i with
    | zero => exact ⟨record, rfl, hrecord⟩
    | succ i =>
      have hcurr' : (if left = 0 ∧ blockremainder ≠ blocksize then blockremainder
          else blocksize) = blocksize := if_neg (by omega)
      rw [hcurr'] at hnf'
      obtain ⟨record', hget, hrecord'⟩ := ih (by rw [hlist]; exact hcons)
        (by rw [hlist]; exact hunshared) hsame' hspec' hexp' hbytes' (length_drop_block hlen) hnf'
        (Nat.lt_of_succ_lt_succ hi)
      rw [hlist] at hrecord'
      refine ⟨record', by simpa using hget, ?_⟩
      rw [← fileBlock_drop]
      exact hrecord'

end

end

/-! The size of an archive -/

/-- What `writeKeyList` writes for a list. -/
def keyBytes (hashlistvt : List Hashlist) : ℕ :=
  (hashlistvt.map fun hash => ((keySpans hash.signature).map Span.length).sum).sum

theorem length_writeKeyList (hcl : MdHashContextList) :
    hcl.writeKeyList.length = keyBytes hcl.hashlistvt := by
  rw [MdHashContextList.writeKeyList, Memory.length_dump, MdHashContextList.keyListSpans,
    List.map_flatMap, List.flatMap_def, List.sum_flatten, List.map_map]
  rfl

section
variable (args : MdzipArgs)

def MdzipArgs.fileList : List Hashlist := setVectorHL mdHashlist args.fhlist

def MdzipArgs.blockList : List Hashlist := setVectorHL mdHashlist args.bhlist

theorem MdzipArgs.registered_fileList : Registered mdHashlist args.fileList :=
  setVectorHL_registered mdHashlist_wellNamed args.fhlist

theorem MdzipArgs.registered_blockList : Registered mdHashlist args.blockList :=
  setVectorHL_registered mdHashlist_wellNamed args.bhlist

def MdzipArgs.recordSize : ℕ :=
  calcBlockSize args.blockList + (if args.zipBlocksize > 32 then 4 else 1) +
    (calcModulusBytes args.modsize).toNat

def MdzipArgs.headerSize : ℕ :=
  40 + (getHLvectorsStringNames args.fileList).length +
    (getHLvectorsStringNames args.blockList).length + calcBlockSize args.fileList +
    if args.randombh then keyBytes args.blockList else 0

variable {args}

theorem length_writeHeader (world : ZipWorld) (version blocksize : ℕ) :
    (writeHeader args version blocksize (args.hclfile world) (args.hclblock world)).length =
      args.headerSize := by
  have hdigests : (args.hclfile world).writeBlockHashList.length =
      calcBlockSize args.fileList :=
    length_writeBlockHashList (args.registered_fileList.consistent mdHashlist_tabled)
  have hkeys : (writeKeys args.randombh (args.hclblock world)).length =
      4 + if args.randombh then keyBytes args.blockList else 0 := by
    unfold writeKeys
    split_ifs
    · rw [List.length_append, length_intBytes, length_writeKeyList, hashlistvt_hclblock]
      rfl
    · simp
  simp only [writeHeader, writeLists, writeNames, List.length_append, length_toLE, length_intBytes,
    hdigests, hkeys, hashlistvt_hclfile, hashlistvt_hclblock, MdzipArgs.headerSize,
    MdzipArgs.fileList, MdzipArgs.blockList]
  ring

/-- The archive of a file that is not empty has one size whatever its bytes are. -/
theorem mdzipfile_length (world : ZipWorld) (hne : args.file ≠ []) :
    ∃ archive, mdzipfile world args = .ok (some archive) ∧
      archive.length = args.headerSize + args.recordSize * args.zipBlockcount := by
  refine ⟨_, mdzipfile_eq world hne, ?_⟩
  have hcons : ∀ hash ∈ (args.hclblock world).hashlistvt, hash.Consistent := by
    rw [hashlistvt_hclblock]
    exact args.registered_blockList.consistent mdHashlist_tabled
  rw [List.length_append, length_writeHeader, length_mdzipBlocks args.one_le_modsize hcons,
    hashlistvt_hclblock]
  rfl

variable (args) in
theorem one_le_modsizeBytes : 1 ≤ (calcModulusBytes args.modsize).toNat := by
  have := args.one_le_modsize
  rw [calcModulusBytes_natCast]
  omega

/-- Readers take 48 bytes as the least; a block hash is enough to get there. -/
theorem le_archiveSize (hne : args.file ≠ []) (hlist : args.blockList ≠ []) :
    48 ≤ args.headerSize + args.recordSize * args.zipBlockcount := by
  obtain ⟨hash, rest, hcons⟩ := List.exists_cons_of_ne_nil hlist
  have hrows : ∀ hash ∈ mdHashlist.take (hashlistsize mdHashlist),
      6 ≤ (ascii hash.name).length + hash.blocksize := by decide
  have hrow := hrows hash (args.registered_blockList.mem hash (by simp [hcons]))
  have hname : (ascii hash.name).length ≤ (getHLvectorsStringNames args.blockList).length := by
    rw [hcons, getHLvectorsStringNames, List.map_cons]
    cases rest with
    | nil => exact le_rfl
    | cons next rest => simp [Separated.join]
  have hsize : hash.blocksize ≤ calcBlockSize args.blockList := by
    rw [hcons, calcBlockSize, List.map_cons, List.sum_cons]
    omega
  have hexp : 1 ≤ if args.zipBlocksize > 32 then 4 else 1 := by split_ifs <;> norm_num
  have hrecord := Nat.le_mul_of_pos_right args.recordSize (length_file_eq hne).1
  have := one_le_modsizeBytes args
  unfold MdzipArgs.headerSize
  unfold MdzipArgs.recordSize at hrecord ⊢
  omega

end

end Mdencode.Cpp
