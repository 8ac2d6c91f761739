import Mdencode.Cpp.ExponentTable

/-! The format of the exponent table, and the bits that go into the table and
come out of it. Blocks are at most 10 bytes long, so an exponent is far from the
end of an `int`. -/

namespace Mdencode.Cpp

open Mdencode.Bytes Mdencode.Bits

namespace MdBitstream

/-! The narrowest format -/

/-- The table in the comment of `calcMinMaxExponent`. -/
def Holds (bitformat diffExponent : ℤ) : Prop :=
  bitformat = 2 ∧ diffExponent ≤ 3 ∨ bitformat = 3 ∧ diffExponent ≤ 7 ∨
    bitformat = 4 ∧ diffExponent ≤ 15 ∨ bitformat = 5 ∧ diffExponent ≤ 31 ∨
    bitformat = 6 ∧ diffExponent ≤ 63 ∨ bitformat = 7

/-- No narrower format of the table holds the spread. -/
def IsNarrowest (bitformat diffExponent : ℤ) : Prop :=
  Holds bitformat diffExponent ∧ ∀ narrower < bitformat, ¬ Holds narrower diffExponent

def narrowestFormat (diffExponent : ℤ) : ℤ :=
  if diffExponent ≤ 3 then 2
  else if diffExponent ≤ 7 then 3
  else if diffExponent ≤ 15 then 4
  else if diffExponent ≤ 31 then 5
  else if diffExponent ≤ 63 then 6
  else 7

theorem narrowestFormat_isNarrowest (diffExponent : ℤ) :
    IsNarrowest (narrowestFormat diffExponent) diffExponent := by
  unfold IsNarrowest Holds narrowestFormat
  split_ifs <;> exact ⟨by omega, fun narrower hlt => by omega⟩

theorem isNarrowest_iff {bitformat diffExponent : ℤ} :
    IsNarrowest bitformat diffExponent ↔ bitformat = narrowestFormat diffExponent := by
  constructor
  · intro h
    obtain ⟨hholds, hleast⟩ := narrowestFormat_isNarrowest diffExponent
    apply le_antisymm
    · exact le_of_not_gt fun hlt => h.2 _ hlt hholds
    · exact le_of_not_gt fun hlt => hleast _ hlt h.1
  · rintro rfl
    exact narrowestFormat_isNarrowest diffExponent

/-- The comparisons leave out the least spread of the formats 4, 5 and 6. -/
theorem setDiffFormat_isNarrowest_iff (mb : MdBitstream) :
    IsNarrowest mb.setDiffFormat.bitformat mb.diffExponent ↔
      mb.diffExponent ≠ 8 ∧ mb.diffExponent ≠ 16 ∧ mb.diffExponent ≠ 32 := by
  rw [isNarrowest_iff]
  simp only [setDiffFormat, narrowestFormat]
  split_ifs <;> omega

/-! The differences -/

/-- One block of `mdzipModExponentBitstream26`, with the differences that are put. -/
def putDifference (mb : MdBitstream) (last : Bool) (byteblock : List UInt8)
    (differences : List ℤ) : List ℤ :=
  if last = false ∧ 2 ≤ mb.bitformat ∧ mb.bitformat ≤ 6 then
    differences ++ [(calcExponent (mpzImport byteblock) : ℤ) - mb.minExponentMinusLastBlock]
  else differences

def differences (mb : MdBitstream) (nf : List UInt8) : List ℤ := mb.forBlocks mb.putDifference nf []

theorem foldl_putDifference (mb : MdBitstream) (blocks : List (List UInt8))
    (differences : List ℤ) :
    blocks.foldl (fun ds byteblock => mb.putDifference false byteblock ds) differences =
      differences ++ if 2 ≤ mb.bitformat ∧ mb.bitformat ≤ 6 then
        blocks.map fun byteblock =>
          (calcExponent (mpzImport byteblock) : ℤ) - mb.minExponentMinusLastBlock
      else [] := by
  induction blocks generalizing differences with
  | nil => simp
  | cons byteblock blocks ih =>
    rw [List.foldl_cons, ih, putDifference]
    split_ifs <;> simp_all

/-- The blocks before the last put their differences and nothing else. -/
theorem foldl_putExponent26_eq (mb : MdBitstream) (blocks : List (List UInt8))
    (differences : List ℤ) (bsw : BitstreamWriter) :
    blocks.foldl (fun bsw byteblock => mb.putExponent26 false byteblock bsw)
        (differences.foldl (fun bsw d => bsw.put mb.bitformat.toNat d) bsw) =
      (blocks.foldl (fun ds byteblock => mb.putDifference false byteblock ds) differences).foldl
        (fun bsw d => bsw.put mb.bitformat.toNat d) bsw := by
  induction blocks generalizing differences with
  | nil => rfl
  | cons byteblock blocks ih =>
    rw [List.foldl_cons, List.foldl_cons, ← ih]
    congr 1
    unfold putExponent26 putDifference
    split_ifs <;> simp_all

section
variable {blocksize blockremainder m : ℕ} {nf : List UInt8} {mb : MdBitstream}

theorem differences_eq (hrem : blockremainder ≤ blocksize)
    (hlen : nf.length = m * blocksize + blockremainder) (hsize : mb.blocksize = blocksize)
    (hremainder : mb.blockremainder = blockremainder) (hcount : mb.blockcount = (m + 1 : ℕ)) :
    mb.differences nf =
      ((List.range m).map (fileBlock blocksize nf)).foldl
        (fun ds byteblock => mb.putDifference false byteblock ds) [] := by
  rw [differences, forBlocks, hsize, hremainder, hcount, Int.toNat_natCast, Int.toNat_natCast,
    Int.toNat_natCast, forByteblocks_eq hrem hlen, List.foldl_map, putDifference,
    if_neg (by simp)]

/-- After the base the pass puts the differences in the format, and the last
exponent in 7 bits. -/
theorem forBlocks_putExponent26 (hrem : blockremainder ≤ blocksize)
    (hlen : nf.length = m * blocksize + blockremainder) (hsize : mb.blocksize = blocksize)
    (hremainder : mb.blockremainder = blockremainder) (hcount : mb.blockcount = (m + 1 : ℕ))
    (bsw : BitstreamWriter) :
    mb.forBlocks mb.putExponent26 nf bsw =
      ((mb.differences nf).foldl (fun bsw d => bsw.put mb.bitformat.toNat d) bsw).put 7
        (calcExponent (ofBE (fileBlock blocksize nf m))) := by
  rw [differences_eq hrem hlen hsize hremainder hcount, ← foldl_putExponent26_eq, List.foldl_nil,
    List.foldl_map, forBlocks, hsize, hremainder, hcount, Int.toNat_natCast, Int.toNat_natCast,
    Int.toNat_natCast, forByteblocks_eq hrem hlen]
  rfl

end

/-! The format of a file -/

/-- The object that `mdzipfile` makes for a file, after its first pass. -/
def measure (file : List UInt8) (blocksize : ℤ) : Except Trap MdBitstream := do
  let blockcount ← calcFileBlocks file.length blocksize
  let blockremainder := MdZip47.setLastBlockSize file.length blocksize
  let mb : MdBitstream := {}
  let mb := mb.mdInitBitstream blocksize blockcount blockremainder
  .ok (mb.calcMinMaxExponent file)

/-- The exponents of all blocks of a file. -/
def fileExponents (file : List UInt8) (blocksize : ℕ) : List ℕ :=
  exponentsOf blocksize file ((file.length + blocksize - 1) / blocksize)

theorem measure_eq {file : List UInt8} {blocksize : ℕ} (hpos : 0 < blocksize) (hne : file ≠ []) :
    ∃ blockremainder m : ℕ, blockremainder ≤ blocksize ∧
      file.length = m * blocksize + blockremainder ∧
      fileExponents file blocksize = exponentsOf blocksize file (m + 1) ∧
      measure file blocksize = .ok ((({} : MdBitstream).mdInitBitstream blocksize (m + 1 : ℕ)
        blockremainder).calcMinMaxExponent file) := by
  obtain ⟨hcount, hlen⟩ := length_eq_blocks (List.length_pos_iff.mpr hne) hpos
  obtain ⟨m, hm⟩ := Nat.exists_eq_add_of_le' hcount
  refine ⟨_, m, ?_, by rwa [hm] at hlen, by rw [fileExponents, hm], ?_⟩
  · have := Nat.mod_lt file.length hpos
    split_ifs <;> omega
  · rw [measure, calcFileBlocks_natCast hpos, ok_bind, MdZip47.setLastBlockSize_natCast, hm]

/-- The differences that are put are those from the least exponent to some other. -/
theorem differences_fit {blocksize blockremainder m : ℕ} {nf : List UInt8}
    (hrem : blockremainder ≤ blocksize) (hlen : nf.length = m * blocksize + blockremainder) :
    let mb := (({} : MdBitstream).mdInitBitstream blocksize (m + 1 : ℕ)
      blockremainder).calcMinMaxExponent nf
    ∀ d ∈ mb.differences nf, 0 ≤ d ∧ d < 2 ^ mb.bitformat.toNat := by
  intro mb d hd
  obtain ⟨f, hmeasured, -, h7, hformat, hwidth⟩ := calcMinMaxExponent_measured hrem hlen
  rw [differences_eq hrem hlen hmeasured.blocksize hmeasured.blockremainder hmeasured.blockcount,
    foldl_putDifference, List.nil_append, hmeasured.bitformat, hmeasured.least] at hd
  split_ifs at hd with hf
  · rw [List.map_map, List.mem_map] at hd
    obtain ⟨i, hi, rfl⟩ := hd
    have hlt := hwidth (by omega)
    set exponents := exponentsOf blocksize nf (m + 1) with hexponents
    have hmem : calcExponent (ofBE (fileBlock blocksize nf i)) ∈ exponents.dropLast := by
      rw [hexponents, exponentsOf_succ, List.dropLast_concat]
      exact List.mem_map.mpr ⟨i, hi, rfl⟩
    have hle := (le_foldl_min_iff.mp (le_refl (leastExponent exponents))).2 _
      (List.mem_map_of_mem hmem)
    have hge := (foldl_max_le_iff.mp (le_refl (largestExponent exponents))).2 _
      (List.mem_map_of_mem (List.dropLast_subset _ hmem))
    rw [spread] at hlt
    rw [Function.comp_apply, mpzImport, hmeasured.bitformat, Int.toNat_natCast]
    constructor
    · exact sub_nonneg.mpr hle
    · exact (sub_le_sub_right hge _).trans_lt hlt
  · cases hd

/-- The format is the narrowest unless the spread falls between the comparisons;
the differences fit either way. -/
theorem narrowest_format_iff {file : List UInt8} {blocksize : ℕ} (hpos : 0 < blocksize)
    (htwo : blocksize < file.length) :
    (∃ mb, measure file blocksize = .ok mb ∧ IsNarrowest mb.bitformat mb.diffExponent ∧
      ∀ d ∈ mb.differences file, 0 ≤ d ∧ d < 2 ^ mb.bitformat.toNat) ↔
    spread (fileExponents file blocksize) ≠ 8 ∧ spread (fileExponents file blocksize) ≠ 16 ∧
      spread (fileExponents file blocksize) ≠ 32 := by
  obtain ⟨blockremainder, m, hrem, hlen, hexponents, hmeasure⟩ :=
    measure_eq hpos (List.ne_nil_of_length_pos (hpos.trans htwo))
  have hfit := differences_fit hrem hlen
  have hnarrowest := setDiffFormat_isNarrowest_iff
    { ({} : MdBitstream).mdInitBitstream blocksize (m + 1 : ℕ) blockremainder with
      minExponent := ((fileExponents file blocksize).map Nat.cast).foldl min 255
      minExponentMinusLastBlock := leastExponent (fileExponents file blocksize)
      maxExponent := largestExponent (fileExponents file blocksize)
      diffExponent := spread (fileExponents file blocksize) }
  rw [hexponents] at hnarrowest ⊢
  rw [hmeasure]
  rw [calcMinMaxExponent_eq hrem hlen] at hfit ⊢
  refine Iff.trans ?_ hnarrowest
  constructor
  · rintro ⟨mb, hmb, h, -⟩
    obtain rfl := Except.ok.inj hmb
    exact h
  · intro h
    exact ⟨_, rfl, h, hfit⟩

/-- Two blocks with the exponents 1 and 4. -/
theorem narrowest_format_iff_three : 0 < 1 ∧ 1 < [(0 : UInt8), 15].length ∧
    ∃ mb, measure [0, 15] (1 : ℕ) = .ok mb ∧ IsNarrowest mb.bitformat mb.diffExponent ∧
      ∀ d ∈ mb.differences [0, 15], 0 ≤ d ∧ d < 2 ^ mb.bitformat.toNat :=
  ⟨by decide, by decide, (narrowest_format_iff (by decide) (by decide)).mpr (by decide)⟩

/-- Four bits hold the spread of the exponents 1 and 9, and seven are chosen. -/
theorem eight_not_narrowest : 10 < (List.replicate 10 (0 : UInt8) ++ [2, 0]).length ∧
    ¬ ∃ mb, measure (List.replicate 10 0 ++ [2, 0]) (10 : ℕ) = .ok mb ∧
      IsNarrowest mb.bitformat mb.diffExponent ∧
      ∀ d ∈ mb.differences (List.replicate 10 0 ++ [2, 0]), 0 ≤ d ∧ d < 2 ^ mb.bitformat.toNat := by
  refine ⟨by decide, ?_⟩
  rintro ⟨mb, hmb, ⟨-, hleast⟩, -⟩
  have hmb' : mb.bitformat = 7 ∧ mb.diffExponent = 8 := by
    obtain rfl := Except.ok.inj hmb
    decide
  exact hleast 4 (by omega) (by unfold Holds; omega)

/-! The bits that are put -/

@[simp] theorem length_put (n : ℕ) (value : ℤ) (bsw : BitstreamWriter) :
    (bsw.put n value).bits.length = bsw.bits.length + n := by
  simp [BitstreamWriter.put]

/-- A pass that puts `f` bits for a block before the last and 7 for the last. -/
theorem length_forByteblocks {body : Bool → List UInt8 → BitstreamWriter → BitstreamWriter}
    {f : ℕ} (hbody : ∀ byteblock bsw, (body false byteblock bsw).bits.length = bsw.bits.length + f)
    (hlast : ∀ byteblock bsw, (body true byteblock bsw).bits.length = bsw.bits.length + 7)
    (blocksize blockremainder m : ℕ) (nf : List UInt8) (bsw : BitstreamWriter) :
    (forByteblocks body blocksize blockremainder (m + 1) nf bsw).bits.length =
      bsw.bits.length + (m * f + 7) := by
  induction m generalizing nf bsw with
  | zero => simp [forByteblocks, hlast]
  | succ m ih =>
    rw [forByteblocks, ih, decide_eq_false (Nat.succ_ne_zero m), hbody]
    ring

/-- The writer at the end of `mdzipModExponentBitstream26`. -/
def bitstreamWriter26 (mb : MdBitstream) (nf : List UInt8) : BitstreamWriter :=
  mb.forBlocks mb.putExponent26 nf
    ((BitstreamWriter.new mb.modByteBlockSize.toNat).put 7 mb.minExponentMinusLastBlock)

/-- The writer at the end of `mdzipModExponentBitstream`. -/
def bitstreamWriter (mb : MdBitstream) (nf : List UInt8) : BitstreamWriter :=
  mb.forBlocks putExponent nf (BitstreamWriter.new mb.modByteBlockSize.toNat)

theorem mdzipModExponentBitstream26_writer (mb : MdBitstream) (nf : List UInt8) :
    mb.mdzipModExponentBitstream26 nf = mb.calcBitstreamSize >>= fun mb => .ok { mb with
      modExpBlock := some (mb.bitstreamWriter26 nf).data
      bsr := some (BitstreamReader.new (mb.bitstreamWriter26 nf).data) } := rfl

theorem mdzipModExponentBitstream_writer (mb : MdBitstream) (nf : List UInt8) :
    mb.mdzipModExponentBitstream nf = mb.calcBitstreamSize >>= fun mb => .ok { mb with
      bsr := some (BitstreamReader.new (mb.bitstreamWriter nf).data) } := rfl

/-- `mdzipfile` calls one of the two. -/
def chosenWriter (mb : MdBitstream) (nf : List UInt8) : BitstreamWriter :=
  if mb.bitformat < 7 then mb.bitstreamWriter26 nf else mb.bitstreamWriter nf

theorem length_chosenWriter {mb : MdBitstream} {f m : ℕ} (hf : mb.bitformat = f) (h2 : 2 ≤ f)
    (h7 : f ≤ 7) (hcount : mb.blockcount = (m + 1 : ℕ)) (nf : List UInt8) :
    (mb.chosenWriter nf).bits.length = (if f < 7 then 7 else 0) + (m * f + 7) := by
  rw [chosenWriter, hf]
  split_ifs with h h' h'
  · rw [bitstreamWriter26, forBlocks, hcount, Int.toNat_natCast, length_forByteblocks (f := f)]
    · simp [BitstreamWriter.new]
    · intro byteblock bsw
      rw [putExponent26, if_pos rfl, hf, if_pos ⟨by omega, by omega⟩, length_put,
        Int.toNat_natCast]
    · intro byteblock bsw
      simp [putExponent26]
  · omega
  · omega
  · obtain rfl : f = 7 := by omega
    rw [bitstreamWriter, forBlocks, hcount, Int.toNat_natCast, length_forByteblocks (f := 7)]
    · simp [BitstreamWriter.new]
    · intro byteblock bsw
      simp [putExponent]
    · intro byteblock bsw
      simp [putExponent]

end MdBitstream

/-! The bits that are taken -/

namespace MdUnzip47

/-- One block of `mdlist`, which moves the keys on before it reads the exponent. -/
def listRecord (incKey : IncrementKey) (mformat modexponentbase : ℕ) (last : Bool)
    (currblocksize : ℤ) (r : Reader) : BlockRecord Registers × Reader :=
  let (hclblock, nf) := r.hclblock.readBlockHashList r.nf
  let hclblock := hclblock.incrementBlockNum incKey
  let (modexponent, bsr) := readExponent mformat modexponentbase last r.bsr
  let (modulusbytes, nf) := nf.read r.modulusbytes
  let modulusIntRemainder := mpzImport modulusbytes
  ({ hregister := hclblock.hregister, modexponent, modulusIntRemainder,
     blocksize := currblocksize.toNat },
    { hclblock, bsr, modulusbytes, nf })

/-- The two loops read a block alike. -/
theorem listRecord_eq : listRecord = readRecord := rfl

/-- The base of a format below 7. -/
def readBase (mformat : ℕ) (bsr : BitstreamReader) : ℕ × BitstreamReader :=
  if mformat < 7 then bsr.get 7 else (0, bsr)

theorem readTable_eq (memory : Unzip47Memory) (header : Header) (nf : IStream) :
    readTable memory header nf = (do
      let (format, nf) := nf.read [0]
      let mb ← ((({} : MdBitstream).mdInitBitstream header.blocksize header.blockcount
        header.blockremainder).setFormat (ofLE format)).calcBitstreamSize
      if mb.modByteBlockSize < 0 then .error .badArrayLength
      else
        let (modExpBlock, nf) :=
          nf.read (memory.buffers.fetch ⟨.modExpBlock, mb.modByteBlockSize.toNat⟩)
        let (modexponentbase, bsr) := readBase (ofLE format) (BitstreamReader.new modExpBlock)
        .ok (ofLE format, modexponentbase, bsr, nf)) := rfl

section
variable {R : Type} (read : Bool → ℤ → R → BlockRecord Registers × R)
  (blocksize blockremainder : ℤ)

/-- The records, and what is left to read after them. -/
def readBlocks : ℕ → R → List (BlockRecord Registers) × R
  | 0, r => ([], r)
  | left + 1, r =>
    let currblocksize := if left = 0 ∧ blockremainder ≠ blocksize then blockremainder else blocksize
    let (record, r) := read (left = 0) currblocksize r
    let (records, r) := readBlocks left r
    (record :: records, r)

theorem readBlocks_records (left : ℕ) (r : R) :
    (readBlocks read blocksize blockremainder left r).1 =
      readRecords read blocksize blockremainder left r := by
  induction left generalizing r with
  | zero => rfl
  | succ left ih =>
    rw [readBlocks, readRecords]
    dsimp only
    rw [ih]

end

/-- The block loop of `mdlist`, from where the table begins. The block number is an `int`. -/
def mdlistBlocks (incKey : IncrementKey) (mformat : ℕ) (blocksize blockremainder blockcount : ℤ)
    (r : Reader) : Except Trap (List (BlockRecord Registers) × Reader) :=
  let (modexponentbase, bsr) := readBase mformat r.bsr
  if 2 ^ 31 ≤ blockcount then .error .signedOverflow
  else .ok (readBlocks (listRecord incKey mformat modexponentbase) blocksize blockremainder
    blockcount.toNat { r with bsr })

/-- The block loop of `mdunzipfile`, from where the table begins. -/
def mdunzipBlocks (incKey : IncrementKey) (mformat : ℕ) (blocksize blockremainder blockcount : ℤ)
    (r : Reader) : Except Trap (List (BlockRecord Registers) × Reader) :=
  let (modexponentbase, bsr) := readBase mformat r.bsr
  if 2 ^ 31 ≤ blockcount then .error .signedOverflow
  else .ok (readBlocks (readRecord incKey mformat modexponentbase) blocksize blockremainder
    blockcount.toNat { r with bsr })

theorem mdunzipBlocks_overflow (incKey : IncrementKey) (mformat : ℕ)
    (blocksize blockremainder : ℤ) {blockcount : ℤ} (h : 2 ^ 31 ≤ blockcount) (r : Reader)
    (result : List (BlockRecord Registers) × Reader) :
    mdunzipBlocks incKey mformat blocksize blockremainder blockcount r ≠ .ok result := by
  rw [mdunzipBlocks]
  dsimp only
  rw [if_pos h]
  exact nofun

theorem bits_readExponent {f : ℕ} (h2 : 2 ≤ f) (h7 : f ≤ 7) (base : ℕ) (last : Bool)
    (bsr : BitstreamReader) :
    (readExponent f base last bsr).2.bits = bsr.bits.drop (if last then 7 else f) := by
  cases last with
  | true => rfl
  | false =>
    rw [readExponent, if_pos rfl, if_neg Bool.false_ne_true]
    split_ifs with h6 hf7
    · rfl
    · subst hf7
      rfl
    · omega

theorem bits_readBlocks {f : ℕ} (h2 : 2 ≤ f) (h7 : f ≤ 7) (incKey : IncrementKey) (base : ℕ)
    (blocksize blockremainder : ℤ) (m : ℕ) (r : Reader) :
    (readBlocks (readRecord incKey f base) blocksize blockremainder (m + 1) r).2.bsr.bits =
      r.bsr.bits.drop (m * f + 7) := by
  have hrecord (last : Bool) (currblocksize : ℤ) (r : Reader) :
      (readRecord incKey f base last currblocksize r).2.bsr.bits =
        r.bsr.bits.drop (if last then 7 else f) := bits_readExponent h2 h7 base last r.bsr
  induction m generalizing r with
  | zero =>
    rw [readBlocks, Nat.zero_mul, Nat.zero_add]
    exact hrecord true blocksize r
  | succ m ih =>
    rw [readBlocks]
    dsimp only
    rw [ih, hrecord, List.drop_drop]
    congr 1
    simp
    ring

/-- A reader takes `n` bits of whatever table it is given. -/
def Takes (n : ℕ)
    (run : Reader → Except Trap (List (BlockRecord Registers) × Reader)) : Prop :=
  ∀ r, ∃ result, run r = .ok result ∧ result.2.bsr.bits = r.bsr.bits.drop n

/-- Both readers take the base, the blocks before the last and the last. -/
theorem takes_mdunzipBlocks {f m : ℕ} (h2 : 2 ≤ f) (h7 : f ≤ 7) (incKey : IncrementKey)
    (blocksize blockremainder : ℤ) (hcount : m + 1 < 2 ^ 31) :
    Takes ((if f < 7 then 7 else 0) + (m * f + 7))
      (mdunzipBlocks incKey f blocksize blockremainder (m + 1 : ℕ)) := by
  intro r
  have hrun : mdunzipBlocks incKey f blocksize blockremainder (m + 1 : ℕ) r =
      .ok (readBlocks (readRecord incKey f (readBase f r.bsr).1) blocksize blockremainder (m + 1)
        { r with bsr := (readBase f r.bsr).2 }) := by
    rw [mdunzipBlocks]
    dsimp only
    rw [if_neg (by omega), Int.toNat_natCast]
  refine ⟨_, hrun, ?_⟩
  rw [bits_readBlocks h2 h7, readBase]
  split_ifs
  · exact List.drop_drop
  · rw [Nat.zero_add]

end MdUnzip47

namespace MdBitstream

/-- The bits of a table stay in the bytes that the writer and a reader make for
it, and either reader takes as many bits as were put. -/
def StaysInBuffer (mb : MdBitstream) (nf : List UInt8) : Prop :=
  ∃ written read : MdBitstream, mb.calcBitstreamSize = .ok written ∧
    ((({} : MdBitstream).mdInitBitstream mb.blocksize mb.blockcount mb.blockremainder).setFormat
      mb.bitformat).calcBitstreamSize = .ok read ∧
    (written.chosenWriter nf).bits.length ≤ 8 * written.modByteBlockSize ∧
    (written.chosenWriter nf).bits.length ≤ 8 * read.modByteBlockSize ∧
    ∀ incKey,
      MdUnzip47.Takes (written.chosenWriter nf).bits.length
        (MdUnzip47.mdlistBlocks incKey mb.bitformat.toNat mb.blocksize mb.blockremainder
          mb.blockcount) ∧
      MdUnzip47.Takes (written.chosenWriter nf).bits.length
        (MdUnzip47.mdunzipBlocks incKey mb.bitformat.toNat mb.blocksize mb.blockremainder
          mb.blockcount)

theorem staysInBuffer_of_lt {mb : MdBitstream} {f m : ℕ} (hf : mb.bitformat = f) (h2 : 2 ≤ f)
    (h7 : f ≤ 7) (hcount : mb.blockcount = (m + 1 : ℕ)) (hlt : m + 1 < 2 ^ 31)
    (nf : List UInt8) : mb.StaysInBuffer nf := by
  have hbits := tableBitSize_lt hlt h7
  have hwritten : mb.calcBitstreamSize =
      .ok { mb with modByteBlockSize := tableBytes f (m + 1) } := by
    rw [calcBitstreamSize_eq hcount hf, if_pos hbits]
  have hread : ((({} : MdBitstream).mdInitBitstream mb.blocksize mb.blockcount
      mb.blockremainder).setFormat mb.bitformat).calcBitstreamSize =
        .ok { (({} : MdBitstream).mdInitBitstream mb.blocksize mb.blockcount
          mb.blockremainder).setFormat mb.bitformat with
            modByteBlockSize := tableBytes f (m + 1) } := by
    rw [hf, hcount, calcBitstreamSize_setFormat, if_pos hbits]
  have hlength := @length_chosenWriter { mb with modByteBlockSize := tableBytes f (m + 1) }
    f m hf h2 h7 hcount nf
  have hfit : (((if f < 7 then 7 else 0) + (m * f + 7) : ℕ) : ℤ) ≤
      8 * (tableBytes f (m + 1) : ℕ) := by exact_mod_cast bits_le_tableBytes f m
  have htakes (incKey : IncrementKey) := MdUnzip47.takes_mdunzipBlocks h2 h7 incKey mb.blocksize
    mb.blockremainder hlt
  refine ⟨_, _, hwritten, hread, ?_, ?_, fun incKey => ⟨?_, ?_⟩⟩
  · rwa [hlength]
  · rwa [hlength]
  · rw [hlength, hf, hcount, Int.toNat_natCast]
    exact htakes incKey
  · rw [hlength, hf, hcount, Int.toNat_natCast]
    exact htakes incKey

/-- Whatever format is chosen, the table is within its bytes as long as the
readers can count the blocks. -/
theorem staysInBuffer_iff (mb : MdBitstream) (blocksize blockremainder : ℤ) (m : ℕ)
    (nf : List UInt8) :
    ((mb.mdInitBitstream blocksize (m + 1 : ℕ) blockremainder).setDiffFormat).StaysInBuffer nf ↔
      m + 1 < 2 ^ 31 := by
  obtain ⟨f, hf, h2, h7, -⟩ :=
    setDiffFormat_eq (mb.mdInitBitstream blocksize (m + 1 : ℕ) blockremainder)
  rw [hf]
  constructor
  · rintro ⟨written, read, -, -, -, -, htakes⟩
    by_contra hlarge
    let r : MdUnzip47.Reader :=
      { hclblock := { hashlistvt := [], hregister := initialRegisters fun _ => 0, blocknumber := 0 }
        bsr := ⟨[]⟩
        modulusbytes := []
        nf := IStream.ofBytes [] }
    obtain ⟨result, hrun, -⟩ := (htakes .noinc).2 r
    have hoverflow : (2 ^ 31 : ℤ) ≤ (m + 1 : ℕ) := by omega
    exact MdUnzip47.mdunzipBlocks_overflow _ _ _ _ hoverflow r result hrun
  · intro hlt
    exact staysInBuffer_of_lt rfl h2 h7 rfl hlt nf

/-- From 2147483648 blocks on the number of the block leaves the range of `int`. -/
theorem block_number_overflow :
    ¬ ((({} : MdBitstream).mdInitBitstream 1 (2 ^ 31 : ℕ) 1).setDiffFormat).StaysInBuffer
      (List.replicate (2 ^ 31) 0) := by
  rw [show (2 ^ 31 : ℕ) = 2147483647 + 1 by norm_num, staysInBuffer_iff]
  norm_num

end MdBitstream

end Mdencode.Cpp
