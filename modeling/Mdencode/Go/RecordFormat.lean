import Mdencode.Go.MdZipFile
import Mdencode.Go.MdUnzipFile

/-! The bytes `mdzip` writes and what `DecodeFile` reads out of them. The format
object never learns the block size, so every exponent is one byte wide, and the
reader agrees with that only for blocks of at most 32 bytes. -/

namespace Mdencode.Go

open Mdencode.Bytes

/-! Reading what was written -/

/-- What is left of the bytes at an offset. -/
def At (bytes : List UInt8) (start : ℕ) (rest : List UInt8) : Prop :=
  start + rest.length = bytes.length ∧ bytes.drop start = rest

section
variable {bytes field post : List UInt8} {start count width v : ℕ}

theorem At.zero (bytes : List UInt8) : At bytes 0 bytes := ⟨Nat.zero_add _, rfl⟩

theorem At.drop (h : At bytes start (field ++ post)) : At bytes (start + field.length) post := by
  refine ⟨by rw [Nat.add_assoc, ← List.length_append, h.1], ?_⟩
  rw [← List.drop_drop, h.2, List.drop_left]

theorem At.readBytes (h : At bytes start (field ++ post)) (hcount : count = field.length) :
    readBytes bytes start count = some (field, start + count) := by
  have hlen := h.1
  rw [List.length_append] at hlen
  rw [Go.readBytes, if_pos (by omega), h.2, hcount, List.take_left]

theorem At.readUint (h : At bytes start (toBE width v ++ post)) (hv : v < 256 ^ width) :
    readUint width bytes start = some (v, start + width) := by
  rw [Go.readUint, h.readBytes (length_toBE width v).symm, Option.map_some]
  dsimp only
  rw [ofBE_toBE_of_lt hv]

theorem At.drop_toBE (h : At bytes start (toBE width v ++ post)) :
    At bytes (start + width) post := by
  have hdrop := h.drop
  rwa [length_toBE] at hdrop

end

/-! The header -/

theorem lt_pow_eight {v : ℕ} (h : v < 2 ^ 63) : v < 256 ^ 8 := h.trans (by norm_num)

section
variable {bytes rest fileName filePath hashes filelist blocklist keylist : List UInt8}
  {fileSize blockSize modSize : ℕ}

theorem length_headerFields :
    (headerFields fileSize blockSize modSize fileName filePath hashes).length =
    0 + 8 + 8 + 8 + 8 + 8 + 8 + filePath.length + fileName.length + hashes.length := by
  simp only [headerFields, List.flatMap_cons, List.flatMap_nil, List.length_append, length_toBE,
    List.length_nil]

theorem decodeHeader_headerFields
    (h : At bytes 0 (headerFields fileSize blockSize modSize fileName filePath hashes ++ rest))
    (hfile : fileSize < 2 ^ 63) (hblock : blockSize < 2 ^ 63) (hmod : modSize < 2 ^ 63)
    (hname : fileName.length < 2 ^ 63) (hpath : filePath.length < 2 ^ 63)
    (hhashes : hashes.length < 2 ^ 63)
    (hsplit : splitHashList hashes = some (filelist, blocklist, keylist)) :
    decodeHeader bytes =
      some (⟨fileSize, blockSize, modSize, filePath, fileName, hashes, filelist, blocklist,
          keylist⟩,
        (headerFields fileSize blockSize modSize fileName filePath hashes).length) := by
  rw [length_headerFields]
  simp only [headerFields, List.flatMap_cons, List.flatMap_nil, List.append_nil,
    List.append_assoc] at h
  have h₁ := h.drop_toBE
  have h₂ := h₁.drop_toBE
  have h₃ := h₂.drop_toBE
  have h₄ := h₃.drop_toBE
  have h₅ := h₄.drop_toBE
  have h₆ := h₅.drop_toBE
  have h₇ := h₆.drop
  have h₈ := h₇.drop
  simp only [decodeHeader, Option.bind_eq_bind, Option.pure_def, Option.bind_some,
    h.readUint (lt_pow_eight hfile), h₁.readUint (lt_pow_eight hblock),
    h₂.readUint (lt_pow_eight hmod), h₃.readUint (lt_pow_eight hname),
    h₄.readUint (lt_pow_eight hpath), h₅.readUint (lt_pow_eight hhashes),
    h₆.readBytes rfl, h₇.readBytes rfl, h₈.readBytes rfl, hsplit]

end

/-! The file signatures -/

theorem length_fileSignatures (hashes : List HashContext) (file : List UInt8) :
    (FileData.fileSignatures hashes file).map List.length =
      hashes.map fun hash => hash.row.blockSize := by
  induction hashes generalizing file with
  | nil => rfl
  | cons hash rest ih =>
    rw [FileData.fileSignatures, List.map_cons, List.map_cons, ih, hash.length_sum]

theorem decodeFileHashes_eq {bytes rest : List UInt8} {start : ℕ} {sigs : List (List UInt8)}
    (h : At bytes start (sigs.flatten ++ rest)) :
    decodeFileHashes bytes (sigs.map List.length) start =
      some (sigs, start + sigs.flatten.length) := by
  induction sigs generalizing start with
  | nil => rfl
  | cons sig sigs ih =>
    rw [List.flatten_cons, List.append_assoc] at h
    simp only [List.map_cons, decodeFileHashes, Option.bind_eq_bind, Option.pure_def,
      h.readBytes rfl, Option.bind_some, ih h.drop, List.flatten_cons, List.length_append,
      Nat.add_assoc]

/-! The widths -/

theorem two_pow_le_modByteSize (m : ℕ) : 2 ^ m ≤ 256 ^ modByteSize m := by
  have h256 : (256 : ℕ) ^ modByteSize m = 2 ^ (8 * modByteSize m) := by rw [pow_mul]; norm_num
  rw [h256]
  apply Nat.pow_le_pow_right two_pos
  unfold modByteSize
  split_ifs <;> omega

theorem padBlock_eq {m rem : ℕ} (h : rem < 2 ^ m) :
    MdFormat.padBlock m rem = some (toBE (modByteSize m) rem) := by
  have hlt := h.trans_le (two_pow_le_modByteSize m)
  rw [MdFormat.padBlock, if_pos ((byteLen_le_iff _ _).mpr hlt), zeros_append_magBE hlt]

/-- The exponent of a block of at most 32 bytes fits in one byte. -/
theorem logN_ofBE_lt {block : List UInt8} (h : block.length ≤ 32) : logN (ofBE block) 2 < 256 := by
  rw [logN_two]
  rcases Nat.eq_zero_or_pos (ofBE block) with hzero | hpos
  · rw [hzero]
    decide
  · rw [Nat.log2_lt hpos.ne']
    calc
      ofBE block < 256 ^ block.length := ofBE_lt block
      _ ≤ 256 ^ 32 := Nat.pow_le_pow_right (by norm_num) h
      _ = 2 ^ 256 := by norm_num

/-! The blocks of a file and their records -/

/-- Block `k` of a file in blocks of `B` bytes. -/
def fileBlock (file : List UInt8) (B k : ℕ) : List UInt8 := (file.drop (k * B)).take B

def blockHashBytes (hashes : List HashContext) (block : List UInt8) : List UInt8 :=
  (hashes.map fun hash => hash.sum block).flatten

def mdblocksize (hashes : List HashContext) : ℕ := (hashes.map fun hash => hash.row.blockSize).sum

theorem length_blockHashBytes (hashes : List HashContext) (block : List UInt8) :
    (blockHashBytes hashes block).length = mdblocksize hashes := by
  rw [blockHashBytes, mdblocksize, List.length_flatten, List.map_map]
  congr 1
  exact List.map_congr_left fun hash _ => hash.length_sum block

/-- What the record of a block says, when it ends at `offset`. -/
def entryOf (hashes : List HashContext) (m : ℕ) (block : List UInt8) (offset : ℕ) : BlockEntry where
  hashBytes := blockHashBytes hashes block
  modExp := logN (ofBE block) 2
  modremainder := ofBE block % 2 ^ m
  blocksize := block.length
  offset

/-- The bytes of a record as the format object writes it. -/
def recordBytes (m : ℕ) (e : BlockEntry) : List UInt8 :=
  e.hashBytes ++ MdFormat.exponentBytes 0 e.modExp ++ toBE (modByteSize m) e.modremainder

theorem exponentBytes_zero (modExp : ℕ) : MdFormat.exponentBytes 0 modExp = toBE 1 modExp := by
  simp [MdFormat.exponentBytes, toBE]

def recordSize (hashes : List HashContext) (m : ℕ) : ℕ := mdblocksize hashes + 1 + modByteSize m

theorem length_recordBytes (hashes : List HashContext) (m : ℕ) (block : List UInt8) (offset : ℕ) :
    (recordBytes m (entryOf hashes m block offset)).length = recordSize hashes m := by
  simp only [recordBytes, entryOf, exponentBytes_zero, List.length_append, length_blockHashBytes,
    length_toBE, recordSize]

/-- The entry of block `k` when the records start at `start`. -/
def entryAt (hashes : List HashContext) (m : ℕ) (file : List UInt8) (B start k : ℕ) : BlockEntry :=
  entryOf hashes m (fileBlock file B k) (start + (k + 1) * recordSize hashes m)

/-- How the size of a file splits into full blocks and a last one. -/
structure Splits (size B count rem : ℕ) : Prop where
  count_pos : 0 < count
  rem_pos : 0 < rem
  rem_le : rem ≤ B
  size_eq : size = (count - 1) * B + rem

theorem calculateFileBlocks_splits {size B : ℕ} (hB : 0 < B) (hsize : 0 < size) :
    ∃ count rem, calculateFileBlocks size B = some (count, rem) ∧ Splits size B count rem := by
  have hsplit := Nat.div_add_mod size B
  have hlt := Nat.mod_lt size hB
  unfold calculateFileBlocks
  rw [if_neg hB.ne']
  split_ifs with hmod
  · have hquot : 0 < size / B := by
      rcases Nat.eq_zero_or_pos (size / B) with hzero | hpos
      · rw [hzero, Nat.mul_zero] at hsplit
        omega
      · exact hpos
    refine ⟨_, _, rfl, hquot, hB, le_rfl, ?_⟩
    have hpred : (size / B - 1) * B + B = size / B * B := by
      rw [← Nat.succ_mul, Nat.succ_eq_add_one, Nat.sub_add_cancel hquot]
    rw [hpred, Nat.mul_comm]
    omega
  · refine ⟨_, _, rfl, Nat.succ_pos _, Nat.pos_of_ne_zero hmod, hlt.le, ?_⟩
    rw [Nat.add_sub_cancel, Nat.mul_comm]
    exact hsplit.symm

section
variable {file : List UInt8} {B count rem k : ℕ}

theorem Splits.length_fileBlock (h : Splits file.length B count rem) (hk : k < count) :
    (fileBlock file B k).length = if k + 1 ≠ count then B else rem := by
  have hsize := h.size_eq
  have hrem := h.rem_le
  rw [fileBlock, List.length_take, List.length_drop]
  split_ifs with hlast
  · have hle : (k + 1) * B ≤ (count - 1) * B := Nat.mul_le_mul_right B (by omega)
    rw [Nat.succ_mul] at hle
    have := h.rem_pos
    omega
  · obtain rfl : count = k + 1 := by omega
    rw [Nat.add_sub_cancel] at hsize
    omega

theorem Splits.fileBlock_le (h : Splits file.length B count rem) (hk : k < count) :
    (fileBlock file B k).length ≤ B := by
  rw [h.length_fileBlock hk]
  split_ifs
  · exact le_rfl
  · exact h.rem_le

theorem Splits.drop_eq_nil (h : Splits file.length B count rem) : file.drop (count * B) = [] := by
  rw [List.drop_eq_nil_iff, h.size_eq]
  obtain ⟨n, hn⟩ : ∃ n, count = n + 1 := ⟨count - 1, by have := h.count_pos; omega⟩
  rw [hn, Nat.add_sub_cancel, Nat.succ_mul]
  exact Nat.add_le_add_left h.rem_le _

theorem Splits.drop_ne_nil (h : Splits file.length B count rem) (hk : k < count) :
    file.drop (k * B) ≠ [] := by
  have hle : k * B ≤ (count - 1) * B := Nat.mul_le_mul_right B (by omega)
  have hsize := h.size_eq
  have hrem := h.rem_pos
  rw [Ne, List.drop_eq_nil_iff]
  omega

end

/-! What the encoder writes -/

theorem encodeFileBlock_eq {l : FileData} {m : ℕ} (hblock : l.mdfmt.blockSize = 0)
    (hmod : l.mdfmt.modSize = m) (block : List UInt8) {offset : ℕ}
    (hoffset : offset = l.mdfmt.file.length + recordSize l.blockHashList m) :
    l.encodeFileBlock (2 ^ m) block = some { l with
      mdfmt := l.mdfmt.write (recordBytes m (entryOf l.blockHashList m block offset))
      entries := l.entries ++ [entryOf l.blockHashList m block offset] } := by
  have hrem : ofBE block % 2 ^ m < 2 ^ m := Nat.mod_lt _ (by positivity)
  have hlen := length_recordBytes l.blockHashList m block offset
  rw [FileData.encodeFileBlock]
  dsimp only [calculateFileBlockModulus]
  rw [MdFormat.encodeBlock, hmod, padBlock_eq hrem, hblock, Option.map_some, Option.map_some,
    MdFormat.write, List.length_append]
  rw [recordBytes, entryOf] at hlen
  dsimp only at hlen
  rw [← blockHashBytes, hlen, ← hoffset]
  rfl

section
variable {hashes : List HashContext} {file : List UInt8} {m B count rem start : ℕ}

/-- The buffer of one read of the loop, cut to the block. -/
theorem readBuffer_eq (hsplit : Splits file.length B count rem) (hB : B ≤ maxRW) {k : ℕ}
    (hk : k < count) {filebuffer : List UInt8} (hbuf : filebuffer.length = B) :
    (if k + 1 = count then (fileRead filebuffer (file.drop (k * B))).take rem
      else fileRead filebuffer (file.drop (k * B))) = fileBlock file B k := by
  have hlen := hsplit.length_fileBlock hk
  have hread : fileRead filebuffer (file.drop (k * B)) =
      fileBlock file B k ++ filebuffer.drop (fileBlock file B k).length := by
    rw [fileRead_eq (by rw [hbuf]; exact hB), hbuf, fileBlock]
  rw [hread]
  split_ifs with hlast
  · rw [if_neg (by simpa using hlast)] at hlen
    rw [← hlen, List.take_left]
  · rw [if_pos hlast] at hlen
    rw [hlen, ← hbuf, List.drop_length, List.append_nil]

/-- The entries from block `k` on. -/
def entriesFrom (hashes : List HashContext) (m : ℕ) (file : List UInt8) (B start k left : ℕ) :
    List BlockEntry := (List.range' k left).map (entryAt hashes m file B start)

theorem encodeFileBlocks_eq (hsplit : Splits file.length B count rem) (hB : B ≤ maxRW) {left : ℕ} :
    ∀ {k fuel : ℕ} {filebuffer : List UInt8} {l : FileData}, k + left = count → left < fuel →
      (0 < left → filebuffer.length = B) → l.blockHashList = hashes → l.mdfmt.blockSize = 0 →
      l.mdfmt.modSize = m → l.blockCount = count → l.blockRemainder = rem →
      l.mdfmt.file.length = start + k * recordSize hashes m →
      FileData.encodeFileBlocks (2 ^ m) fuel (k + 1) (file.drop (k * B)) filebuffer l =
        some { l with
        mdfmt := l.mdfmt.write ((entriesFrom hashes m file B start k left).flatMap (recordBytes m))
        entries := l.entries ++ entriesFrom hashes m file B start k left } := by
  induction left with
  | zero =>
    intro k fuel filebuffer l hk hfuel hbuf hhash hbs hms hcount hrem hfile
    obtain ⟨fuel, rfl⟩ : ∃ n, fuel = n + 1 := ⟨fuel - 1, by omega⟩
    obtain rfl : k = count := by omega
    rw [FileData.encodeFileBlocks, if_pos hsplit.drop_eq_nil]
    simp [entriesFrom, MdFormat.write]
  | succ left ih =>
    intro k fuel filebuffer l hk hfuel hbuf hhash hbs hms hcount hrem hfile
    subst hhash hcount hrem
    obtain ⟨fuel, rfl⟩ : ∃ n, fuel = n + 1 := ⟨fuel - 1, by omega⟩
    have hread := readBuffer_eq hsplit hB (show k < l.blockCount by omega) (hbuf (Nat.succ_pos _))
    have hoffset : start + (k + 1) * recordSize l.blockHashList m =
        l.mdfmt.file.length + recordSize l.blockHashList m := by
      rw [hfile]
      ring
    have hbuf' : 0 < left → (fileBlock file B k).length = B := by
      intro hpos
      rw [hsplit.length_fileBlock (by omega), if_pos (by omega)]
    have hfile' :
        (l.mdfmt.write (recordBytes m (entryAt l.blockHashList m file B start k))).file.length =
        start + (k + 1) * recordSize l.blockHashList m := by
      rw [MdFormat.write, List.length_append, entryAt, length_recordBytes, hfile]
      ring
    have hnext := ih (k := k + 1) (l := { l with
        mdfmt := l.mdfmt.write (recordBytes m (entryAt l.blockHashList m file B start k))
        entries := l.entries ++ [entryAt l.blockHashList m file B start k] })
      (by omega) (Nat.succ_lt_succ_iff.mp hfuel) hbuf' rfl hbs hms rfl rfl hfile'
    rw [FileData.encodeFileBlocks, if_neg (hsplit.drop_ne_nil (by omega))]
    dsimp only
    rw [hread, encodeFileBlock_eq hbs hms _ hoffset, Option.bind_some, hbuf (Nat.succ_pos _),
      Nat.min_eq_left hB, List.drop_drop, ← Nat.succ_mul, ← entryAt]
    apply hnext.trans
    simp [entriesFrom, List.range'_succ, MdFormat.write]

end

end Mdencode.Go
