import Mdencode.Lib.Bits
import Mdencode.Cpp.Common

/-! The exponent table of `mdBitstream.h`. The vendored bit stream is taken at
its word: `put` appends the low bits of a value and `get` takes the next ones,
the most significant first. -/

namespace Mdencode.Cpp

open Mdencode.Bytes Mdencode.Bits

/-- A zeroed buffer of `length` bytes and the bits put into it. -/
structure BitstreamWriter where
  length : ℕ
  bits : List Bool

namespace BitstreamWriter

def new (length : ℕ) : BitstreamWriter := { length, bits := [] }

def put (n : ℕ) (value : ℤ) (bsw : BitstreamWriter) : BitstreamWriter :=
  { bsw with bits := bsw.bits ++ toBits n (value % 2 ^ n).toNat }

def data (bsw : BitstreamWriter) : List UInt8 := pack bsw.length bsw.bits

end BitstreamWriter

/-- The bits that are still to be read. -/
structure BitstreamReader where
  bits : List Bool

namespace BitstreamReader

def new (data : List UInt8) : BitstreamReader := { bits := unpack data }

def get (n : ℕ) (bsr : BitstreamReader) : ℕ × BitstreamReader :=
  (ofBits (bsr.bits.take n), { bits := bsr.bits.drop n })

end BitstreamReader

/-- The passes over a file have one loop; the counter is of the blocks that are
left, and the body is told whether the block is the last. -/
def forByteblocks {σ : Type} (body : Bool → List UInt8 → σ → σ) (blocksize blockremainder : ℕ) :
    ℕ → List UInt8 → σ → σ
  | 0, _, s => s
  | left + 1, nf, s =>
    let currentblocksize := if left = 0 ∧ blockremainder ≠ blocksize then blockremainder
      else blocksize
    forByteblocks body blocksize blockremainder left (nf.drop currentblocksize)
      (body (left = 0) (nf.take currentblocksize) s)

/-- `mdBitstream`. A pointer is what it leads to; nothing has been assigned to
`modExpBlock` at first. -/
structure MdBitstream where
  blocksize : ℤ := 0
  blockcount : ℤ := 0
  blockremainder : ℤ := 0
  bitformat : ℤ := 7
  minExponent : ℤ := 255
  minExponentMinusLastBlock : ℤ := 255
  maxExponent : ℤ := 0
  diffExponent : ℤ := 0
  modExpBlock : Option (List UInt8) := none
  modByteBlockSize : ℤ := 0
  bsr : Option BitstreamReader := none

namespace MdBitstream

variable (mb : MdBitstream)

def mdInitBitstream (blocksize blockcount blockremainder : ℤ) : MdBitstream :=
  { mb with blocksize, blockcount, blockremainder }

def setFormat (bitFormat : ℤ) : MdBitstream := { mb with bitformat := bitFormat }

/-- The differences 8, 16 and 32 fall between the cases. -/
def setDiffFormat : MdBitstream :=
  let bitformat := 7
  let bitformat := if mb.diffExponent ≤ 3 then 2 else bitformat
  let bitformat := if mb.diffExponent > 3 ∧ mb.diffExponent ≤ 7 then 3 else bitformat
  let bitformat := if mb.diffExponent > 8 ∧ mb.diffExponent ≤ 15 then 4 else bitformat
  let bitformat := if mb.diffExponent > 16 ∧ mb.diffExponent ≤ 31 then 5 else bitformat
  let bitformat := if mb.diffExponent > 32 ∧ mb.diffExponent ≤ 63 then 6 else bitformat
  { mb with bitformat }

def calcBitstreamSize : Except Trap MdBitstream := do
  let modBitBlockSize ← int64 (mb.blockcount * mb.bitformat)
  let modBitBlockSize ← if mb.bitformat < 7 then int64 (modBitBlockSize + 14)
    else .ok modBitBlockSize
  let modByteBlockSize := modBitBlockSize.tdiv 8
  let modByteBlockSize := if modBitBlockSize.tmod 8 > 0 then modByteBlockSize + 1
    else modByteBlockSize
  .ok { mb with modByteBlockSize }

/-- The loop of a pass over a file of at least one block. -/
def forBlocks {σ : Type} (body : Bool → List UInt8 → σ → σ) (nf : List UInt8) (s : σ) : σ :=
  forByteblocks body mb.blocksize.toNat mb.blockremainder.toNat mb.blockcount.toNat nf s

/-- One block of `calcMinMaxExponent`. -/
def updateMinMax (last : Bool) (byteblock : List UInt8) (mb : MdBitstream) : MdBitstream :=
  let modexponent : ℤ := calcExponent (mpzImport byteblock)
  let mb := if modexponent < mb.minExponent then { mb with minExponent := modexponent } else mb
  let mb := if modexponent < mb.minExponentMinusLastBlock ∧ last = false then
    { mb with minExponentMinusLastBlock := modexponent } else mb
  if modexponent > mb.maxExponent then { mb with maxExponent := modexponent } else mb

def calcMinMaxExponent (nf : List UInt8) : MdBitstream :=
  let mb := mb.forBlocks updateMinMax nf mb
  let mb := { mb with diffExponent := mb.maxExponent - mb.minExponentMinusLastBlock }
  mb.setDiffFormat

/-- One block of `mdzipModExponentBitstream26`, whose `switch` has a case for
each format from 2 to 6. -/
def putExponent26 (last : Bool) (byteblock : List UInt8) (bsw : BitstreamWriter) :
    BitstreamWriter :=
  let modexponent : ℤ := calcExponent (mpzImport byteblock)
  if last = false then
    let modexponent := modexponent - mb.minExponentMinusLastBlock
    if 2 ≤ mb.bitformat ∧ mb.bitformat ≤ 6 then bsw.put mb.bitformat.toNat modexponent else bsw
  else bsw.put 7 modexponent

def mdzipModExponentBitstream26 (nf : List UInt8) : Except Trap MdBitstream := do
  let mb ← mb.calcBitstreamSize
  let bsw := BitstreamWriter.new mb.modByteBlockSize.toNat
  let bsw := bsw.put 7 mb.minExponentMinusLastBlock
  let bsw := mb.forBlocks mb.putExponent26 nf bsw
  .ok { mb with modExpBlock := some bsw.data, bsr := some (BitstreamReader.new bsw.data) }

/-- One block of `mdzipModExponentBitstream`. -/
def putExponent (_ : Bool) (byteblock : List UInt8) (bsw : BitstreamWriter) : BitstreamWriter :=
  bsw.put 7 (calcExponent (mpzImport byteblock))

/-- The buffer is a local variable with the name of the member. -/
def mdzipModExponentBitstream (nf : List UInt8) : Except Trap MdBitstream := do
  let mb ← mb.calcBitstreamSize
  let bsw := BitstreamWriter.new mb.modByteBlockSize.toNat
  let bsw := mb.forBlocks putExponent nf bsw
  .ok { mb with bsr := some (BitstreamReader.new bsw.data) }

/-- `stray` is the memory that `modExpBlock` leads to when nothing was assigned to it. -/
def writeBitstream (stray : ℕ → UInt8) : List UInt8 :=
  match mb.modExpBlock with
  | some modExpBlock => modExpBlock.take mb.modByteBlockSize.toNat
  | none => (List.range mb.modByteBlockSize.toNat).map stray

end MdBitstream

end Mdencode.Cpp
