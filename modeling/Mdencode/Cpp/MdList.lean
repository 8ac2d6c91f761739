import Mdencode.Cpp.MdUnzip

/-! `mdlist` of `mdUnzip.cpp`, which displays the blocks of an archive. It
reads the header as `mdunzipfile` does, and moves the keys on before it has
read the exponent and the remainder of a block. -/

namespace Mdencode.Cpp

open Mdencode.Bytes

/-- What `displayBlockInfo` is given of a block. -/
structure BlockInfo where
  hclblock : MdHashContextList
  modexponent : ℤ
  modulusInt : ℕ

/-- The loop over the blocks; the first argument counts those that are left. -/
def listBlocks (incKey : IncrementKey) (blocksize : ℤ) : ℕ → UnzipReader → List BlockInfo
  | 0, _ => []
  | left + 1, r =>
    let (hclblock, nf) := r.hclblock.readBlockHashList r.nf
    let hclblock := hclblock.incrementBlockNum incKey
    let (modexponent, nf) := readExponent blocksize r.modexponent nf
    let (modulusbytes, nf) := nf.read r.modulusbytes
    { hclblock, modexponent := intOfBytes modexponent, modulusInt := mpzImport modulusbytes } ::
      listBlocks incKey blocksize left { hclblock, modexponent, modulusbytes, nf }

def mdlist (memory : UnzipMemory) (filename archive : List UInt8) (listfile : Bool) :
    Except Trap (Option (List BlockInfo)) :=
  if listfile = false then .ok none
  else if fileExtension filename ≠ ascii "mdz" ∧ fileExtension filename ≠ ascii "out" then .ok none
  else if archive.length < 48 then .ok none
  else do
    let (header, nf) ← readHeader memory (IStream.ofBytes archive)
    let modsizeBytes := calcModulusBytes header.modsize
    if modsizeBytes < 0 then .error .badArrayLength
    else if 2 ^ 31 ≤ header.blockcount then .error .signedOverflow
    else
      .ok (some (listBlocks (incKeyOf header.mdversion) header.blocksize header.blockcount.toNat
        { hclblock := header.hclblock
          modexponent := intBytes 4 0
          modulusbytes := List.replicate modsizeBytes.toNat 0
          nf }))

theorem mdlist_eq_some {memory : UnzipMemory} {filename archive : List UInt8} {listfile : Bool}
    {listed : List BlockInfo} (h : mdlist memory filename archive listfile = .ok (some listed)) :
    ∃ header nf, readHeader memory (IStream.ofBytes archive) = .ok (header, nf) ∧
      listed = listBlocks (incKeyOf header.mdversion) header.blocksize header.blockcount.toNat
        { hclblock := header.hclblock
          modexponent := intBytes 4 0
          modulusbytes := List.replicate (calcModulusBytes header.modsize).toNat 0
          nf } := by
  unfold mdlist at h
  split_ifs at h with hlist hext hmin
  · cases h
  · cases h
  · cases h
  · cases hread : readHeader memory (IStream.ofBytes archive) with
    | error trap =>
      rw [hread] at h
      cases h
    | ok result =>
      rw [hread, ok_bind] at h
      dsimp only at h
      split_ifs at h
      exact ⟨result.1, result.2, rfl, (Option.some.inj (Except.ok.inj h)).symm⟩

end Mdencode.Cpp
