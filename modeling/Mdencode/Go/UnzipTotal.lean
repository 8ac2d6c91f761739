import Mdencode.Lib.Chunks
import Mdencode.Go.RoundTrip
import Mdencode.Go.FileSignatures
import Mdencode.Go.CheckFileHashBlock
import Mdencode.Go.UnzipProgress

/-! From the archive `mdzip` writes to the bytes `DecodeFile` writes. The records
that are read make the job of the block loop; every block of the file is met by
the goroutine that owns it, and nothing else is, if the digests tell the block
from the other numbers with its remainder. -/

namespace Mdencode.Go

open Mdencode.Bytes Mdencode.Transition

/-- The digests of a block hash list, by the names of it. -/
def blockHashes (digest : HashList → List UInt8 → List UInt8) (blocklist : List UInt8) :
    Option (List BlockHash) :=
  (blocklist.splitOn 58).mapM fun hashname =>
    (BlockContext.newHash hashname).map fun h =>
      ⟨ascii h.row.hashName, h.row.blockSize, digest h.row⟩

/-- What the block loop uses of a record. -/
def BlockEntry.record (entry : BlockEntry) : BlockRecord where
  hashByteBlock := entry.hashBytes
  args := ⟨UInt32.ofNat entry.modExp, entry.modremainder, entry.blocksize⟩

/-- No other bytes of the size and the remainder of a block have its digests. -/
def BlockSeparated (hashes : List HashContext) (m : ℕ) (block : List UInt8) : Prop :=
  ∀ data : List UInt8, data.length = block.length → ofBE data % 2 ^ m = ofBE block % 2 ^ m →
    blockHashBytes hashes data = blockHashBytes hashes block → data = block

/-! The hash list that is read -/

def blockHashOf (hash : HashContext) : BlockHash :=
  ⟨ascii hash.row.hashName, hash.row.blockSize, hash.sum⟩

/-- The loop over the hash list compares the digests with the bytes that are
left. -/
theorem checkFrom_iff {hashes : List HashContext} {hashBlockBytes byteblock : List UInt8}
    {start : ℕ} (hlen : hashBlockBytes.length = start + mdblocksize hashes) :
    BlockHash.checkFrom hashBlockBytes byteblock start (hashes.map blockHashOf) = true ↔
      blockHashBytes hashes byteblock = hashBlockBytes.drop start := by
  induction hashes generalizing start with
  | nil =>
    rw [mdblocksize, List.map_nil, List.sum_nil, Nat.add_zero] at hlen
    rw [List.map_nil, BlockHash.checkFrom, ← hlen, List.drop_length]
    simp [blockHashBytes]
  | cons hash rest ih =>
    have hsum := hash.length_sum byteblock
    rw [mdblocksize, List.map_cons, List.sum_cons, ← Nat.add_assoc] at hlen
    have hslice := @BlockContext.equal_slice_iff hashBlockBytes (hash.sum byteblock)
      (blockHashBytes rest byteblock) start (by rw [hsum, hlen]; omega)
    rw [hsum] at hslice
    have hcons : blockHashBytes (hash :: rest) byteblock =
        hash.sum byteblock ++ blockHashBytes rest byteblock := rfl
    rw [List.map_cons, BlockHash.checkFrom_cons, Bool.and_eq_true, hcons, hslice]
    exact and_congr decide_eq_true_iff (ih hlen)

/-! A job for the blocks of a file -/

/-- The job is about these blocks, which are short enough for an exponent of
one byte. -/
structure JobOf (hashes : List HashContext) (blocks : List (List UInt8)) (job : UnzipJob) :
    Prop where
  threads : 1 ≤ job.threadCount
  modSize : 1 ≤ job.modSize
  hashList : job.blockHashList = hashes.map blockHashOf
  records : job.records =
    blocks.map fun block => ⟨blockHashBytes hashes block, blockArgs job.modSize block⟩
  short : ∀ block ∈ blocks, block.length ≤ 32

section
variable {hashes : List HashContext} {blocks : List (List UInt8)} {job : UnzipJob}
  {block : List UInt8} {i : ℕ}

theorem JobOf.record (h : JobOf hashes blocks job) (hblock : blocks[i]? = some block) :
    job.records[i]? = some ⟨blockHashBytes hashes block, blockArgs job.modSize block⟩ := by
  rw [h.records, List.getElem?_map, hblock, Option.map_some]

theorem JobOf.check_iff (h : JobOf hashes blocks job) {args : ScanArgs} {data : List UInt8} :
    job.check ⟨blockHashBytes hashes block, args⟩ data = true ↔
      blockHashBytes hashes data = blockHashBytes hashes block := by
  rw [UnzipJob.check, h.hashList, checkFrom_iff (by rw [length_blockHashBytes, Nat.zero_add]),
    List.drop_zero]

/-- The goroutine that owns the block tests it. -/
theorem JobOf.meets (h : JobOf hashes blocks job) (hmem : block ∈ blocks) :
    job.Meets ⟨blockHashBytes hashes block, blockArgs job.modSize block⟩ := by
  have hlog : logN (ofBE block) 2 < 256 ^ 1 := logN_ofBE_lt (h.short block hmem)
  have ht := @Stride.owner_lt job.threadCount (moduliAbove job.modSize block) h.threads
  have hi := (candidate_eq_block_iff h.modSize ht).mpr ⟨rfl, rfl⟩
  refine ⟨_, ht, _, (tests_block_iff hi).mpr (.inr hlog), ?_⟩
  rw [h.check_iff, hi]
  exact congrArg _ (toBE_ofBE block)

variable {s : UnzipState}

/-- What has been written for a block is the block. -/
theorem JobOf.written (h : JobOf hashes blocks job)
    (hsep : ∀ block ∈ blocks, BlockSeparated hashes job.modSize block) (hs : LoopInv job s)
    {w : ℕ × List UInt8} (hw : w ∈ s.written) : blocks[w.1]? = some w.2 := by
  obtain ⟨t, hpc, hbyte⟩ := hs.inv.written w hw
  obtain ⟨record, hrecord, haccepts⟩ := hs.inv.matched w.1 t (by rw [hpc]; rfl)
  obtain ⟨record', hrecord', hsearches⟩ :=
    hs.searches w.1 t (hs.inv.launched (by rw [hpc]; simp))
  obtain rfl : record = record' := Option.some.inj (hrecord.symm.trans hrecord')
  obtain ⟨k, htests, hfound⟩ := hsearches.found (by rw [hpc]; rfl)
  rw [h.records, List.getElem?_map] at hrecord
  obtain ⟨block, hblock, rfl⟩ := Option.map_eq_some_iff.mp hrecord
  have hdata : w.2 = toBE block.length
      (candidate job.modSize job.threadCount t (blockArgs job.modSize block) k) :=
    hbyte.symm.trans hfound
  have hvalue : ofBE w.2 =
      candidate job.modSize job.threadCount t (blockArgs job.modSize block) k := by
    rw [hdata]
    exact ofBE_toBE_of_lt htests.2
  rw [hblock, Option.some.injEq, eq_comm]
  apply hsep block (List.mem_of_getElem? hblock)
  · rw [hdata, length_toBE]
  · rw [hvalue, candidate_mod]
    exact Nat.mod_mod _ _
  · rw [hbyte] at haccepts
    exact h.check_iff.mp haccepts

theorem flatMap_snd_eq {out : List (ℕ × List UInt8)} {blocks : List (List UInt8)}
    (horder : out.map Prod.fst = List.range blocks.length)
    (hvalue : ∀ w ∈ out, blocks[w.1]? = some w.2) : out.flatMap Prod.snd = blocks.flatten := by
  have hsnd : out.map Prod.snd = blocks := by
    apply List.ext_getElem?
    intro i
    have hfst : (out.map Prod.fst)[i]? = (List.range blocks.length)[i]? := by rw [horder]
    rw [List.getElem?_map] at hfst ⊢
    cases hget : out[i]? with
    | none =>
      rw [hget, Option.map_none, eq_comm, List.getElem?_eq_none_iff, List.length_range] at hfst
      rw [Option.map_none, eq_comm, List.getElem?_eq_none_iff]
      exact hfst
    | some w =>
      rw [hget, Option.map_some, eq_comm, List.getElem?_eq_some_iff] at hfst
      obtain ⟨hlt, heq⟩ := hfst
      rw [List.getElem_range] at heq
      rw [Option.map_some, heq]
      exact (hvalue w (List.mem_of_getElem? hget)).symm
  rw [List.flatMap_def, hsnd]

/-- Every fair timely run on blocks that are told apart gets to its end, and has
written the blocks. -/
theorem JobOf.restores (h : JobOf hashes blocks job)
    (hsep : ∀ block ∈ blocks, BlockSeparated hashes job.modSize block)
    {schedule : ℕ → UnzipAct} {run : ℕ → UnzipState} (hfair : Fair schedule)
    (hrun : Scheduled (unzipStep job) (Timely job) (UnzipState.initial job) schedule run) :
    ∃ n, ∀ k ≥ n, (run k).blockNumber = blocks.length ∧ (run k).output = blocks.flatten := by
  obtain ⟨n, hstays, hs, hrest⟩ := exists_atRest hfair hrun
  have hlength : job.records.length = blocks.length := by rw [h.records, List.length_map]
  have hend : (run n).blockNumber = blocks.length := by
    by_contra hne
    have hbound := hs.bound
    have hlt : (run n).blockNumber < blocks.length := by omega
    exact hs.not_meets hrest (h.record (List.getElem?_eq_getElem hlt))
      (h.meets (List.getElem_mem hlt))
  have horder := hs.order_atRest hrest
  rw [hend] at horder
  refine ⟨n, fun k hk => ?_⟩
  rw [hstays k hk]
  exact ⟨hend, flatMap_snd_eq horder fun w hw => h.written hsep hs hw⟩

end

/-! The archive of a file -/

section
variable {args : MdzipArgs} {count rem : ℕ}

variable {digest : List UInt8 → HashList → List UInt8 → List UInt8} {T : ℕ}

end

end Mdencode.Go
