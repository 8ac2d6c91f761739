import Mdencode.Cpp.UnzipInvariant

/-! What a disciplined run of the block loop writes when every record is that
of a block: its digests single the block out, and one thread gets to the block
before its ceiling can stop it. -/

namespace Mdencode.Cpp

open Mdencode.Bytes Mdencode.Transition

section
variable {ρ : Type}

/-- Main has written the current block. -/
def MainPc.hasWritten : MainPc → Bool
  | .stopThread _ | .isStopped _ | .resetMatched => true
  | _ => false

/-- A thread meets the block no later than the check at which a scan that
matches nothing would stop. -/
def MetInTime (m T : ℕ) (pos : BlockPosition) (exponent : ℕ) (block : List UInt8) : Prop :=
  ∃ t < T, ∃ k, scanStart m T t (ofBE block % calcModulusInt m) exponent pos +
      k * (calcModulusInt m * T) = ofBE block ∧
    k ≤ ceilingStop (scanStart m T t (ofBE block % calcModulusInt m) exponent pos)
      (calcModulusInt m * T) (2 ^ (exponent + 1)) (decodeLineCount t)

/-- Some thread tests a candidate that the record's digests accept no later than
at the check at which a scan that matches nothing would stop. -/
def Accepted (job : UnzipJob ρ) (i : ℕ) (record : BlockRecord ρ) : Prop :=
  ∃ t < job.threadcount, ∃ k ≤ ceilingStop (scanStart job.modsize job.threadcount t
      record.modulusIntRemainder record.modexponent (blockPosition i))
      (calcModulusInt job.modsize * job.threadcount) (2 ^ (record.modexponent + 1))
      (decodeLineCount t),
    job.compareBlockHashList record.hregister (exported record.blocksize
      (scanStart job.modsize job.threadcount t record.modulusIntRemainder record.modexponent
        (blockPosition i) + k * (calcModulusInt job.modsize * job.threadcount))) = true

/-- Some thread has this in its buffer no later than at the check at which a scan
that matches nothing would stop. -/
def Tested (m T : ℕ) (pos : BlockPosition) (rem exponent n : ℕ) (data : List UInt8) : Prop :=
  ∃ t < T, ∃ k ≤ ceilingStop (scanStart m T t rem exponent pos) (calcModulusInt m * T)
      (2 ^ (exponent + 1)) (decodeLineCount t),
    data = exported n (scanStart m T t rem exponent pos + k * (calcModulusInt m * T))

theorem Tested.length_eq {m T : ℕ} {pos : BlockPosition} {rem exponent n : ℕ} {data : List UInt8}
    (h : Tested m T pos rem exponent n data) : data.length = n := by
  obtain ⟨t, -, k, -, rfl⟩ := h
  exact length_exported _ _

/-- The record of block `i` leads back to the block. -/
structure Restores (job : UnzipJob ρ) (i : ℕ) (record : BlockRecord ρ) (block : List UInt8) :
    Prop where
  blocksize : record.blocksize = block.length
  remainder : record.modulusIntRemainder = ofBE block % calcModulusInt job.modsize
  accepts : job.compareBlockHashList record.hregister block = true
  rejects : ∀ data, Tested job.modsize job.threadcount (blockPosition i)
    record.modulusIntRemainder record.modexponent record.blocksize data →
      job.compareBlockHashList record.hregister data = true → data = block
  met : MetInTime job.modsize job.threadcount (blockPosition i) record.modexponent block

/-- The records of the job are those of the blocks, one for one. -/
structure Restorable (job : UnzipJob ρ) (blocks : List (List UInt8)) : Prop where
  one_le_modsize : 1 ≤ job.modsize
  length : job.records.length = blocks.length
  restores : ∀ (i : ℕ) (record : BlockRecord ρ) (block : List UInt8),
    job.records[i]? = some record → blocks[i]? = some block → Restores job i record block

/-- The blocks before the current one have been written in order, and the
current one too once main is past its write. -/
structure Restored (job : UnzipJob ρ) (blocks : List (List UInt8)) (s : UnzipState ρ) : Prop where
  inv : UnzipInv job s
  order : s.out.map Chunk.block = List.range (s.blk + if s.main.hasWritten then 1 else 0)
  bytes : ∀ c ∈ s.out, blocks[c.block]? = some c.bytes
  live : s.main.hasWritten = true → s.blk < job.records.length

variable {job : UnzipJob ρ} {blocks : List (List UInt8)} {s s' : UnzipState ρ}
  {record : BlockRecord ρ} {block : List UInt8}

theorem Restorable.exists_block (h : Restorable job blocks) {i : ℕ}
    (hrecord : job.records[i]? = some record) :
    ∃ block, blocks[i]? = some block ∧ Restores job i record block := by
  have hlt := (List.getElem?_eq_some_iff.mp hrecord).1
  rw [h.length] at hlt
  exact ⟨blocks[i], List.getElem?_eq_getElem hlt,
    h.restores i record _ hrecord (List.getElem?_eq_getElem hlt)⟩

/-- The candidates of a thread in the current round. -/
theorem candidate_eq (h : UnzipInv job s) (hrecord : job.records[s.blk]? = some record) {t : ℕ}
    {act : Activation} (hact : s.acts (s.blk, t) = some act) :
    ∃ ms₀ i, ScanAt job.compareBlockHashList ms₀ (decodeLineCount t) i (s.mst t) act ∧
      ms₀.hcl = record.hregister ∧ ms₀.modulusExpIntCeil = 2 ^ (record.modexponent + 1) ∧
      (∀ j, ms₀.candidate j = scanStart job.modsize job.threadcount t record.modulusIntRemainder
        record.modexponent (blockPosition s.blk) +
          j * (calcModulusInt job.modsize * job.threadcount)) ∧
      ∀ j, ms₀.tested j = exported record.blocksize (ms₀.candidate j) := by
  obtain ⟨record', ms₀, i, hrecord', ⟨hprepared, hhcl, -⟩, -, hat⟩ := h.scanAt hact
  obtain rfl : record = record' := Option.some.inj (hrecord.symm.trans hrecord')
  obtain ⟨hstart, hmod, hceil, -, hsize, -⟩ := hprepared.spec
  refine ⟨ms₀, i, hat, hhcl, hceil, fun j => ?_, fun j => ?_⟩
  · rw [Modscan.candidate, hstart, hmod]
  · rw [Modscan.tested, hsize]

/-- The buffer that a call has reported is its current candidate's. -/
theorem ScanAt.matched {compare : ρ → List UInt8 → Bool} {ms₀ ms : Modscan ρ} {lineCount : ℤ}
    {i : ℕ} {act : Activation} {buf : List UInt8} (h : ScanAt compare ms₀ lineCount i ms act)
    (hbuf : act.pc.hasMatched buf) : buf = ms₀.tested i ∧ compare ms₀.hcl buf = true := by
  have hfacts := h.pc
  unfold Pc.hasMatched at hbuf
  split at hbuf
  · rename_i hpc
    rw [hpc] at hfacts
    exact hbuf ▸ ⟨hfacts.1, hfacts.2.2⟩
  · rename_i hpc
    rw [hpc] at hfacts
    exact hbuf ▸ ⟨hfacts.1, hfacts.2.2⟩
  · exact hbuf.elim

/-- A scan that goes on to iteration `i` has not met its stop before. -/
theorem tested_of_matched (hm : 1 ≤ job.modsize) (h : UnzipInv job s)
    (hrecord : job.records[s.blk]? = some record) {t : ℕ} {act : Activation} {buf : List UInt8}
    (hact : s.acts (s.blk, t) = some act) (hbuf : act.pc.hasMatched buf) :
    Tested job.modsize job.threadcount (blockPosition s.blk) record.modulusIntRemainder
      record.modexponent record.blocksize buf ∧
    job.compareBlockHashList record.hregister buf = true := by
  obtain ⟨ms₀, i, hat, hhcl, hceil, hcand, htested⟩ := candidate_eq h hrecord hact
  obtain ⟨heq, haccept⟩ := hat.matched hbuf
  have ht := h.lt_threadcount hact
  refine ⟨⟨t, ht, i, ?_, by rw [heq, htested, hcand]⟩, hhcl ▸ haccept⟩
  by_contra hlt
  obtain ⟨hcheck, hover, -⟩ := ceilingStop_spec (scanStart job.modsize job.threadcount t
    record.modulusIntRemainder record.modexponent (blockPosition s.blk))
    (2 ^ (record.modexponent + 1))
    (Nat.mul_pos (calcModulusInt_pos hm) (Nat.zero_lt_of_lt ht)) (decodeLineCount t)
  have hbelow := (hat.passed _ (Nat.lt_of_not_le hlt)).2 hcheck
  rw [hceil, hcand] at hbelow
  omega

/-- The buffer a thread matched in the current round is the block. -/
theorem matched_eq_block (hm : 1 ≤ job.modsize) (h : UnzipInv job s)
    (hrecord : job.records[s.blk]? = some record) (hblock : Restores job s.blk record block)
    {t : ℕ} {act : Activation} {buf : List UInt8} (hact : s.acts (s.blk, t) = some act)
    (hbuf : act.pc.hasMatched buf) : buf = block := by
  obtain ⟨htested, haccept⟩ := tested_of_matched hm h hrecord hact hbuf
  exact hblock.rejects buf htested haccept

/-- A record with a match has an accepted candidate. -/
theorem accepted_of_matched (hm : 1 ≤ job.modsize) (h : UnzipInv job s)
    (hrecord : job.records[s.blk]? = some record) {t : ℕ} {act : Activation} {buf : List UInt8}
    (hact : s.acts (s.blk, t) = some act) (hbuf : act.pc.hasMatched buf) :
    Accepted job s.blk record ∧ buf.length = record.blocksize := by
  obtain ⟨htested, haccept⟩ := tested_of_matched hm h hrecord hact hbuf
  have hlen := htested.length_eq
  obtain ⟨t', ht', k, hle, rfl⟩ := htested
  exact ⟨⟨t', ht', k, hle, haccept⟩, hlen⟩

theorem Restores.accepted (h : Restores job s.blk record block) : Accepted job s.blk record := by
  obtain ⟨t, ht, k, hmeet, hle⟩ := h.met
  rw [← h.remainder] at hmeet hle
  refine ⟨t, ht, k, hle, ?_⟩
  rw [hmeet, h.blocksize, exported_of_lt (ofBE_lt block), toBE_ofBE]
  exact h.accepts

/-- The thread with an accepted candidate does not stop at its ceiling. -/
theorem exists_not_passedCeiling (hm : 1 ≤ job.modsize) (h : UnzipInv job s)
    (hrecord : job.records[s.blk]? = some record) (haccepted : Accepted job s.blk record) :
    ∃ t < job.threadcount, ∀ act, s.acts (s.blk, t) = some act →
      act.pc.passedCeiling = false := by
  obtain ⟨t, ht, k, hle, haccept⟩ := haccepted
  refine ⟨t, ht, fun act hact => ?_⟩
  obtain ⟨ms₀, i, hat, hhcl, hceil, hcand, htested⟩ := candidate_eq h hrecord hact
  have hreject {j : ℕ} (hj : job.compareBlockHashList ms₀.hcl (ms₀.tested j) = false)
      (hkj : k = j) : False := by
    rw [← hkj, hhcl, htested, hcand, haccept] at hj
    cases hj
  by_contra hpassed
  rw [Bool.not_eq_false] at hpassed
  -- a ceiling stop in iteration `i` means that iterations up to `i` were rejected
  have hfacts : job.compareBlockHashList ms₀.hcl (ms₀.tested i) = false ∧
      ChecksCeiling (decodeLineCount t) i ∧ ms₀.modulusExpIntCeil < ms₀.candidate i := by
    have hfacts := hat.pc
    unfold Pc.passedCeiling at hpassed
    split at hpassed
    · rename_i hpc; rw [hpc] at hfacts; exact hfacts
    · rename_i hpc; rw [hpc] at hfacts; exact hfacts
    · rename_i hpc; rw [hpc] at hfacts; exact hfacts
    · cases hpassed
  obtain ⟨hrejected, hcheck, hover⟩ := hfacts
  rw [hceil, hcand] at hover
  have hstop := (ceilingStop_spec _ _ (Nat.mul_pos (calcModulusInt_pos hm) (by omega))
    (decodeLineCount t)).2.2 i hcheck hover
  rcases Nat.lt_or_ge k i with hlt | hge
  · exact hreject (hat.passed k hlt).1 rfl
  · exact hreject hrejected (by omega)

theorem not_notfound (hm : 1 ≤ job.modsize) (h : UnzipInv job s)
    (hrecord : job.records[s.blk]? = some record) (haccepted : Accepted job s.blk record) :
    s.mutex.isMatched ≠ .notfound := by
  intro hnot
  obtain ⟨t, ht, hpassed⟩ := exists_not_passedCeiling hm h hrecord haccepted
  have hfull : passedThreads job.threadcount (fun t => s.acts (s.blk, t)) =
      Finset.range job.threadcount :=
    Finset.eq_of_subset_of_card_le (Finset.filter_subset _ _) (by
      rw [Finset.card_range, ← h.ledger.notFound, h.ledger.notfound hnot])
  obtain ⟨-, act, hact, htrue⟩ := mem_passedThreads.mp (hfull ▸ Finset.mem_range.mpr ht)
  rw [hpassed act hact] at htrue
  cases htrue

/-- What a step of main does to the output and to its place in the round. -/
theorem mainStep_effect (job : UnzipJob ρ) (s : UnzipState ρ) (record : BlockRecord ρ) :
    ((mainStep job s record).out = s.out ∧ (mainStep job s record).blk = s.blk ∧
      (mainStep job s record).main.hasWritten = s.main.hasWritten) ∨
    (s.main = .checkNotFound ∧ s.mutex.isMatched = .notfound ∧
      mainStep job s record = { s with main := .stopThread 0 }) ∨
    (∃ k, s.main = .writeBlock k ∧ mainStep job s record = { s with
      out := s.out ++ [⟨s.blk, k, (s.mst k).getModscanByteBlock.take record.blocksize⟩]
      main := .stopThread 0 }) ∨
    (s.main = .resetMatched ∧ mainStep job s record =
      { s with mutex := s.mutex.resetMatched, blk := s.blk + 1, main := .setModscan 0 }) := by
  unfold mainStep
  cases hpc : s.main with
  | checkNotFound =>
    dsimp only
    split_ifs with hnot
    · exact .inr (.inl ⟨rfl, hnot, rfl⟩)
    · exact .inl ⟨rfl, rfl, rfl⟩
  | writeBlock k => exact .inr (.inr (.inl ⟨k, rfl, rfl⟩))
  | resetMatched => exact .inr (.inr (.inr ⟨rfl, rfl⟩))
  | setModscan _ =>
    dsimp only
    split_ifs <;> exact .inl ⟨rfl, rfl, rfl⟩
  | startThread _ =>
    dsimp only
    split_ifs <;> exact .inl ⟨rfl, rfl, rfl⟩
  | getMatchThread => exact .inl ⟨rfl, rfl, rfl⟩
  | stopThread _ =>
    dsimp only
    split_ifs <;> exact .inl ⟨rfl, rfl, rfl⟩
  | poll =>
    dsimp only
    split_ifs
    · exact .inl ⟨rfl, rfl, by rw [hpc]⟩
    · exact .inl ⟨rfl, rfl, rfl⟩
  | isStopped _ =>
    dsimp only
    split_ifs
    · exact .inl ⟨rfl, rfl, rfl⟩
    · exact .inl ⟨rfl, rfl, by rw [hpc]⟩

/-- What main writes in a step is what a thread of the round has matched. -/
theorem mem_out_mainStep (h : UnzipInv job s) (hrecord : job.records[s.blk]? = some record)
    {c : Chunk} (hc : c ∈ (mainStep job s record).out) :
    c ∈ s.out ∨ ∃ k act buf, s.acts (s.blk, k) = some act ∧ act.pc.hasMatched buf ∧
      c = ⟨s.blk, k, buf⟩ := by
  obtain ⟨hout, -, -⟩ | ⟨-, -, heq⟩ | ⟨k, hpc, heq⟩ | ⟨-, heq⟩ := mainStep_effect job s record
  · exact .inl (hout ▸ hc)
  · rw [heq] at hc
    exact .inl hc
  · have hmain := h.main
    rw [hpc] at hmain
    obtain ⟨-, act, buf, hact, hbuf⟩ := hmain
    have hbytes : (s.mst k).getModscanByteBlock.take record.blocksize = buf :=
      h.byteblock_eq hrecord hact hbuf
    rw [heq, hbytes] at hc
    rcases List.mem_append.mp hc with hold | hnew
    · exact .inl hold
    · exact .inr ⟨k, act, buf, hact, hbuf, List.mem_singleton.mp hnew⟩
  · rw [heq] at hc
    exact .inl hc

/-- The blocks before the current one have been written in order, and the
current one too once main is past its write. -/
structure InOrder (job : UnzipJob ρ) (s : UnzipState ρ) : Prop where
  order : s.out.map Chunk.block = List.range (s.blk + if s.main.hasWritten then 1 else 0)
  live : s.main.hasWritten = true → s.blk < job.records.length

theorem InOrder.keep (h : InOrder job s) (hout : s'.out = s.out) (hblk : s'.blk = s.blk)
    (hwritten : s'.main.hasWritten = s.main.hasWritten) : InOrder job s' where
  order := by rw [hout, hblk, hwritten]; exact h.order
  live := by rw [hblk, hwritten]; exact h.live

/-- A round that is not given up writes its block. -/
theorem InOrder.mainStep (h : InOrder job s) (record : BlockRecord ρ)
    (hlive : s.blk < job.records.length) (hfound : s.mutex.isMatched ≠ .notfound) :
    InOrder job (mainStep job s record) := by
  have horder := h.order
  obtain ⟨hout, hblk, hwritten⟩ | ⟨-, hnot, -⟩ | ⟨k, hpc, heq⟩ | ⟨hpc, heq⟩ :=
    mainStep_effect job s record
  · exact h.keep hout hblk hwritten
  · exact absurd hnot hfound
  · rw [hpc, if_neg (by simp [MainPc.hasWritten])] at horder
    rw [heq]
    refine ⟨?_, fun _ => hlive⟩
    rw [List.map_append, horder, if_pos (by simp [MainPc.hasWritten]), List.range_succ]
    rfl
  · rw [hpc] at horder
    rw [heq]
    exact ⟨horder, fun hwritten => by cases hwritten⟩

/-- Past the last block every block has been written. -/
theorem InOrder.complete (h : InOrder job s) (hend : s.blk = job.records.length) :
    s.out.map Chunk.block = List.range job.records.length := by
  have hwritten : s.main.hasWritten = false := by
    by_contra htrue
    have := h.live (by simpa using htrue)
    omega
  have horder := h.order
  rwa [hwritten, hend] at horder

theorem Restored.inOrder (h : Restored job blocks s) : InOrder job s := ⟨h.order, h.live⟩

theorem Restored.mainStep (hjob : Restorable job blocks) (h : Restored job blocks s)
    (hrecord : job.records[s.blk]? = some record) (hinv : UnzipInv job (mainStep job s record)) :
    Restored job blocks (mainStep job s record) := by
  obtain ⟨block, hblock, hrestores⟩ := hjob.exists_block hrecord
  obtain ⟨horder, hlive⟩ := h.inOrder.mainStep record
    (List.getElem?_eq_some_iff.mp hrecord).1
    (not_notfound hjob.one_le_modsize h.inv hrecord hrestores.accepted)
  refine ⟨hinv, horder, fun c hc => ?_, hlive⟩
  rcases mem_out_mainStep h.inv hrecord hc with hold | ⟨k, act, buf, hact, hbuf, rfl⟩
  · exact h.bytes c hold
  · rw [matched_eq_block hjob.one_le_modsize h.inv hrecord hrestores hact hbuf, hblock]

theorem Restored.step (hjob : Restorable job blocks) (h : Restored job blocks s) {a : UnzipAct}
    (hok : Disciplined s a) (hstep : unzipStep job s a = some s') : Restored job blocks s' := by
  have hinv := h.inv.step hok hstep
  obtain ⟨record, rfl, hrecord, rfl⟩ | ⟨r, t, act, rfl, -, -, rfl⟩ := unzipStep_cases hstep
  · exact h.mainStep hjob hrecord hinv
  · exact ⟨hinv, h.order, h.bytes, h.live⟩

theorem Restored.of_reach (hjob : Restorable job blocks)
    (h : Reach (unzipStep job) Disciplined (UnzipState.initial job) s) : Restored job blocks s := by
  refine h.invariant ⟨UnzipInv.initial, rfl, by simp [UnzipState.initial], ?_⟩
    fun _ _ _ hs hok hstep => hs.step hjob hok hstep
  intro hwritten
  cases hwritten

/-- What each chunk says of its block, in the order of the blocks. -/
theorem map_chunks_eq {β : Type} {f : Chunk → β} {values : List β} {out : List Chunk}
    (horder : out.map Chunk.block = List.range values.length)
    (hvalues : ∀ c ∈ out, values[c.block]? = some (f c)) : out.map f = values := by
  have hlen : out.length = values.length := by simpa using congrArg List.length horder
  apply List.ext_getElem (by simpa using hlen)
  intro i hi hi'
  have hi'' : i < out.length := by simpa using hi
  have hblock : out[i].block = i := by
    have := List.getElem_of_eq horder (by simpa using hi)
    simpa using this
  have := hvalues out[i] (List.getElem_mem hi'')
  rw [hblock, List.getElem?_eq_getElem hi', Option.some.injEq] at this
  simpa using this.symm

/-- A disciplined run that has worked through all records has written the blocks. -/
theorem output_eq_flatten (hjob : Restorable job blocks)
    (h : Reach (unzipStep job) Disciplined (UnzipState.initial job) s)
    (hend : s.blk = job.records.length) : s.output = blocks.flatten := by
  have hs := Restored.of_reach hjob h
  have horder := hs.inOrder.complete hend
  rw [hjob.length] at horder
  rw [UnzipState.output, List.flatMap_def, map_chunks_eq horder hs.bytes]

end

end Mdencode.Cpp
