import Mdencode.Cpp.ScanCoverage

/-! The block loop of `mdunzipfile` with its scan threads. Main sets the scan
objects up, starts a thread on each, waits for the mutex, writes the buffer of
the last match, and stops each thread in turn. A thread started for one block
may still be running while main is at the next. -/

namespace Mdencode.Cpp

open Mdencode.Bytes Mdencode.Transition

/-- What the archive holds for one block, once read. -/
structure BlockRecord (ρ : Type) where
  hregister : ρ
  modexponent : ℕ
  modulusIntRemainder : ℕ
  blocksize : ℕ

/-- What the block loop works through. Only the last block may be short. -/
structure UnzipJob (ρ : Type) where
  threadcount : ℕ
  modsize : ℕ
  blocksize : ℕ
  registers : ρ
  compareBlockHashList : ρ → List UInt8 → Bool
  records : List (BlockRecord ρ)
  blocksize_eq : ∀ (i : ℕ) (record : BlockRecord ρ), records[i]? = some record →
    i + 1 < records.length → record.blocksize = blocksize
  blocksize_le : ∀ (i : ℕ) (record : BlockRecord ρ), records[i]? = some record →
    record.blocksize ≤ blocksize

inductive MainPc
  | setModscan (tnum : ℕ)
  | startThread (tnum : ℕ)
  | poll
  | checkNotFound
  | getMatchThread
  | writeBlock (threadMatchNumber : ℕ)
  | stopThread (tnum : ℕ)
  | isStopped (tnum : ℕ)
  | resetMatched
  deriving DecidableEq

/-- What one write put in the output file, and for which block and thread. -/
structure Chunk where
  block : ℕ
  thread : ℕ
  bytes : List UInt8
  deriving DecidableEq

/-- `acts (blk, tnum)` is the thread started on object `tnum` for block `blk`. -/
structure UnzipState (ρ : Type) where
  main : MainPc
  blk : ℕ
  mst : ℕ → Modscan ρ
  mutex : MdMutex
  acts : ℕ × ℕ → Option Activation
  out : List Chunk

inductive UnzipAct
  | main
  | thread (blk tnum : ℕ)
  deriving DecidableEq

section
variable {ρ : Type} (job : UnzipJob ρ)

def UnzipState.initial : UnzipState ρ :=
  { main := .setModscan 0, blk := 0, mst := fun _ => Modscan.new job.registers,
    mutex := MdMutex.new job.threadcount, acts := fun _ => none, out := [] }

/-- `setModscan` for the first block, `resetThread` for the others, and the
copy of the block's registers. -/
def prepareThread (blk tnum : ℕ) (record : BlockRecord ρ) (ms : Modscan ρ) : Modscan ρ :=
  let ms :=
    if blk < 1 then
      ms.setModscan record.modulusIntRemainder (calcModulusInt job.modsize) record.modexponent 1
        record.blocksize tnum job.threadcount
    else ms.resetThread record.modulusIntRemainder record.modexponent record.blocksize
  { ms with hcl := record.hregister }

def mainStep (s : UnzipState ρ) (record : BlockRecord ρ) : UnzipState ρ :=
  match s.main with
  | .setModscan tnum =>
    if tnum < job.threadcount then
      { s with
        mst := Function.update s.mst tnum (prepareThread job s.blk tnum record (s.mst tnum))
        main := .setModscan (tnum + 1) }
    else { s with main := .startThread 0 }
  | .startThread tnum =>
    if tnum < job.threadcount then
      { s with
        acts := Function.update s.acts (s.blk, tnum) (some (Activation.start tnum))
        main := .startThread (tnum + 1) }
    else { s with main := .poll }
  | .poll => if s.mutex.getIsMatched = .searching then s else { s with main := .checkNotFound }
  | .checkNotFound =>
    if s.mutex.getIsMatched = .notfound then { s with main := .stopThread 0 }
    else { s with main := .getMatchThread }
  | .getMatchThread => { s with main := .writeBlock s.mutex.getMatchThread }
  | .writeBlock threadMatchNumber =>
    let modbyteblock := (s.mst threadMatchNumber).getModscanByteBlock
    { s with
      out := s.out ++ [⟨s.blk, threadMatchNumber, modbyteblock.take record.blocksize⟩]
      main := .stopThread 0 }
  | .stopThread tnum =>
    if tnum < job.threadcount then
      { s with
        mst := Function.update s.mst tnum (s.mst tnum).stopThread
        main := .isStopped tnum }
    else { s with main := .resetMatched }
  | .isStopped tnum =>
    if (s.mst tnum).isStoppedThread then { s with main := .stopThread (tnum + 1) } else s
  | .resetMatched =>
    { s with mutex := s.mutex.resetMatched, blk := s.blk + 1, main := .setModscan 0 }

def threadStep (s : UnzipState ρ) (blk tnum : ℕ) (act : Activation) : UnzipState ρ :=
  let (ms, act') := (s.mst tnum).decodeStep job.compareBlockHashList act
  { s with
    mst := Function.update s.mst tnum ms
    acts := Function.update s.acts (blk, tnum) (some act')
    mutex := Modscan.mutexStep s.mutex (s.mst tnum).threadnumber act.pc }

def Pc.isDone : Pc → Bool
  | .done _ => true
  | _ => false

/-- Main stops after the last block; a thread stops when its call has returned. -/
def unzipStep (s : UnzipState ρ) : UnzipAct → Option (UnzipState ρ)
  | .main => (job.records[s.blk]?).map (mainStep job s)
  | .thread blk tnum =>
    match s.acts (blk, tnum) with
    | none => none
    | some act => if act.pc.isDone then none else some (threadStep job s blk tnum act)

variable {job} in
/-- A step is one of main's on a block that is left, or one of a call that has not returned. -/
theorem unzipStep_cases {s s' : UnzipState ρ} {a : UnzipAct} (h : unzipStep job s a = some s') :
    (∃ record, a = .main ∧ job.records[s.blk]? = some record ∧ s' = mainStep job s record) ∨
      ∃ blk tnum act, a = .thread blk tnum ∧ s.acts (blk, tnum) = some act ∧
        act.pc.isDone = false ∧ s' = threadStep job s blk tnum act := by
  cases a with
  | main =>
    rw [unzipStep, Option.map_eq_some_iff] at h
    obtain ⟨record, hrecord, rfl⟩ := h
    exact .inl ⟨record, rfl, hrecord, rfl⟩
  | thread blk tnum =>
    rw [unzipStep] at h
    split at h
    · cases h
    · rename_i act hact
      split_ifs at h with hdone
      obtain rfl := Option.some.inj h
      exact .inr ⟨blk, tnum, act, rfl, hact, by simpa using hdone, rfl⟩

/-- The bytes of the output file. -/
def UnzipState.output (s : UnzipState ρ) : List UInt8 := s.out.flatMap Chunk.bytes

end

/-! What a program counter says about its call of `decode` -/

/-- The call has reported the match of `byteblock`. -/
def Pc.hasMatched (byteblock : List UInt8) : Pc → Prop
  | .exit (.matched buf) | .done (.matched buf) => buf = byteblock
  | _ => False

/-- The call has reported that it passed its ceiling. -/
def Pc.passedCeiling : Pc → Bool
  | .setStopped | .exit .ceiling | .done .ceiling => true
  | _ => false

/-- The call has written `stopped` at least once. -/
def Pc.hasStopped : Pc → Bool
  | .exit .ceiling | .done _ => true
  | _ => false

end Mdencode.Cpp
