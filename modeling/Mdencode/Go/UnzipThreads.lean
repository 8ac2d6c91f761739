import Mdencode.Go.ModScanFile

/-! The block loop of `DecodeFile` with its goroutines. For every block main
adds one to the wait group, makes a scan object for each thread, starts a
goroutine on each, waits, writes the buffer of the mutex, and stops the scans.
No goroutine is joined: those of earlier blocks may still be running, and thread
`t` of every block has the same hash objects, those of `hcListArr t`. -/

namespace Mdencode.Go

open Mdencode.Transition

/-- What the archive holds for one block, once read. -/
structure BlockRecord where
  hashByteBlock : List UInt8
  args : ScanArgs

structure UnzipJob where
  threadCount : ℕ
  modSize : ℕ
  blockHashList : List BlockHash
  records : List BlockRecord

structure FileMutex where
  filebuffer : List UInt8
  isMatched : Bool
  deriving DecidableEq

namespace FileMutex

def init : FileMutex := { filebuffer := [], isMatched := false }

def setFileBuffer (data : List UInt8) : FileMutex := { filebuffer := data, isMatched := true }

def resetMutex : FileMutex := { filebuffer := [0], isMatched := false }

end FileMutex

/-- A wait group panics when its counter would become negative. -/
structure WaitGroup where
  counter : ℕ
  panicked : Bool
  deriving DecidableEq

namespace WaitGroup

def add (c : WaitGroup) : WaitGroup := { c with counter := c.counter + 1 }

def done (c : WaitGroup) : WaitGroup :=
  if c.counter = 0 then { c with panicked := true } else { c with counter := c.counter - 1 }

end WaitGroup

inductive MainPc
  | add
  | setBlockHash (threadNum : ℕ)
  | go (threadNum : ℕ)
  | wait
  | getMatchStatus
  | getFileBuffer
  | stopScan (threadNum : ℕ)
  | resetMatchFound (threadNum : ℕ)
  | resetMutex
  deriving DecidableEq

/-- `scans (blockNumber, threadNum)` is the object made for that block and
thread, and `written` what was written for which block. -/
structure UnzipState where
  main : MainPc
  blockNumber : ℕ
  hcListArr : ℕ → HashContextList
  scans : ℕ × ℕ → Scan
  mutex : FileMutex
  c : WaitGroup
  written : List (ℕ × List UInt8)

inductive UnzipAct
  | main
  | goroutine (blockNumber threadNum : ℕ)
  deriving DecidableEq

/-- What a step of a goroutine does to the mutex. -/
def Scan.mutexStep (scan : Scan) (mutex : FileMutex) : FileMutex :=
  match scan.pc with
  | .setFileBuffer => .setFileBuffer scan.md.byteblock
  | _ => mutex

/-- What a step of a goroutine does to the wait group. -/
def Scan.waitGroupStep (scan : Scan) (c : WaitGroup) : WaitGroup :=
  match scan.pc with
  | .done => c.done
  | _ => c

section
variable (job : UnzipJob)

def UnzipState.initial : UnzipState where
  main := .add
  blockNumber := 0
  hcListArr := fun _ =>
    { blockHashList := job.blockHashList, hashBlockBytes := [], written := fun _ => [] }
  scans := fun _ => Scan.init 0 0 0 0
  mutex := FileMutex.init
  c := { counter := 0, panicked := false }
  written := []

/-- The next step of main, with the record of its block. -/
def mainStep (s : UnzipState) (record : BlockRecord) : UnzipState :=
  match s.main with
  | .add =>
    { s with
      c := s.c.add
      scans := fun p =>
        if p.1 = s.blockNumber ∧ p.2 < job.threadCount then
          Scan.init record.args.blocksize job.modSize p.2 job.threadCount
        else s.scans p
      main := .setBlockHash 0 }
  | .setBlockHash threadNum =>
    if threadNum < job.threadCount then
      { s with
        hcListArr := Function.update s.hcListArr threadNum
          ((s.hcListArr threadNum).setBlockHash record.hashByteBlock)
        main := .go threadNum }
    else { s with main := .wait }
  | .go threadNum =>
    { s with
      scans := Function.update s.scans (s.blockNumber, threadNum)
        ((s.scans (s.blockNumber, threadNum)).go record.args)
      main := .setBlockHash (threadNum + 1) }
  | .wait => if s.c.counter = 0 then { s with main := .getMatchStatus } else s
  | .getMatchStatus =>
    { s with main := if s.mutex.isMatched then .getFileBuffer else .stopScan 0 }
  | .getFileBuffer =>
    { s with
      written := s.written ++ [(s.blockNumber, s.mutex.filebuffer)]
      main := .stopScan 0 }
  | .stopScan threadNum =>
    if threadNum < job.threadCount then
      { s with
        scans := Function.update s.scans (s.blockNumber, threadNum)
          (s.scans (s.blockNumber, threadNum)).stopScan
        main := .resetMatchFound threadNum }
    else { s with main := .resetMutex }
  | .resetMatchFound threadNum =>
    { s with
      scans := Function.update s.scans (s.blockNumber, threadNum)
        (s.scans (s.blockNumber, threadNum)).resetMatchFound
      main := .stopScan (threadNum + 1) }
  | .resetMutex =>
    { s with mutex := .resetMutex, blockNumber := s.blockNumber + 1, main := .add }

end

def goroutineStep (s : UnzipState) (blockNumber threadNum : ℕ) : UnzipState :=
  let scan := s.scans (blockNumber, threadNum)
  { s with
    hcListArr := Function.update s.hcListArr threadNum (scan.hashStep (s.hcListArr threadNum))
    scans := Function.update s.scans (blockNumber, threadNum) (scan.step (s.hcListArr threadNum))
    mutex := scan.mutexStep s.mutex
    c := scan.waitGroupStep s.c }

/-- Main stops after the last block, a goroutine when its call has returned,
and all of them at a panic. -/
def unzipStep (job : UnzipJob) (s : UnzipState) : UnzipAct → Option UnzipState
  | .main =>
    if s.c.panicked then none else (job.records[s.blockNumber]?).map (mainStep job s)
  | .goroutine blockNumber threadNum =>
    if s.c.panicked then none
    else if (s.scans (blockNumber, threadNum)).pc.isRunning then
      some (goroutineStep s blockNumber threadNum)
    else none

/-- The bytes of the output file. -/
def UnzipState.output (s : UnzipState) : List UInt8 := s.written.flatMap Prod.snd

/-! What is said of a run -/

/-- Main has called `StopScan` on the scan of that thread of its block. -/
def MainPc.hasStopped (threadNum : ℕ) : MainPc → Prop
  | .stopScan next => threadNum < next
  | .resetMatchFound last => threadNum ≤ last
  | .resetMutex => True
  | _ => False

/-- Main has called `StopScan` on the scan of that block and thread. -/
def UnzipState.stopIssued (job : UnzipJob) (s : UnzipState) (blockNumber threadNum : ℕ) : Prop :=
  threadNum < job.threadCount ∧
    (blockNumber < s.blockNumber ∨ blockNumber = s.blockNumber ∧ s.main.hasStopped threadNum)

/-- How often main has added one for that block. -/
def UnzipState.adds (s : UnzipState) (blockNumber : ℕ) : ℕ :=
  if blockNumber < s.blockNumber ∨ blockNumber = s.blockNumber ∧ s.main ≠ .add then 1 else 0

/-- How many goroutines of that block have called `Done`. -/
def UnzipState.dones (job : UnzipJob) (s : UnzipState) (blockNumber : ℕ) : ℕ :=
  ((List.range job.threadCount).filter fun t => (s.scans (blockNumber, t)).pc = .notified).length

def Pc.isStart : Pc → Bool
  | .start _ => true
  | _ => false

/-- The goroutine does not start on a scan that is already stopped, does not
see a match when another goroutine of its block has seen one, and does not reset
a hash object that the goroutine of another block has reset and not read yet. -/
def Timely (job : UnzipJob) (s : UnzipState) : UnzipAct → Prop
  | .main => True
  | .goroutine blockNumber threadNum =>
    let scan := s.scans (blockNumber, threadNum)
    (scan.pc.isStart = true → scan.md.stop = false) ∧
      (scan.pc = .exit → scan.md.matchFound = true →
        ∀ t < job.threadCount, (s.scans (blockNumber, t)).pc.seesMatch = false) ∧
      ((scan.resets job.blockHashList).isSome = true → ∀ i ≤ s.blockNumber,
        (s.scans (i, threadNum)).holds job.blockHashList ≠ scan.resets job.blockHashList)

instance (job : UnzipJob) (s : UnzipState) : DecidablePred (Timely job s)
  | .main => isTrue trivial
  | .goroutine _ _ => inferInstanceAs (Decidable (_ ∧ _ ∧ _))

end Mdencode.Go
