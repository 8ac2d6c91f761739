import Mdencode.Lib.Stride
import Mdencode.Lib.Transition
import Mdencode.Go.FileBlocks

/-! The modulus scan of one goroutine, `ModulusScanFileBytesOrig` and its
`decode`, as a step function: one step for each access to what it shares with
others. The scan owns its `DecodeData`; main writes the stop and match flags of
it, and the block hash bytes of the hash context list. The hash objects of that
list are shared with the goroutines of other blocks. -/

namespace Mdencode.Go

open Mdencode.Bytes Mdencode.Transition

/-- One entry of a block hash list: its name, the size of its digests and its
`Sum` of what has been written. -/
structure BlockHash where
  hashName : List UInt8
  hashBlockSize : ℕ
  sum : List UInt8 → List UInt8

namespace BlockHash

/-- `hc.hashBlockBytes[start:end]`. -/
def slice (h : BlockHash) (hashBlockBytes : List UInt8) (start : ℕ) : List UInt8 :=
  (hashBlockBytes.take (start + h.hashBlockSize)).drop start

/-- The loop of `CheckFileHashBlock` over the rest of the list, for who has the
hash objects to itself. -/
def checkFrom (hashBlockBytes byteblock : List UInt8) : ℕ → List BlockHash → Bool
  | _, [] => true
  | start, h :: rest =>
    if h.sum byteblock = h.slice hashBlockBytes start then
      checkFrom hashBlockBytes byteblock (start + h.hashBlockSize) rest
    else false

end BlockHash

/-- `written` is what has been written to the hash object of a name since its
last `Reset`. -/
structure HashContextList where
  blockHashList : List BlockHash
  hashBlockBytes : List UInt8
  written : List UInt8 → List UInt8

namespace HashContextList

def setBlockHash (hc : HashContextList) (byteblock : List UInt8) : HashContextList :=
  { hc with hashBlockBytes := byteblock }

/-- `h.Reset()`. -/
def reset (hc : HashContextList) (hashName : List UInt8) : HashContextList :=
  { hc with written := Function.update hc.written hashName [] }

/-- `h.Write(byteblock)`. -/
def write (hc : HashContextList) (hashName byteblock : List UInt8) : HashContextList :=
  { hc with written := Function.update hc.written hashName (hc.written hashName ++ byteblock) }

/-- `h.Sum(nil)`. -/
def digest (hc : HashContextList) (h : BlockHash) : List UInt8 := h.sum (hc.written h.hashName)

def checkFileHashBlock (hc : HashContextList) (byteblock : List UInt8) : Bool :=
  BlockHash.checkFrom hc.hashBlockBytes byteblock 0 hc.blockHashList

end HashContextList

structure DecodeData where
  blocksizeInt : ℕ
  modsizeInt : ℕ
  modExp : ℕ
  modulusBigInt : ℕ
  threadNumber : ℕ
  threadCount : ℕ
  modulusThreadCount : ℕ
  modulusStart : ℕ
  byteblock : List UInt8
  matchFound : Bool
  stop : Bool
  deriving DecidableEq

/-- What a `go` statement passes on about the block. -/
structure ScanArgs where
  modSize : UInt32
  modRemainder : ℕ
  blocksize : ℕ
  deriving DecidableEq

/-- What comes next for one position of the hash list: the calls on its hash
object, and then the `Equal` of the digest. -/
inductive HashOp
  | reset
  | write
  | sum
  | equal (digest : List UInt8)
  deriving DecidableEq

/-- Where a goroutine is: `init` before its `go` statement, `start` before its
first statement, `check` in the test of one position of the hash list, and
`notified` after `c.Done()`. -/
inductive Pc
  | init
  | start (args : ScanArgs)
  | copy
  | check (op : HashOp) (position start : ℕ)
  | advance
  | exit
  | setFileBuffer
  | done
  | notified
  | finished
  deriving DecidableEq

/-- A scan object with the locals of its goroutine. -/
structure Scan where
  md : DecodeData
  pc : Pc
  buf : List UInt8
  modceil : ℕ
  deriving DecidableEq

namespace DecodeData

def init (blocksize modsize thread threadCount : ℕ) : DecodeData where
  blocksizeInt := blocksize
  modsizeInt := modsize
  modExp := 0
  modulusBigInt := 0
  threadNumber := thread
  threadCount := threadCount
  modulusThreadCount := 0
  modulusStart := 0
  byteblock := []
  matchFound := false
  stop := false

def stopScan (md : DecodeData) : DecodeData := { md with stop := true }

def resetMatchFound (md : DecodeData) : DecodeData := { md with matchFound := false }

/-- `ModulusScanFileBytesOrig` up to its call of `decode`. -/
def modulusScanFileBytesOrig (md : DecodeData) (args : ScanArgs) : DecodeData :=
  let modulusBigInt := 2 ^ md.modsizeInt
  { md with
    stop := false
    blocksizeInt := args.blocksize
    modulusBigInt
    modExp := args.modSize.toNat
    modulusThreadCount := modulusBigInt * md.threadCount
    modulusStart := args.modRemainder + modulusBigInt * md.threadNumber }

end DecodeData

/-- `Mod` writes its result to `modfloor` too, so that the subtraction is of a
number from itself. -/
def convertFloorBase2 (modfloor modi : ℕ) : ℕ :=
  let mfloor := modfloor
  let modfloor := modfloor % modi
  let modremainder := modfloor
  if modremainder = 0 then mfloor else modfloor - modremainder

/-- `decode` up to its loop. -/
def decode (md : DecodeData) : Scan :=
  let modfloor := 2 ^ md.modExp
  let modremainder := convertFloorBase2 modfloor md.modulusBigInt
  { md := { md with modulusStart := md.modulusStart + modremainder }
    pc := .copy
    buf := List.replicate md.blocksizeInt 0
    modceil := 2 ^ (md.modExp + 1) }

/-- `copy(buf[start:], bytes)`. -/
def copyBytes (buf : List UInt8) (start : ℕ) (bytes : List UInt8) : List UInt8 :=
  buf.take start ++ bytes ++ buf.drop (start + bytes.length)

/-- The candidate's bytes at the end of the buffer, or `none` if they do not fit. -/
def copyModulusStart (buf : List UInt8) (lbuf modulusStart : ℕ) : Option (List UInt8) :=
  let lenmd := byteLen modulusStart
  if lbuf = lenmd then some (copyBytes buf 0 (magBE modulusStart))
  else if lenmd > lbuf then none
  else some (copyBytes buf (lbuf - lenmd) (magBE modulusStart))

/-- Where the test of a position goes on. -/
def HashContextList.afterOp (hc : HashContextList) (h : BlockHash) (position start : ℕ) :
    HashOp → Pc
  | .reset => .check .write position start
  | .write => .check .sum position start
  | .sum => .check (.equal (hc.digest h)) position start
  | .equal digest =>
    if digest = h.slice hc.hashBlockBytes start then
      .check .reset (position + 1) (start + h.hashBlockSize)
    else .advance

/-- The goroutine has made its first step. -/
def Pc.isBegun : Pc → Bool
  | .init | .start _ => false
  | _ => true

/-- The goroutine is at a candidate. -/
def Pc.isSearching : Pc → Bool
  | .copy | .check _ _ _ | .advance => true
  | _ => false

/-- The goroutine has found `md.matchFound` set after its scan. -/
def Pc.seesMatch : Pc → Bool
  | .setFileBuffer | .done | .notified => true
  | _ => false

def Pc.isRunning : Pc → Bool
  | .init | .notified | .finished => false
  | _ => true

namespace Scan

def init (blocksize modsize thread threadCount : ℕ) : Scan where
  md := DecodeData.init blocksize modsize thread threadCount
  pc := .init
  buf := []
  modceil := 0

/-- The `go` statement. -/
def go (scan : Scan) (args : ScanArgs) : Scan := { scan with pc := .start args }

def stopScan (scan : Scan) : Scan := { scan with md := scan.md.stopScan }

def resetMatchFound (scan : Scan) : Scan := { scan with md := scan.md.resetMatchFound }

/-- The hash object that the goroutine is about to reset. -/
def resets (blockHashList : List BlockHash) (scan : Scan) : Option (List UInt8) :=
  match scan.pc with
  | .check .reset position _ => (blockHashList[position]?).map BlockHash.hashName
  | _ => none

/-- The hash object that the goroutine has reset and not read yet. -/
def holds (blockHashList : List BlockHash) (scan : Scan) : Option (List UInt8) :=
  match scan.pc with
  | .check .write position _ | .check .sum position _ =>
    (blockHashList[position]?).map BlockHash.hashName
  | _ => none

/-- What the step does to the hash objects. -/
def hashStep (hc : HashContextList) (scan : Scan) : HashContextList :=
  match scan.pc with
  | .check .reset position _ =>
    match hc.blockHashList[position]? with
    | none => hc
    | some h => hc.reset h.hashName
  | .check .write position _ =>
    match hc.blockHashList[position]? with
    | none => hc
    | some h => hc.write h.hashName scan.buf
  | _ => hc

/-- The next step of the goroutine, with the hash context list as it is then. -/
def step (hc : HashContextList) (scan : Scan) : Scan :=
  match scan.pc with
  | .start args => decode (scan.md.modulusScanFileBytesOrig args)
  | .copy =>
    match copyModulusStart scan.buf scan.md.blocksizeInt scan.md.modulusStart with
    | none => { scan with pc := .exit }
    | some buf => { scan with buf, pc := .check .reset 0 0 }
  | .check op position start =>
    match hc.blockHashList[position]? with
    | none =>
      { scan with md := { scan.md with byteblock := scan.buf, matchFound := true }, pc := .exit }
    | some h => { scan with pc := hc.afterOp h position start op }
  | .advance =>
    let modulusStart := scan.md.modulusStart + scan.md.modulusThreadCount
    let md := { scan.md with modulusStart }
    if scan.modceil < modulusStart then { scan with md, pc := .exit }
    else if md.stop then { scan with md, pc := .exit }
    else { scan with md, pc := .copy }
  | .exit => { scan with pc := if scan.md.matchFound then .setFileBuffer else .finished }
  | .setFileBuffer => { scan with pc := .done }
  | .done => { scan with pc := .notified }
  | .init | .notified | .finished => scan

end Scan

/-! The candidate in the buffer -/

/-- The bytes in front of a number of `lenmd` bytes are zero. -/
def PaddedFor (buf : List UInt8) (v : ℕ) : Prop :=
  buf.take (buf.length - byteLen v) = List.replicate (buf.length - byteLen v) 0

theorem paddedFor_replicate (n v : ℕ) : PaddedFor (List.replicate n 0) v := by
  simp [PaddedFor]

theorem PaddedFor.mono {buf : List UInt8} {v w : ℕ} (h : PaddedFor buf v) (hle : v ≤ w) :
    PaddedFor buf w := by
  have hlen := byteLen_mono hle
  have htake := congrArg (List.take (buf.length - byteLen w)) h
  rw [List.take_take, List.take_replicate] at htake
  rw [PaddedFor]
  rwa [Nat.min_eq_left (by omega)] at htake

/-- The two copies agree: the number ends where the buffer does. -/
theorem copyModulusStart_eq (buf : List UInt8) (v : ℕ) :
    copyModulusStart buf buf.length v =
      if v < 256 ^ buf.length then some (buf.take (buf.length - byteLen v) ++ magBE v)
      else none := by
  have hfits := byteLen_le_iff v buf.length
  unfold copyModulusStart copyBytes
  dsimp only
  by_cases hlt : v < 256 ^ buf.length
  · have hle := hfits.mpr hlt
    rw [if_pos hlt]
    split_ifs with heq hgt
    · simp [heq]
    · omega
    · simp [Nat.sub_add_cancel hle]
  · rw [if_neg hlt, if_neg (by omega), if_pos (by omega)]

theorem copyModulusStart_of_paddedFor {buf : List UInt8} {v : ℕ} (h : PaddedFor buf v) :
    copyModulusStart buf buf.length v =
      if v < 256 ^ buf.length then some (toBE buf.length v) else none := by
  rw [copyModulusStart_eq]
  split_ifs with hlt
  · rw [h, zeros_append_magBE hlt]
  · rfl

/-- A buffer that holds a candidate is padded for every larger one. -/
theorem paddedFor_toBE {n v : ℕ} (h : v < 256 ^ n) : PaddedFor (toBE n v) v := by
  rw [PaddedFor, length_toBE, ← zeros_append_magBE h, List.take_left' (by simp)]

/-! The test of the hash list -/

namespace BlockHash

variable {hashBlockBytes byteblock : List UInt8} {list : List BlockHash}

theorem checkFrom_cons (start : ℕ) (h : BlockHash) (rest : List BlockHash) :
    checkFrom hashBlockBytes byteblock start (h :: rest) =
      (decide (h.sum byteblock = h.slice hashBlockBytes start) &&
        checkFrom hashBlockBytes byteblock (start + h.hashBlockSize) rest) := by
  rw [checkFrom]
  split_ifs with heq <;> simp [heq]

theorem checkFrom_drop {position : ℕ} {h : BlockHash} (hget : list[position]? = some h)
    (start : ℕ) :
    checkFrom hashBlockBytes byteblock start (list.drop position) =
      (decide (h.sum byteblock = h.slice hashBlockBytes start) &&
        checkFrom hashBlockBytes byteblock (start + h.hashBlockSize)
          (list.drop (position + 1))) := by
  obtain ⟨hlt, heq⟩ := List.getElem?_eq_some_iff.mp hget
  rw [List.drop_eq_getElem_cons hlt, heq, checkFrom_cons]

theorem checkFrom_drop_none {position : ℕ} (hget : list[position]? = none) (start : ℕ) :
    checkFrom hashBlockBytes byteblock start (list.drop position) = true := by
  rw [List.drop_eq_nil_of_le (List.getElem?_eq_none_iff.mp hget), checkFrom]

end BlockHash

namespace HashContextList

variable {hc : HashContextList} {h : BlockHash} {position start : ℕ} {op : HashOp}

@[simp] theorem hashBlockBytes_reset (hashName : List UInt8) :
    (hc.reset hashName).hashBlockBytes = hc.hashBlockBytes := rfl

@[simp] theorem hashBlockBytes_write (hashName byteblock : List UInt8) :
    (hc.write hashName byteblock).hashBlockBytes = hc.hashBlockBytes := rfl

/-- The test goes on, or the candidate is given up. -/
theorem afterOp_cases : (∃ op' position' start',
    hc.afterOp h position start op = .check op' position' start') ∨
      hc.afterOp h position start op = .advance := by
  cases op with
  | reset => exact .inl ⟨_, _, _, rfl⟩
  | write => exact .inl ⟨_, _, _, rfl⟩
  | sum => exact .inl ⟨_, _, _, rfl⟩
  | equal digest =>
    rw [afterOp]
    split_ifs
    · exact .inl ⟨_, _, _, rfl⟩
    · exact .inr rfl

end HashContextList

namespace Scan

variable {hc : HashContextList} {scan : Scan}

/-- A goroutine leaves the list and the hash bytes as they are. -/
theorem hashStep_fields : (scan.hashStep hc).blockHashList = hc.blockHashList ∧
    (scan.hashStep hc).hashBlockBytes = hc.hashBlockBytes := by
  unfold hashStep
  split
  · split <;> exact ⟨rfl, rfl⟩
  · split <;> exact ⟨rfl, rfl⟩
  · exact ⟨rfl, rfl⟩

/-- Only the calls of `CheckFileHashBlock` touch the objects. -/
theorem hashStep_eq (hpc : ∀ op position start, scan.pc ≠ .check op position start) :
    scan.hashStep hc = hc := by
  unfold hashStep
  split
  · exact absurd ‹_› (hpc _ _ _)
  · exact absurd ‹_› (hpc _ _ _)
  · rfl

theorem hashStep_written {hashName : List UInt8}
    (hreset : scan.resets hc.blockHashList ≠ some hashName)
    (hhold : scan.holds hc.blockHashList ≠ some hashName) :
    (scan.hashStep hc).written hashName = hc.written hashName := by
  unfold hashStep
  split
  · rename_i position _ hpc
    simp only [resets, hpc] at hreset
    split
    · rfl
    · rename_i h hget
      rw [hget, Option.map_some, ne_eq, Option.some.injEq] at hreset
      exact Function.update_of_ne (Ne.symm hreset) ..
  · rename_i position _ hpc
    simp only [holds, hpc] at hhold
    split
    · rfl
    · rename_i h hget
      rw [hget, Option.map_some, ne_eq, Option.some.injEq] at hhold
      exact Function.update_of_ne (Ne.symm hhold) ..
  · rfl

theorem check_of_holds {list : List BlockHash} (h : scan.holds list ≠ none) :
    ∃ op position start, scan.pc = .check op position start ∧ op ≠ .reset := by
  unfold holds at h
  split at h
  · exact ⟨_, _, _, ‹_›, by simp⟩
  · exact ⟨_, _, _, ‹_›, by simp⟩
  · exact absurd rfl h

/-- Who holds an object after a step has just reset it, or held it before. -/
theorem holds_step {hashName : List UInt8}
    (h : (scan.step hc).holds hc.blockHashList = some hashName) :
    scan.resets hc.blockHashList = some hashName ∨ scan.holds hc.blockHashList = some hashName := by
  cases hpc : scan.pc with
  | check op position start =>
    simp only [step, hpc] at h
    cases hget : hc.blockHashList[position]? with
    | none =>
      rw [hget] at h
      cases h
    | some entry =>
      rw [hget] at h
      cases op with
      | reset =>
        rw [resets, hpc]
        exact .inl h
      | write =>
        rw [holds, hpc]
        exact .inr h
      | sum => cases h
      | equal digest =>
        simp only [HashContextList.afterOp] at h
        split_ifs at h <;> cases h
  | start args => simp [step, hpc, holds, decode] at h
  | copy =>
    simp only [step, hpc] at h
    split at h <;> cases h
  | advance =>
    simp only [step, hpc] at h
    split_ifs at h <;> cases h
  | exit =>
    simp only [step, hpc] at h
    split_ifs at h <;> simp [holds] at h
  | init | setFileBuffer | done | notified | finished => simp [step, hpc, holds] at h

end Scan

end Mdencode.Go
