import Mdencode.Cpp.Common

/-! The scan object of `modscanFile.h` and the mutex of `mdMutex.h`. `decode`
is a program counter over the steps at which another thread can be seen: one
step reads the stop flag, tests one candidate, takes the mutex, or writes
`stopped`. The register struct the candidates are compared under is a
parameter. -/

namespace Mdencode.Cpp

open Mdencode.Bytes

inductive Status
  | searching
  | notfound
  | found
  deriving DecidableEq, Repr

structure MdMutex where
  isMatched : Status
  notFound : ℕ
  matchCount : ℕ
  lastThread : ℕ
  threadCount : ℕ
  deriving DecidableEq

namespace MdMutex

def new (threadCnt : ℕ) : MdMutex :=
  { isMatched := .searching, notFound := 0, matchCount := 0, lastThread := 0,
    threadCount := threadCnt }

def incNotFound (mutex : MdMutex) : MdMutex :=
  let notFound := mutex.notFound + 1
  { mutex with
    notFound
    isMatched := if notFound = mutex.threadCount then .notfound else mutex.isMatched }

def setMatched (mutex : MdMutex) (thread : ℕ) : MdMutex :=
  { mutex with
    isMatched := .found
    lastThread := thread
    matchCount := mutex.matchCount + 1 }

def resetMatched (mutex : MdMutex) : MdMutex :=
  { mutex with isMatched := .searching, lastThread := 0, notFound := 0, matchCount := 0 }

def getIsMatched (mutex : MdMutex) : Status := mutex.isMatched

def getMatchThread (mutex : MdMutex) : ℕ := mutex.lastThread

end MdMutex

/-- `ρ` is the type of the hash registers the object compares candidates under. -/
structure Modscan (ρ : Type) where
  byteblock : List UInt8
  stop : Bool
  stopped : Bool
  exponent : ℕ
  modexponent : ℕ
  blocksize : ℕ
  threadnumber : ℕ
  threadcount : ℕ
  isMatched : Bool
  modremainder : ℕ
  remainder : ℕ
  modulusInt : ℕ
  modulusThreadInt : ℕ
  modulusExpIntFloor : ℕ
  modulusExpIntCeil : ℕ
  blockInt : ℕ
  hcl : ρ

/-- `modremainder` as `convertFloorBase2` leaves it. -/
def convertFloorBase2 (modfloor modint : ℕ) : ℕ :=
  let modremainder := modfloor % modint
  if modremainder = 0 then modfloor else modfloor - modremainder

/-- How one run of `decode` ended; a match carries the buffer that matched. -/
inductive Outcome
  | matched (byteblock : List UInt8)
  | ceiling
  | stopped
  deriving DecidableEq

inductive Pc
  | head
  | test
  | advance
  | setMatched (byteblock : List UInt8)
  | incNotFound
  | setStopped
  | exit (outcome : Outcome)
  | done (outcome : Outcome)
  deriving DecidableEq

/-- One call of `decode` with its local variables. -/
structure Activation where
  pc : Pc
  lineNum : ℕ
  lineCount : ℤ

@[irreducible] def decodeLineCount (threadnumber : ℕ) : ℤ :=
  toInt32 (100000000 + toInt32 (1000000 * toInt32 (threadnumber + 1)))

def Activation.start (threadnumber : ℕ) : Activation :=
  { pc := .head, lineNum := 0, lineCount := decodeLineCount threadnumber }

namespace Modscan

variable {ρ : Type}

/-- The constructor. `setModscan` assigns the other members before they are read. -/
def new (hcl : ρ) : Modscan ρ :=
  { byteblock := [], stop := false, stopped := false, exponent := 0, modexponent := 0,
    blocksize := 0, threadnumber := 0, threadcount := 0, isMatched := false, modremainder := 0,
    remainder := 0, modulusInt := 0, modulusThreadInt := 0, modulusExpIntFloor := 0,
    modulusExpIntCeil := 0, blockInt := 0, hcl }

def setModscan (ms : Modscan ρ) (rem modint exp modexp blocks threadnum threadcnt : ℕ) :
    Modscan ρ :=
  let remainder := ms.remainder + rem
  let modulusInt := ms.modulusInt + modint
  let modulusExpIntFloor := calcModulusInt exp
  let modremainder := convertFloorBase2 modulusExpIntFloor modulusInt
  let modulusThreadInt := (ms.modulusThreadInt + threadnum) * modulusInt
  { ms with
    remainder
    modulusExpIntFloor
    modremainder
    modulusThreadInt
    blockInt := ms.blockInt + remainder + modremainder + modulusThreadInt
    exponent := exp
    modexponent := modexp
    blocksize := blocks
    threadnumber := threadnum
    threadcount := threadcnt
    stop := false
    stopped := false
    modulusExpIntCeil := 2 ^ (exp + 1)
    modulusInt := modulusInt * threadcnt
    -- `new unsigned char[blocksize]`: every byte is written before it is read
    byteblock := List.replicate blocks 0 }

/-- `modulusInt` and `modulusThreadInt` stay as `setModscan` left them. -/
def resetThread (ms : Modscan ρ) (rem modexp blocks : ℕ) : Modscan ρ :=
  let modulusExpIntFloor := calcModulusInt modexp
  let modremainder := convertFloorBase2 modulusExpIntFloor ms.modulusInt
  { ms with
    stop := false
    stopped := false
    exponent := modexp
    modexponent := 1
    byteblock := if blocks < ms.blocksize then List.replicate blocks 0 else ms.byteblock
    blocksize := blocks
    remainder := rem
    modulusExpIntFloor
    modremainder
    modulusExpIntCeil := 2 ^ (modexp + 1)
    blockInt := rem + modremainder + ms.modulusThreadInt }

def stopThread (ms : Modscan ρ) : Modscan ρ := { ms with stop := true }

def isStoppedThread (ms : Modscan ρ) : Bool := ms.stopped

def getModscanByteBlock (ms : Modscan ρ) : List UInt8 := ms.byteblock

/-- The buffer after `blockInt` has been exported and padded. -/
def exportBlock (ms : Modscan ρ) : List UInt8 :=
  let (byteblock, count) := mpzExport ms.blockInt ms.byteblock
  padBlockBytes count ms.blocksize byteblock

/-- One step of `decode`, up to its effect on the mutex. `compare` is
`hcl.compareBlockHashList` on the registers and the first `blocksize` bytes. -/
def decodeStep (compare : ρ → List UInt8 → Bool) (ms : Modscan ρ) (act : Activation) :
    Modscan ρ × Activation :=
  match act.pc with
  | .head => (ms, { act with pc := if ms.stop then .exit .stopped else .test })
  | .test =>
    let ms := { ms with byteblock := ms.exportBlock }
    if compare ms.hcl (ms.byteblock.take ms.blocksize) then
      ({ ms with isMatched := true }, { act with pc := .setMatched ms.byteblock })
    else if act.lineCount < act.lineNum then
      -- the ceiling is looked at only here
      (ms, { act with
        lineNum := 0
        pc := if ms.modulusExpIntCeil < ms.blockInt then .incNotFound else .advance })
    else (ms, { act with pc := .advance })
  | .advance =>
    ({ ms with blockInt := ms.blockInt + ms.modulusInt },
      { act with lineNum := act.lineNum + 1, pc := .head })
  | .setMatched byteblock => (ms, { act with pc := .exit (.matched byteblock) })
  | .incNotFound => (ms, { act with pc := .setStopped })
  | .setStopped => ({ ms with stopped := true }, { act with pc := .exit .ceiling })
  | .exit outcome => ({ ms with stopped := true }, { act with pc := .done outcome })
  | .done _ => (ms, act)

/-- What the step at `pc` does to the mutex. -/
def mutexStep (mutex : MdMutex) (threadnumber : ℕ) : Pc → MdMutex
  | .setMatched _ => mutex.setMatched threadnumber
  | .incNotFound => mutex.incNotFound
  | _ => mutex

end Modscan

/-! Floors -/

theorem convertFloorBase2_eq (modfloor modint : ℕ) :
    convertFloorBase2 modfloor modint = modfloor / modint * modint := by
  have hsplit := Nat.div_add_mod' modfloor modint
  simp only [convertFloorBase2]
  split_ifs <;> omega

/-- With fewer than 2000 threads the sum does not wrap. -/
theorem decodeLineCount_eq {t : ℕ} (ht : t < 2000) :
    decodeLineCount t = (101000000 + 1000000 * t : ℕ) := by
  have hthreads : toInt32 (t + 1) = t + 1 := toInt32_of_range (by omega) (by omega)
  have hproduct : toInt32 (1000000 * (t + 1)) = 1000000 * (t + 1) :=
    toInt32_of_range (by omega) (by omega)
  unfold decodeLineCount
  rw [hthreads, hproduct, toInt32_of_range (by omega) (by omega)]
  omega

/-! The exported buffer -/

/-- What a value leaves in a buffer of `n` bytes: its fixed-width form, or its
leading `n` bytes when it does not fit. -/
def exported (n v : ℕ) : List UInt8 := if v < 256 ^ n then toBE n v else (magBE v).take n

theorem exported_of_lt {n v : ℕ} (h : v < 256 ^ n) : exported n v = toBE n v := if_pos h

@[simp] theorem length_exported (n v : ℕ) : (exported n v).length = n := by
  unfold exported
  split_ifs with h
  · exact length_toBE n v
  · rw [List.length_take, length_magBE, Nat.min_eq_left]
    by_contra hlt
    exact h ((byteLen_le_iff v n).mp (by omega))

namespace Modscan

variable {ρ : Type}

theorem length_exportBlock (ms : Modscan ρ) : ms.exportBlock.length = ms.byteblock.length := by
  rw [exportBlock, length_padBlockBytes, length_mpzExport]

theorem exportBlock_eq {ms : Modscan ρ} (h : ms.byteblock.length = ms.blocksize) :
    ms.exportBlock = exported ms.blocksize ms.blockInt := by
  unfold exported
  split_ifs with hlt
  · rw [← h] at hlt ⊢
    rw [exportBlock, ← h]
    exact padBlockBytes_mpzExport hlt
  · have hlen : ms.blocksize < byteLen ms.blockInt := by
      by_contra hle
      exact hlt ((byteLen_le_iff _ _).mp (by omega))
    change padBlockBytes (byteLen ms.blockInt) _ (_ ++ _) = _
    rw [padBlockBytes_of_le hlen.le, h, List.drop_eq_nil_of_le (by omega), List.append_nil]

/-! What each step keeps -/

variable (compare : ρ → List UInt8 → Bool) (ms : Modscan ρ) (act : Activation)

/-- `decode` writes only the buffer, the candidate and the two result flags. -/
theorem decodeStep_frame :
    ∃ byteblock stopped isMatched blockInt, byteblock.length = ms.byteblock.length ∧
      (ms.decodeStep compare act).1 = { ms with byteblock, stopped, isMatched, blockInt } := by
  unfold decodeStep
  split
  case h_2 =>
    dsimp only
    split_ifs <;> exact ⟨_, _, _, _, length_exportBlock ms, rfl⟩
  all_goals exact ⟨_, _, _, _, rfl, rfl⟩

end Modscan

end Mdencode.Cpp
