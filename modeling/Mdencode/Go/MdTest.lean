import Mdencode.Lib.Channel
import Mdencode.Lib.Progress
import Mdencode.Go.ScanSearch

/-! `mdTest.go` and the scan of `modScan.go` that it runs: goroutines look for a
block of which they have the md5 and sha1 signatures, and send what they have
found over a buffered channel that main ranges over and closes. -/

namespace Mdencode.Go

open Mdencode.Bytes Mdencode.Transition Mdencode.Channel

/-- What the goroutines send. A text that reports a match is not "Not found". -/
inductive Response
  | notFound
  | matched (thread : ℕ) (buffer : List UInt8)
  deriving DecidableEq

def Response.isNotFound : Response → Bool
  | .notFound => true
  | .matched _ _ => false

/-- The options of `mdtest`, with the block. For a negative block size the process
has ended before. -/
structure MdTest where
  blocksizeInt : ℕ
  modsizeInt : ℤ
  threadCount : ℤ
  startFlag : ℤ
  endFlag : ℤ
  byteblock : List UInt8
  md5 : List UInt8 → List UInt8
  sha1 : List UInt8 → List UInt8

/-- Where a goroutine of `ModulusScanBytes` is: `loop` before the next candidate
is copied to the buffer. -/
inductive TestPc
  | init
  | start
  | loop (modulusStart : ℕ) (buf : List UInt8)
  | sendMatch (buf : List UInt8)
  | sendNotFound
  | done
  deriving DecidableEq

/-- Where main is: `response` with what it has received. -/
inductive TestMain
  | go (thread : ℕ)
  | receive
  | response (resp : Response)
  | closeFound
  | closeLast
  | returned
  | exited
  deriving DecidableEq

/-- `found` is what has been printed. -/
structure TestState where
  scans : ℕ → TestPc
  c : Chan Response
  main : TestMain
  cl : ℕ
  found : Option (ℕ × List UInt8)
  panicked : Bool

inductive TestAct
  | main
  | goroutine (thread : ℕ)
  deriving DecidableEq

namespace MdTest

variable (fd : MdTest)

def threadStart : ℕ :=
  if 0 < fd.startFlag ∧ fd.startFlag < fd.threadCount then fd.startFlag.toNat else 0

def threadEnd : ℤ :=
  if 0 < fd.endFlag ∧ fd.endFlag < fd.threadCount then fd.endFlag else fd.threadCount

/-- The size of the channel, unless it is negative. -/
def count : ℕ := (fd.threadEnd - fd.threadStart).toNat

/-! The goroutine -/

/-- `Exp` gives 1 for a negative exponent. -/
def modulusBigInt : ℕ := 2 ^ fd.modsizeInt.toNat

def modulusThreadCount : ℕ := fd.modulusBigInt * fd.threadCount.toNat

/-- `modExp` and the remainder. -/
def modExp : ℕ := logN (ofBE fd.byteblock) 2

def modulusBigIntRemainder : ℕ := ofBE fd.byteblock % fd.modulusBigInt

def modceil : ℕ := 2 ^ (fd.modExp + 1)

/-- `ModulusScanBytes` up to the loop of `decode`. -/
def begin (thread : ℕ) : TestPc :=
  let modulusStart := fd.modulusBigIntRemainder + fd.modulusBigInt * thread
  let modremainder := convertFloorBase2 (2 ^ fd.modExp) fd.modulusBigInt
  .loop (modulusStart + modremainder) (List.replicate fd.blocksizeInt 0)

/-- The signatures of a buffer are those of the block. -/
def sameSignatures (buf : List UInt8) : Bool :=
  fd.md5 buf = fd.md5 fd.byteblock ∧ fd.sha1 buf = fd.sha1 fd.byteblock

/-- The end of `decode`, whose buffer is compared with the block. -/
def finish (buf : List UInt8) : TestPc :=
  if buf = fd.byteblock then .sendMatch buf else .sendNotFound

/-- One pass of the loop of `decode`. -/
def pass (modulusStart : ℕ) (buf : List UInt8) : TestPc :=
  match copyModulusStart buf fd.blocksizeInt modulusStart with
  | none => fd.finish buf
  | some buf =>
    if fd.sameSignatures buf then fd.finish buf
    else
      let modulusStart := modulusStart + fd.modulusThreadCount
      if fd.modceil < modulusStart then fd.finish buf
      else .loop modulusStart buf

end MdTest

namespace TestState

def move (s : TestState) (thread : ℕ) (pc : TestPc) : TestState :=
  { s with scans := Function.update s.scans thread pc }

/-- A goroutine sends; `pc` is where it goes on. -/
def sendStep (s : TestState) (thread : ℕ) (resp : Response) (pc : TestPc) : Option TestState :=
  match s.c.send resp with
  | .blocked => none
  | .panic => some { s with panicked := true }
  | .sent c => some { s.move thread pc with c }

def goroutineStep (fd : MdTest) (s : TestState) (thread : ℕ) : Option TestState :=
  match s.scans thread with
  | .init | .done => none
  | .start => some (s.move thread (fd.begin thread))
  | .loop modulusStart buf => some (s.move thread (fd.pass modulusStart buf))
  | .sendMatch buf => s.sendStep thread (.matched thread buf) .sendNotFound
  | .sendNotFound => s.sendStep thread .notFound .done

/-- Main closes the channel and goes on at `main`. -/
def closeStep (s : TestState) (main : TestMain) : Option TestState :=
  match s.c.close with
  | none => some { s with panicked := true }
  | some c => some { s with c, main }

def mainStep (fd : MdTest) (s : TestState) : Option TestState :=
  match s.main with
  | .go thread =>
    if (thread : ℤ) < fd.threadEnd then some { s.move thread .start with main := .go (thread + 1) }
    else some { s with main := .receive }
  | .receive =>
    match s.c.receive with
    | .blocked => none
    | .ended => some { s with main := .returned }
    | .received resp c => some { s with c, main := .response resp }
  | .response (.matched thread buffer) =>
    some { s with found := some (thread, buffer), main := .closeFound }
  | .response .notFound =>
    if s.cl = fd.count then some { s with main := .closeLast }
    else some { s with cl := s.cl + 1, main := .receive }
  | .closeFound => s.closeStep .returned
  | .closeLast => s.closeStep .receive
  | .returned => some { s with main := .exited }
  | .exited => none

/-- The process is gone. -/
def isOver (s : TestState) : Bool := s.panicked || s.main = .exited

def step (fd : MdTest) (s : TestState) (a : TestAct) : Option TestState :=
  if s.isOver then none
  else match a with
    | .main => s.mainStep fd
    | .goroutine thread => s.goroutineStep fd thread

end TestState

/-- What `mddecode` has set up before it starts the goroutines; `make` panics for
a negative size. -/
def MdTest.mddecode (fd : MdTest) : TestState where
  scans := fun _ => .init
  c := .make fd.count
  main := .go fd.threadStart
  cl := 1
  found := none
  panicked := fd.threadEnd < fd.threadStart

/-! What a goroutine finds -/

namespace MdTest

variable (fd : MdTest)

def value (thread i : ℕ) : ℕ :=
  Stride.visit (fd.modulusBigIntRemainder + convertFloorBase2 (2 ^ fd.modExp) fd.modulusBigInt)
    fd.modulusBigInt fd.threadCount.toNat thread i

/-- Goroutine `thread` gets as far as candidate `i`; the first one is not compared
with the ceiling. -/
def Gets (thread i : ℕ) : Prop :=
  (i = 0 ∨ fd.value thread i ≤ fd.modceil) ∧ fd.value thread i < 256 ^ fd.blocksizeInt

/-- The buffer with candidate `i`. -/
def bufferAt (thread i : ℕ) : List UInt8 := toBE fd.blocksizeInt (fd.value thread i)

/-- Goroutine `thread` ends with the block in its buffer. It does so without a
test when its first candidate is too large and the block is all zeros. -/
def Hits (thread : ℕ) : Prop :=
  (∃ i, fd.Gets thread i ∧ fd.bufferAt thread i = fd.byteblock ∧
    ∀ j < i, fd.sameSignatures (fd.bufferAt thread j) = false) ∨
  (256 ^ fd.blocksizeInt ≤ fd.value thread 0 ∧
    List.replicate fd.blocksizeInt 0 = fd.byteblock)

/-- The goroutine is at candidate `i`, and has not found the block before it. -/
structure LoopAt (thread i v : ℕ) (buf : List UInt8) : Prop where
  value : v = fd.value thread i
  inside : i = 0 ∨ v ≤ fd.modceil
  fits : ∀ j < i, fd.value thread j < 256 ^ fd.blocksizeInt
  rejected : ∀ j < i, fd.sameSignatures (fd.bufferAt thread j) = false
  buffer : buf = if i = 0 then List.replicate fd.blocksizeInt 0 else fd.bufferAt thread (i - 1)

variable {fd} {thread i v : ℕ} {buf : List UInt8}

theorem threadEnd_le (fd : MdTest) : fd.threadEnd ≤ fd.threadCount := by
  rw [threadEnd]
  split_ifs with h
  · exact h.2.le
  · exact le_rfl

theorem sameSignatures_byteblock : fd.sameSignatures fd.byteblock = true := by
  simp [sameSignatures]

theorem value_succ (thread i : ℕ) :
    fd.value thread (i + 1) = fd.value thread i + fd.modulusThreadCount := by
  rw [value, value, Stride.visit, Stride.visit, modulusThreadCount]
  ring

theorem value_mono {j : ℕ} (h : i ≤ j) : fd.value thread i ≤ fd.value thread j :=
  Stride.visit_mono h

theorem begin_eq (thread : ℕ) :
    fd.begin thread = .loop (fd.value thread 0) (List.replicate fd.blocksizeInt 0) := by
  rw [begin, value, Stride.visit]
  congr 1
  ring

theorem loopAt_zero (thread : ℕ) :
    fd.LoopAt thread 0 (fd.value thread 0) (List.replicate fd.blocksizeInt 0) where
  value := rfl
  inside := .inl rfl
  fits j hj := absurd hj (Nat.not_lt_zero j)
  rejected j hj := absurd hj (Nat.not_lt_zero j)
  buffer := (if_pos rfl).symm

theorem LoopAt.paddedFor (h : fd.LoopAt thread i v buf) :
    buf.length = fd.blocksizeInt ∧ PaddedFor buf v := by
  rw [h.buffer, h.value]
  split_ifs with hi
  · exact ⟨List.length_replicate, paddedFor_replicate _ _⟩
  · refine ⟨length_toBE _ _, (paddedFor_toBE (h.fits (i - 1) (by omega))).mono ?_⟩
    exact value_mono (by omega)

/-- What a pass does, in terms of the candidate. -/
theorem LoopAt.pass_eq (h : fd.LoopAt thread i v buf) :
    fd.pass v buf =
      if v < 256 ^ fd.blocksizeInt then
        if fd.sameSignatures (fd.bufferAt thread i) then fd.finish (fd.bufferAt thread i)
        else if fd.modceil < fd.value thread (i + 1) then fd.finish (fd.bufferAt thread i)
        else .loop (fd.value thread (i + 1)) (fd.bufferAt thread i)
      else fd.finish buf := by
  obtain ⟨hlen, hpad⟩ := h.paddedFor
  have hcopy := copyModulusStart_of_paddedFor hpad
  rw [hlen] at hcopy
  rw [pass, hcopy, value_succ, bufferAt, ← h.value]
  split_ifs with hfit hsame hceil
  · dsimp only
    rw [if_pos hsame]
  · dsimp only
    rw [if_neg hsame, if_pos hceil]
  · dsimp only
    rw [if_neg hsame, if_neg hceil]
  · rfl

/-- The first candidate with the block's signatures decides. -/
theorem hits_iff_of_same (hfit : fd.value thread i < 256 ^ fd.blocksizeInt)
    (hinside : i = 0 ∨ fd.value thread i ≤ fd.modceil)
    (hrejected : ∀ j < i, fd.sameSignatures (fd.bufferAt thread j) = false)
    (hsame : fd.sameSignatures (fd.bufferAt thread i) = true) :
    fd.Hits thread ↔ fd.bufferAt thread i = fd.byteblock := by
  constructor
  · rintro (⟨k, -, hblock, hbefore⟩ | ⟨hlarge, -⟩)
    · rcases lt_trichotomy k i with hlt | rfl | hlt
      · have := hrejected k hlt
        rw [hblock, sameSignatures_byteblock] at this
        cases this
      · exact hblock
      · rw [hbefore i hlt] at hsame
        cases hsame
    · have := (value_mono (Nat.zero_le i) : fd.value thread 0 ≤ fd.value thread i)
      omega
  · intro hblock
    exact .inl ⟨i, ⟨hinside, hfit⟩, hblock, hrejected⟩

/-- A candidate above the ceiling ends the search. -/
theorem not_hits_of_modceil (hfit : fd.value thread i < 256 ^ fd.blocksizeInt)
    (hrejected : ∀ j ≤ i, fd.sameSignatures (fd.bufferAt thread j) = false)
    (hceil : fd.modceil < fd.value thread (i + 1)) : ¬ fd.Hits thread := by
  rintro (⟨k, ⟨hinside, -⟩, hblock, -⟩ | ⟨hlarge, -⟩)
  · by_cases hk : k ≤ i
    · have := hrejected k hk
      rw [hblock, sameSignatures_byteblock] at this
      cases this
    · have hmono : fd.value thread (i + 1) ≤ fd.value thread k := value_mono (by omega)
      have hinside' : k = 0 ∨ fd.value thread k ≤ fd.modceil := hinside
      omega
  · have := (value_mono (Nat.zero_le i) : fd.value thread 0 ≤ fd.value thread i)
    omega

/-- So does one that the buffer cannot hold, and then the buffer is the last one. -/
theorem LoopAt.hits_iff_of_large (h : fd.LoopAt thread i v buf)
    (hlarge : 256 ^ fd.blocksizeInt ≤ v) : fd.Hits thread ↔ buf = fd.byteblock := by
  have hbuffer := h.buffer
  have hvalue := h.value
  split_ifs at hbuffer with hi
  · subst hi
    constructor
    · rintro (⟨k, ⟨-, hfit⟩, -, -⟩ | ⟨-, hzeros⟩)
      · have := (value_mono (Nat.zero_le k) : fd.value thread 0 ≤ fd.value thread k)
        have hfit' : fd.value thread k < 256 ^ fd.blocksizeInt := hfit
        omega
      · exact hbuffer.trans hzeros
    · intro hblock
      exact .inr ⟨hvalue ▸ hlarge, hbuffer.symm.trans hblock⟩
  · have hreject := h.rejected (i - 1) (by omega)
    rw [← hbuffer] at hreject
    constructor
    · rintro (⟨k, ⟨-, hfit⟩, hblock, -⟩ | ⟨hzero, -⟩)
      · have hk : k < i := by
          by_contra hge
          have := (value_mono (not_lt.mp hge) : fd.value thread i ≤ fd.value thread k)
          have hfit' : fd.value thread k < 256 ^ fd.blocksizeInt := hfit
          omega
        have := h.rejected k hk
        rw [hblock, sameSignatures_byteblock] at this
        cases this
      · have := h.fits 0 (by omega)
        omega
    · intro hblock
      rw [hblock, sameSignatures_byteblock] at hreject
      cases hreject

/-- Where a pass leads. -/
theorem LoopAt.pass (h : fd.LoopAt thread i v buf) :
    (∃ v' buf', fd.pass v buf = .loop v' buf' ∧ fd.LoopAt thread (i + 1) v' buf' ∧
      v' ≤ fd.modceil ∧ v' = v + fd.modulusThreadCount) ∨
    (fd.pass v buf = .sendMatch fd.byteblock ∧ fd.Hits thread) ∨
    (fd.pass v buf = .sendNotFound ∧ ¬ fd.Hits thread) := by
  have hfinish (buf : List UInt8) (hhits : fd.Hits thread ↔ buf = fd.byteblock) :
      (fd.finish buf = .sendMatch fd.byteblock ∧ fd.Hits thread) ∨
        (fd.finish buf = .sendNotFound ∧ ¬ fd.Hits thread) := by
    rw [finish]
    split_ifs with hblock
    · exact .inl ⟨by rw [hblock], hhits.mpr hblock⟩
    · exact .inr ⟨rfl, fun hits => hblock (hhits.mp hits)⟩
  rw [h.pass_eq]
  have hvalue := h.value
  split_ifs with hfit hsame hceil
  · refine .inr (hfinish _ (hits_iff_of_same (hvalue ▸ hfit) (hvalue ▸ h.inside) h.rejected hsame))
  · have hrejected : ∀ j ≤ i, fd.sameSignatures (fd.bufferAt thread j) = false := by
      intro j hj
      rcases hj.lt_or_eq with hlt | rfl
      · exact h.rejected j hlt
      · simpa using hsame
    have hnot := not_hits_of_modceil (hvalue ▸ hfit) hrejected hceil
    refine .inr (hfinish _ (iff_of_false hnot fun hblock => ?_))
    rw [hblock, sameSignatures_byteblock] at hsame
    exact hsame rfl
  · refine .inl ⟨_, _, rfl, ⟨rfl, .inr (not_lt.mp hceil), fun j hj => ?_, fun j hj => ?_, ?_⟩,
      not_lt.mp hceil, by rw [value_succ, hvalue]⟩
    · rcases (Nat.lt_succ_iff.mp hj).lt_or_eq with hlt | rfl
      · exact h.fits j hlt
      · rwa [hvalue] at hfit
    · rcases (Nat.lt_succ_iff.mp hj).lt_or_eq with hlt | rfl
      · exact h.rejected j hlt
      · simpa using hsame
    · rw [if_neg (Nat.succ_ne_zero i), Nat.add_sub_cancel]
  · exact .inr (hfinish _ (h.hits_iff_of_large (not_lt.mp hfit)))

end MdTest

end Mdencode.Go
