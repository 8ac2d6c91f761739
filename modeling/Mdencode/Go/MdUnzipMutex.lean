import Mdencode.Go.UnzipThreads

/-! The whole object of `mdUnzipMutex.go`, of which the block loop needs the
buffer and the match status only. The match list is keyed by a counter and the
thread, and the counter has moved on when a thread's entry is looked up. -/

namespace Mdencode.Go.MdUnzipMutex

/-- A byte slice, or nil. -/
abbrev Slice := Option (List UInt8)

structure Nums where
  matchCount : ℕ
  thread : ℤ
  deriving DecidableEq

/-- A key that is not in the match list has the nil slice. -/
structure FileMutex where
  matchList : Nums → Slice
  blockNumber : ℕ
  lastThread : ℤ
  filebuffer : Slice
  isMatched : Bool
  isRunning : Bool
  matchCount : ℕ

namespace FileMutex

def init : FileMutex where
  matchList := fun _ => none
  blockNumber := 0
  lastThread := 0
  filebuffer := none
  isMatched := false
  isRunning := true
  matchCount := 0

variable (fm : FileMutex)

def getMatchListKey (key : ℤ) : Slice := fm.matchList ⟨fm.matchCount, key⟩

def getFileBuffer : Slice := fm.filebuffer

def getMatchStatus : Bool := fm.isMatched

def stop : FileMutex := { fm with isRunning := false }

def setFileBuffer (threadNumber : ℤ) (data : Slice) : FileMutex :=
  { fm with
    filebuffer := data
    matchList := Function.update fm.matchList ⟨fm.matchCount, threadNumber⟩ data
    lastThread := threadNumber + 1
    matchCount := fm.matchCount + 1
    isMatched := true }

/-- Every field is set again. -/
def resetMutex : FileMutex where
  matchList := fun _ => none
  isMatched := false
  isRunning := true
  filebuffer := some [0]
  blockNumber := 0
  lastThread := 0
  matchCount := 0

end FileMutex

/-- The methods that change the object; each holds the lock. -/
inductive Operation
  | setFileBuffer (threadNumber : ℤ) (data : Slice)
  | resetMutex
  | stop
  deriving DecidableEq

def Operation.apply (fm : FileMutex) : Operation → FileMutex
  | setFileBuffer threadNumber data => fm.setFileBuffer threadNumber data
  | resetMutex => .resetMutex
  | stop => fm.stop

/-- The object after these operations, in this order. -/
def run (operations : List Operation) : FileMutex := operations.foldl Operation.apply .init

/-! What has been stored -/

/-- What an operation does to the stores since the last reset, the latest first. -/
def Operation.record (stores : List (ℤ × Slice)) : Operation → List (ℤ × Slice)
  | setFileBuffer threadNumber data => (threadNumber, data) :: stores
  | resetMutex => []
  | stop => stores

/-- The stores since the last reset, the latest first. -/
def storesOf (operations : List Operation) : List (ℤ × Slice) :=
  operations.foldl Operation.record []

/-- The latest buffer of a thread, and nothing if there is none. -/
def latestBy (thread : ℤ) (stores : List (ℤ × Slice)) : Slice :=
  (stores.find? fun store => store.1 = thread).elim none Prod.snd

/-- Each lookup finds the latest buffer that it asks for. -/
structure Finds (fm : FileMutex) (stores : List (ℤ × Slice)) : Prop where
  matchListKey : ∀ thread, fm.getMatchListKey thread = latestBy thread stores
  fileBuffer : ∀ store ∈ stores.head?, fm.getFileBuffer = store.2
  matchStatus : fm.getMatchStatus = true ↔ stores ≠ []

/-! What holds after every operation -/

/-- The counter is past every key of the match list, and the buffer and the
status are those of the latest store. -/
structure Tracks (fm : FileMutex) (stores : List (ℤ × Slice)) : Prop where
  passed : ∀ nums, fm.matchList nums ≠ none → nums.matchCount < fm.matchCount
  fileBuffer : ∀ store ∈ stores.head?, fm.getFileBuffer = store.2
  matchStatus : fm.getMatchStatus = true ↔ stores ≠ []

section
variable {fm : FileMutex} {stores : List (ℤ × Slice)}

theorem Tracks.init : Tracks .init [] where
  passed nums h := absurd rfl h
  fileBuffer store h := by cases h
  matchStatus := by simp [FileMutex.getMatchStatus, FileMutex.init]

theorem Tracks.apply (h : Tracks fm stores) (operation : Operation) :
    Tracks (operation.apply fm) (operation.record stores) := by
  cases operation with
  | setFileBuffer threadNumber data =>
    constructor
    · intro nums hnums
      change nums.matchCount < fm.matchCount + 1
      rcases eq_or_ne nums ⟨fm.matchCount, threadNumber⟩ with rfl | hne
      · exact Nat.lt_succ_self _
      · change Function.update fm.matchList _ data nums ≠ none at hnums
        rw [Function.update_of_ne hne] at hnums
        exact (h.passed nums hnums).trans (Nat.lt_succ_self _)
    · intro store hstore
      obtain rfl := Option.some.inj hstore
      rfl
    · simp [Operation.apply, Operation.record, FileMutex.setFileBuffer, FileMutex.getMatchStatus]
  | resetMutex =>
    constructor
    · intro nums hnums
      exact absurd rfl hnums
    · intro store hstore
      cases hstore
    · simp [Operation.apply, Operation.record, FileMutex.resetMutex, FileMutex.getMatchStatus]
  | stop => exact ⟨h.passed, h.fileBuffer, h.matchStatus⟩

theorem tracks_run (operations : List Operation) :
    Tracks (run operations) (storesOf operations) := by
  induction operations using List.reverseRecOn with
  | nil => exact .init
  | append_singleton operations operation ih =>
    rw [run, storesOf, List.foldl_append, List.foldl_append]
    exact ih.apply operation

/-- The key that is looked up is one that nothing has been stored under yet. -/
theorem Tracks.getMatchListKey (h : Tracks fm stores) (thread : ℤ) :
    fm.getMatchListKey thread = none := by
  by_contra hne
  exact lt_irrefl _ (h.passed _ hne)

end

/-- The buffer and the status are always right; the entry of a thread is only
while the latest buffer of every thread is nil or missing. -/
theorem finds_iff (operations : List Operation) :
    Finds (run operations) (storesOf operations) ↔
      ∀ thread, latestBy thread (storesOf operations) = none := by
  have htracks := tracks_run operations
  constructor
  · intro hfinds thread
    rw [← hfinds.matchListKey, htracks.getMatchListKey]
  · intro hnone
    exact ⟨fun thread => by rw [hnone, htracks.getMatchListKey], htracks.fileBuffer,
      htracks.matchStatus⟩

/-- One store is enough. -/
theorem stored_buffer_not_found :
    (run [.setFileBuffer 0 (some [7])]).getMatchListKey 0 = none ∧
      ¬ ∀ operations, Finds (run operations) (storesOf operations) := by
  refine ⟨rfl, fun h => ?_⟩
  have hkey := (h [.setFileBuffer 0 (some [7])]).matchListKey 0
  revert hkey
  decide

/-! The object of the block loop is what it sees of this one -/

def FileMutex.seen (fm : FileMutex) : Go.FileMutex :=
  { filebuffer := fm.filebuffer.getD [], isMatched := fm.isMatched }

theorem seen_init : FileMutex.init.seen = Go.FileMutex.init := rfl

theorem seen_setFileBuffer (fm : FileMutex) (threadNumber : ℤ) (data : List UInt8) :
    (fm.setFileBuffer threadNumber (some data)).seen = Go.FileMutex.setFileBuffer data := rfl

theorem seen_resetMutex : FileMutex.resetMutex.seen = Go.FileMutex.resetMutex := rfl

end Mdencode.Go.MdUnzipMutex
