import Mdencode.Go.ScanSearch
import Mdencode.Go.UnzipThreads

/-! The invariant of the block loop under timely steps. While main launches
and waits, the goroutines of its block test its hash bytes, each with hash
objects that no other goroutine uses in the middle of a test, and the counter of
the wait group says whether one of them has called `Done`. Afterwards one of
them has, and no other of that block sees a match any more. -/

namespace Mdencode.Go

open Mdencode.Transition

variable {job : UnzipJob} {s s' : UnzipState} {hc : HashContextList} {scan : Scan}

/-! One step of a goroutine -/

theorem Scan.step_seesMatch : (scan.step hc).pc.seesMatch = true ↔
    scan.pc.seesMatch = true ∨ scan.pc = .exit ∧ scan.md.matchFound = true := by
  unfold Scan.step
  cases hpc : scan.pc with
  | copy => dsimp only; split <;> simp [Pc.seesMatch]
  | check op position start =>
    dsimp only
    split
    · simp [Pc.seesMatch]
    · rename_i entry _
      rcases @HashContextList.afterOp_cases hc entry position start op with
        ⟨op', position', start', heq⟩ | heq <;> simp [heq, Pc.seesMatch]
  | advance => dsimp only; split_ifs <;> simp [Pc.seesMatch]
  | exit => dsimp only; split_ifs <;> simp_all [Pc.seesMatch]
  | _ => simp [Pc.seesMatch, decode, hpc]

theorem Scan.step_notified :
    (scan.step hc).pc = .notified ↔ scan.pc = .done ∨ scan.pc = .notified := by
  unfold Scan.step
  cases hpc : scan.pc with
  | copy => dsimp only; split <;> simp
  | check op position start =>
    dsimp only
    split
    · simp
    · rename_i entry _
      rcases @HashContextList.afterOp_cases hc entry position start op with
        ⟨op', position', start', heq⟩ | heq <;> simp [heq]
  | advance => dsimp only; split_ifs <;> simp
  | exit => dsimp only; split_ifs <;> simp
  | _ => simp [decode, hpc]

theorem Scan.step_done : (scan.step hc).pc = .done ↔ scan.pc = .setFileBuffer := by
  unfold Scan.step
  cases hpc : scan.pc with
  | copy => dsimp only; split <;> simp
  | check op position start =>
    dsimp only
    split
    · simp
    · rename_i entry _
      rcases @HashContextList.afterOp_cases hc entry position start op with
        ⟨op', position', start', heq⟩ | heq <;> simp [heq]
  | advance => dsimp only; split_ifs <;> simp
  | exit => dsimp only; split_ifs <;> simp
  | _ => simp [decode, hpc]

/-- Only the test of the hash list writes the byte block. -/
theorem Scan.step_byteblock (hpc : ∀ op position start, scan.pc ≠ .check op position start) :
    (scan.step hc).md.byteblock = scan.md.byteblock := by
  unfold Scan.step
  cases h : scan.pc with
  | copy => dsimp only; split <;> rfl
  | check op position start => exact absurd h (hpc op position start)
  | advance => dsimp only; split_ifs <;> rfl
  | _ => rfl

/-- Only the test of the hash list finds a match. -/
theorem Scan.step_matchFound (hpc : ∀ op position start, scan.pc ≠ .check op position start) :
    (scan.step hc).md.matchFound = scan.md.matchFound := by
  unfold Scan.step
  cases h : scan.pc with
  | copy => dsimp only; split <;> rfl
  | check op position start => exact absurd h (hpc op position start)
  | advance => dsimp only; split_ifs <;> rfl
  | _ => rfl

/-- Only the first statement clears the stop flag. -/
theorem Scan.step_stop (hpc : ∀ args, scan.pc ≠ .start args) :
    (scan.step hc).md.stop = scan.md.stop := by
  unfold Scan.step
  cases h : scan.pc with
  | start args => exact absurd h (hpc args)
  | copy => dsimp only; split <;> rfl
  | check => dsimp only; split <;> rfl
  | advance => dsimp only; split_ifs <;> rfl
  | _ => rfl

/-! The goroutines of the current block while main launches and waits -/

/-- The test of the hash bytes of a record. -/
def UnzipJob.check (job : UnzipJob) (record : BlockRecord) (byteblock : List UInt8) : Bool :=
  BlockHash.checkFrom record.hashByteBlock byteblock 0 job.blockHashList

/-- The bytes match the hash bytes of block `i`. -/
def UnzipJob.accepts (job : UnzipJob) (i : ℕ) (byteblock : List UInt8) : Prop :=
  ∃ record, job.records[i]? = some record ∧ job.check record byteblock = true

/-- The goroutine tests against the hash bytes of block `i`. -/
structure TestsBlock (job : UnzipJob) (i : ℕ) (hc : HashContextList) (scan : Scan) : Prop where
  context : scan.pc ≠ .init → ∃ record, job.records[i]? = some record ∧
    hc.hashBlockBytes = record.hashByteBlock
  checking : scan.Checks hc hc.checkFileHashBlock
  found : scan.md.matchFound = true → job.accepts i scan.md.byteblock

theorem TestsBlock.of_init {i : ℕ} (hpc : scan.pc = .init) (hfound : scan.md.matchFound = false) :
    TestsBlock job i hc scan where
  context h := absurd hpc h
  checking := Scan.checks_of_ne (by rw [hpc]; simp)
  found h := by rw [hfound] at h; cases h

/-- Under the list of the job the check is that of the record. -/
theorem TestsBlock.check_eq {i : ℕ} (h : TestsBlock job i hc scan)
    (hlist : hc.blockHashList = job.blockHashList) (hpc : scan.pc ≠ .init) :
    ∃ record, job.records[i]? = some record ∧ hc.checkFileHashBlock = job.check record := by
  obtain ⟨record, hrecord, hbytes⟩ := h.context hpc
  refine ⟨record, hrecord, ?_⟩
  funext byteblock
  rw [HashContextList.checkFileHashBlock, hbytes, hlist, UnzipJob.check]

theorem checkFileHashBlock_hashStep (scan : Scan) :
    (scan.hashStep hc).checkFileHashBlock = hc.checkFileHashBlock := by
  obtain ⟨hlist, hbytes⟩ := @Scan.hashStep_fields hc scan
  funext byteblock
  rw [HashContextList.checkFileHashBlock, hlist, hbytes, HashContextList.checkFileHashBlock]

theorem TestsBlock.step {i : ℕ} (h : TestsBlock job i hc scan)
    (hlist : hc.blockHashList = job.blockHashList) (hrun : scan.pc.isRunning = true) :
    TestsBlock job i (scan.hashStep hc) (scan.step hc) where
  context _ := by
    obtain ⟨record, hrecord, hbytes⟩ := h.context (by rintro hpc; rw [hpc] at hrun; cases hrun)
    exact ⟨record, hrecord, Scan.hashStep_fields.2.trans hbytes⟩
  checking := by
    rw [checkFileHashBlock_hashStep]
    exact h.checking.step fun _ => rfl
  found hfound := by
    by_cases hpc : ∃ op position start, scan.pc = .check op position start
    · obtain ⟨op, position, start, hpc⟩ := hpc
      obtain ⟨record, hrecord, hcheck⟩ := h.check_eq hlist (by rw [hpc]; nofun)
      have htest := (h.checking op position start hpc).1
      simp only [Scan.step, hpc] at hfound ⊢
      cases hget : hc.blockHashList[position]? with
      | none =>
        rw [BlockHash.checkFrom_drop_none hget, hcheck] at htest
        exact ⟨record, hrecord, htest.symm⟩
      | some entry =>
        rw [hget] at hfound
        exact h.found hfound
    · have hne : ∀ op position start, scan.pc ≠ .check op position start :=
        fun op position start hpc' => hpc ⟨op, position, start, hpc'⟩
      rw [Scan.step_byteblock hne]
      exact h.found (by rwa [Scan.step_matchFound hne] at hfound)

/-- A step of another goroutine that has the same objects. -/
theorem TestsBlock.other {i : ℕ} (h : TestsBlock job i hc scan) (other : Scan)
    (hreset : ∀ hashName, scan.holds hc.blockHashList = some hashName →
      other.resets hc.blockHashList ≠ some hashName)
    (hhold : ∀ hashName, scan.holds hc.blockHashList = some hashName →
      other.holds hc.blockHashList ≠ some hashName) :
    TestsBlock job i (other.hashStep hc) scan where
  context hpc := by
    obtain ⟨record, hrecord, hbytes⟩ := h.context hpc
    exact ⟨record, hrecord, Scan.hashStep_fields.2.trans hbytes⟩
  checking op position start hpc := by
    obtain ⟨hlist, hbytes⟩ := @Scan.hashStep_fields hc other
    obtain ⟨hcheck, hobject⟩ := h.checking op position start hpc
    rw [checkFileHashBlock_hashStep, hlist, hbytes]
    refine ⟨hcheck, fun entry hentry => ?_⟩
    have hsame (hhas : scan.holds hc.blockHashList = some entry.hashName) :
        (other.hashStep hc).written entry.hashName = hc.written entry.hashName :=
      Scan.hashStep_written (hreset _ hhas) (hhold _ hhas)
    have hobject := hobject entry hentry
    cases op with
    | reset => trivial
    | write =>
      dsimp only at hobject ⊢
      rw [hsame (by rw [Scan.holds, hpc]; simp [hentry]), hobject]
    | sum =>
      dsimp only at hobject ⊢
      rw [hsame (by rw [Scan.holds, hpc]; simp [hentry]), hobject]
    | equal digest => exact hobject
  found := h.found

/-! The invariant -/

/-- Main launches the goroutines of its block, or waits for one of them. -/
def MainPc.isOpen : MainPc → Bool
  | .setBlockHash _ | .go _ | .wait => true
  | _ => false

/-- Main has been woken and has not left its block. -/
def MainPc.isClosed : MainPc → Bool
  | .getMatchStatus | .getFileBuffer | .stopScan _ | .resetMatchFound _ | .resetMutex => true
  | _ => false

/-- Main has not reached the `go` statement of that thread of its block. -/
def MainPc.beforeGo (t : ℕ) : MainPc → Prop
  | .add => True
  | .setBlockHash next | .go next => next ≤ t
  | _ => False

/-- Main has not reached the `go` statement of that block and thread. -/
def UnzipState.unlaunched (job : UnzipJob) (s : UnzipState) (i t : ℕ) : Prop :=
  job.threadCount ≤ t ∨ s.blockNumber < i ∨ i = s.blockNumber ∧ s.main.beforeGo t

/-- Main has been woken for that block. -/
def UnzipState.settled (s : UnzipState) (i : ℕ) : Prop :=
  i < s.blockNumber ∨ i = s.blockNumber ∧ s.main.isClosed = true

/-- A goroutine of that block has called `Done`. -/
def UnzipState.notified (s : UnzipState) (i : ℕ) : Prop := ∃ t, (s.scans (i, t)).pc = .notified

structure UnzipInv (job : UnzipJob) (s : UnzipState) : Prop where
  fresh : ∀ i t, s.unlaunched job i t →
    (s.scans (i, t)).pc = .init ∧ (s.scans (i, t)).md.matchFound = false
  unique : ∀ i t t', (s.scans (i, t)).pc.seesMatch = true →
    (s.scans (i, t')).pc.seesMatch = true → t = t'
  settled : ∀ i, s.settled i → s.notified i
  quiet : s.c.panicked = false
  counter : (s.main.isOpen = true ∧ ¬ s.notified s.blockNumber ∧ s.c.counter = 1) ∨
    ((s.main.isOpen = true → s.notified s.blockNumber) ∧ s.c.counter = 0)
  list : ∀ t, (s.hcListArr t).blockHashList = job.blockHashList
  ready : ∀ t, s.main = .go t → t < job.threadCount ∧ ∃ record,
    job.records[s.blockNumber]? = some record ∧
      (s.hcListArr t).hashBlockBytes = record.hashByteBlock
  exclusive : ∀ i i' t hashName,
    (s.scans (i, t)).holds job.blockHashList = some hashName →
    (s.scans (i', t)).holds job.blockHashList = some hashName → i = i'
  tests : s.main.isOpen = true →
    ∀ t, TestsBlock job s.blockNumber (s.hcListArr t) (s.scans (s.blockNumber, t))
  matched : ∀ i t, (s.scans (i, t)).pc.seesMatch = true →
    job.accepts i (s.scans (i, t)).md.byteblock
  mutex : ∀ t, ((s.scans (s.blockNumber, t)).pc = .done ∨
      (s.scans (s.blockNumber, t)).pc = .notified) →
    s.mutex.filebuffer = (s.scans (s.blockNumber, t)).md.byteblock
  written : ∀ w ∈ s.written, ∃ t, (s.scans (w.1, t)).pc = .notified ∧
    (s.scans (w.1, t)).md.byteblock = w.2
  stopped : ∀ i t, s.stopIssued job i t → (s.scans (i, t)).md.stop = true

theorem UnzipInv.initial : UnzipInv job (UnzipState.initial job) where
  fresh _ _ _ := ⟨rfl, rfl⟩
  unique _ _ _ h := by cases h
  settled i h := by
    rcases h with h | ⟨-, h⟩
    · exact absurd h (Nat.not_lt_zero i)
    · cases h
  quiet := rfl
  counter := .inr ⟨nofun, rfl⟩
  list _ := rfl
  ready := nofun
  exclusive _ _ _ _ h := by cases h
  tests := nofun
  matched _ _ h := by cases h
  mutex _ h := by rcases h with h | h <;> cases h
  written := nofun
  stopped i t h := by
    obtain ⟨-, h | ⟨-, h⟩⟩ := h
    · exact absurd h (Nat.not_lt_zero i)
    · exact h.elim

theorem MainPc.isOpen_iff (pc : MainPc) : pc.isOpen = true ↔ pc ≠ .add ∧ pc.isClosed = false := by
  cases pc <;> simp [isOpen, isClosed]

theorem UnzipInv.lt_threadCount (h : UnzipInv job s) {i t : ℕ} (hpc : (s.scans (i, t)).pc ≠ .init) :
    t < job.threadCount := by
  by_contra hle
  exact hpc (h.fresh i t (.inl (by omega))).1

/-- Until a goroutine of a block has called `Done`, main waits in that block. -/
theorem UnzipInv.waits (h : UnzipInv job s) {i t : ℕ} (hpc : (s.scans (i, t)).pc ≠ .init)
    (hnot : ¬ s.notified i) : i = s.blockNumber ∧ s.main.isOpen = true ∧ s.c.counter = 1 := by
  have hsettled : ¬ s.settled i := fun hs => hnot (h.settled i hs)
  have hlaunched : ¬ s.unlaunched job i t := fun hu => hpc (h.fresh i t hu).1
  obtain rfl : i = s.blockNumber := by
    rcases lt_trichotomy i s.blockNumber with hlt | heq | hgt
    · exact absurd (.inl hlt) hsettled
    · exact heq
    · exact absurd (.inr (.inl hgt)) hlaunched
  have hopen : s.main.isOpen = true := by
    rw [MainPc.isOpen_iff]
    refine ⟨fun hadd => hlaunched (.inr (.inr ⟨rfl, by rw [hadd]; trivial⟩)), ?_⟩
    cases hclosed : s.main.isClosed with
    | false => rfl
    | true => exact absurd (.inr ⟨rfl, hclosed⟩) hsettled
  refine ⟨rfl, hopen, ?_⟩
  rcases h.counter with ⟨-, -, hone⟩ | ⟨hsome, -⟩
  · exact hone
  · exact absurd (hsome hopen) hnot

/-- Who has seen a match and not called `Done` is the first of its block. -/
theorem UnzipInv.not_notified (h : UnzipInv job s) {i t : ℕ}
    (hsees : (s.scans (i, t)).pc.seesMatch = true) (hpc : (s.scans (i, t)).pc ≠ .notified) :
    ¬ s.notified i := by
  rintro ⟨t', ht'⟩
  obtain rfl := h.unique i t t' hsees (by rw [ht']; rfl)
  exact hpc ht'

/-! A step of a goroutine -/

section
variable {i t : ℕ}

theorem goroutineStep_self : (goroutineStep s i t).scans (i, t) =
    (s.scans (i, t)).step (s.hcListArr t) := Function.update_self ..

theorem goroutineStep_ne {p : ℕ × ℕ} (h : p ≠ (i, t)) :
    (goroutineStep s i t).scans p = s.scans p := Function.update_of_ne h ..

theorem seesMatch_goroutineStep {p : ℕ × ℕ}
    (h : ((goroutineStep s i t).scans p).pc.seesMatch = true) :
    (s.scans p).pc.seesMatch = true ∨
      p = (i, t) ∧ (s.scans p).pc = .exit ∧ (s.scans p).md.matchFound = true := by
  by_cases hp : p = (i, t)
  · subst hp
    rw [goroutineStep_self, Scan.step_seesMatch] at h
    exact h.imp_right fun h => ⟨rfl, h⟩
  · rw [goroutineStep_ne hp] at h
    exact .inl h

/-- A goroutine that has returned stays as it is. -/
theorem goroutineStep_notified (hrun : (s.scans (i, t)).pc.isRunning = true) {p : ℕ × ℕ}
    (h : (s.scans p).pc = .notified) : (goroutineStep s i t).scans p = s.scans p := by
  apply goroutineStep_ne
  rintro rfl
  rw [h] at hrun
  cases hrun

theorem notified_goroutineStep (hrun : (s.scans (i, t)).pc.isRunning = true)
    (hpc : (s.scans (i, t)).pc ≠ .done) (j : ℕ) :
    (goroutineStep s i t).notified j ↔ s.notified j := by
  constructor
  · rintro ⟨u, hu⟩
    by_cases hp : (j, u) = (i, t)
    · rw [hp, goroutineStep_self, Scan.step_notified] at hu
      exact ⟨u, by rw [hp]; exact hu.resolve_left hpc⟩
    · rw [goroutineStep_ne hp] at hu
      exact ⟨u, hu⟩
  · rintro ⟨u, hu⟩
    exact ⟨u, by rw [goroutineStep_notified hrun hu]; exact hu⟩

theorem Pc.ne_init_of_isRunning {pc : Pc} (hrun : pc.isRunning = true) : pc ≠ .init := by
  rintro rfl
  cases hrun

theorem Pc.ne_init_of_seesMatch {pc : Pc} (hsees : pc.seesMatch = true) : pc ≠ .init := by
  rintro rfl
  cases hsees

theorem hcListArr_goroutineStep_self : (goroutineStep s i t).hcListArr t =
    (s.scans (i, t)).hashStep (s.hcListArr t) := Function.update_self ..

theorem hcListArr_goroutineStep_ne {u : ℕ} (h : u ≠ t) :
    (goroutineStep s i t).hcListArr u = s.hcListArr u := Function.update_of_ne h ..

theorem hcListArr_goroutineStep {u : ℕ} :
    ((goroutineStep s i t).hcListArr u).blockHashList = (s.hcListArr u).blockHashList ∧
      ((goroutineStep s i t).hcListArr u).hashBlockBytes = (s.hcListArr u).hashBlockBytes := by
  by_cases hu : u = t
  · subst hu
    rw [hcListArr_goroutineStep_self]
    exact Scan.hashStep_fields
  · rw [hcListArr_goroutineStep_ne hu]
    exact ⟨rfl, rfl⟩

theorem UnzipInv.holds_goroutineStep (h : UnzipInv job s) {p : ℕ × ℕ} {hashName : List UInt8}
    (hp : ((goroutineStep s i t).scans p).holds job.blockHashList = some hashName) :
    (s.scans p).holds job.blockHashList = some hashName ∨
      p = (i, t) ∧ (s.scans p).resets job.blockHashList = some hashName := by
  by_cases heq : p = (i, t)
  · subst heq
    rw [goroutineStep_self, ← h.list t] at hp
    rw [← h.list t]
    exact (Scan.holds_step hp).symm.imp_right fun hreset => ⟨rfl, hreset⟩
  · rw [goroutineStep_ne heq] at hp
    exact .inl hp

/-- Who holds an object has been launched. -/
theorem UnzipInv.holds_le (h : UnzipInv job s) {hashName : List UInt8}
    (hholds : (s.scans (i, t)).holds job.blockHashList = some hashName) : i ≤ s.blockNumber := by
  by_contra hlt
  rw [Scan.holds, (h.fresh i t (.inr (.inl (Nat.lt_of_not_le hlt)))).1] at hholds
  cases hholds

theorem waitGroup_goroutineStep (hpc : (s.scans (i, t)).pc ≠ .done) :
    (goroutineStep s i t).c = s.c := by
  simp only [goroutineStep, Scan.waitGroupStep]

theorem mutex_goroutineStep (hpc : (s.scans (i, t)).pc ≠ .setFileBuffer) :
    (goroutineStep s i t).mutex = s.mutex := by
  simp only [goroutineStep, Scan.mutexStep]

variable (h : UnzipInv job s) (htimely : Timely job s (.goroutine i t))
  (hrun : (s.scans (i, t)).pc.isRunning = true)
include h hrun

theorem UnzipInv.done_step (hpc : (s.scans (i, t)).pc = .done) :
    i = s.blockNumber ∧ s.main.isOpen = true ∧
      (goroutineStep s i t).c = { counter := 0, panicked := false } := by
  have hnot := h.not_notified (i := i) (t := t) (by rw [hpc]; rfl) (by rw [hpc]; nofun)
  obtain ⟨hi, hopen, hone⟩ := h.waits (Pc.ne_init_of_isRunning hrun) hnot
  refine ⟨hi, hopen, ?_⟩
  simp only [goroutineStep, Scan.waitGroupStep, hpc, WaitGroup.done, hone, h.quiet]
  simp

theorem UnzipInv.mutex_step (u : ℕ)
    (hpc : ((goroutineStep s i t).scans (s.blockNumber, u)).pc = .done ∨
      ((goroutineStep s i t).scans (s.blockNumber, u)).pc = .notified) :
    (goroutineStep s i t).mutex.filebuffer =
      ((goroutineStep s i t).scans (s.blockNumber, u)).md.byteblock := by
  by_cases hset : (s.scans (i, t)).pc = .setFileBuffer
  · have hsees : (s.scans (i, t)).pc.seesMatch = true := by rw [hset]; rfl
    obtain ⟨rfl, -, -⟩ := h.waits (Pc.ne_init_of_isRunning hrun)
      (h.not_notified hsees (by rw [hset]; nofun))
    obtain rfl : u = t := by
      by_contra hne
      rw [goroutineStep_ne (by simpa using hne)] at hpc
      exact hne (h.unique _ _ _ (by rcases hpc with hpc | hpc <;> rw [hpc] <;> rfl) hsees)
    rw [goroutineStep_self, Scan.step_byteblock (by rw [hset]; nofun)]
    simp only [goroutineStep, Scan.mutexStep, hset, FileMutex.setFileBuffer]
  · rw [mutex_goroutineStep hset]
    by_cases hp : (s.blockNumber, u) = (i, t)
    · rw [hp, goroutineStep_self] at hpc ⊢
      have hdone : (s.scans (i, t)).pc = .done := by
        rcases hpc with hpc | hpc
        · exact absurd (Scan.step_done.mp hpc) hset
        · rcases Scan.step_notified.mp hpc with hold | hold
          · exact hold
          · rw [hold] at hrun
            cases hrun
      rw [Scan.step_byteblock (by rw [hdone]; nofun), ← hp]
      exact h.mutex u (.inl (by rw [hp]; exact hdone))
    · rw [goroutineStep_ne hp] at hpc ⊢
      exact h.mutex u hpc

include htimely

theorem UnzipInv.matched_step {p : ℕ × ℕ}
    (hsees : ((goroutineStep s i t).scans p).pc.seesMatch = true) :
    job.accepts p.1 ((goroutineStep s i t).scans p).md.byteblock := by
  rcases seesMatch_goroutineStep hsees with hold | ⟨rfl, hexit, hfound⟩
  · have hbyte : ((goroutineStep s i t).scans p).md.byteblock = (s.scans p).md.byteblock := by
      by_cases hp : p = (i, t)
      · subst hp
        rw [goroutineStep_self, Scan.step_byteblock]
        intro op position start hpc
        rw [hpc] at hold
        cases hold
      · rw [goroutineStep_ne hp]
    rw [hbyte]
    exact h.matched p.1 p.2 hold
  · have hnot : ¬ s.notified i := by
      rintro ⟨u, hu⟩
      have hsees := htimely.2.1 hexit hfound u (h.lt_threadCount (by rw [hu]; nofun))
      rw [hu] at hsees
      cases hsees
    obtain ⟨rfl, hopen, -⟩ := h.waits (Pc.ne_init_of_isRunning hrun) hnot
    rw [goroutineStep_self, Scan.step_byteblock (by rw [hexit]; nofun)]
    exact (h.tests hopen t).found hfound

theorem UnzipInv.goroutine : UnzipInv job (goroutineStep s i t) where
  fresh j u hu := by
    rw [goroutineStep_ne]
    · exact h.fresh j u hu
    · intro hp
      obtain ⟨rfl, rfl⟩ := Prod.mk.inj hp
      exact Pc.ne_init_of_isRunning hrun (h.fresh _ _ hu).1
  unique j u u' hu hu' := by
    rcases seesMatch_goroutineStep hu with hold | ⟨hp, hexit, hfound⟩ <;>
      rcases seesMatch_goroutineStep hu' with hold' | ⟨hp', hexit', hfound'⟩
    · exact h.unique j u u' hold hold'
    · obtain ⟨rfl, rfl⟩ := Prod.mk.inj hp'
      rw [htimely.2.1 hexit' hfound' u (h.lt_threadCount (Pc.ne_init_of_seesMatch hold))] at hold
      cases hold
    · obtain ⟨rfl, rfl⟩ := Prod.mk.inj hp
      rw [htimely.2.1 hexit hfound u' (h.lt_threadCount (Pc.ne_init_of_seesMatch hold'))] at hold'
      cases hold'
    · exact (Prod.mk.inj (hp.trans hp'.symm)).2
  settled j hj := by
    obtain ⟨u, hu⟩ := h.settled j hj
    exact ⟨u, by rw [goroutineStep_notified hrun hu]; exact hu⟩
  quiet := by
    by_cases hpc : (s.scans (i, t)).pc = .done
    · rw [(h.done_step hrun hpc).2.2]
    · rw [waitGroup_goroutineStep hpc]
      exact h.quiet
  counter := by
    by_cases hpc : (s.scans (i, t)).pc = .done
    · obtain ⟨rfl, -, hc⟩ := h.done_step hrun hpc
      refine .inr ⟨fun _ => ⟨t, ?_⟩, by rw [hc]⟩
      change ((goroutineStep s s.blockNumber t).scans (s.blockNumber, t)).pc = _
      rw [goroutineStep_self, Scan.step_notified]
      exact .inl hpc
    · rw [waitGroup_goroutineStep hpc, notified_goroutineStep hrun hpc]
      exact h.counter
  list u := hcListArr_goroutineStep.1.trans (h.list u)
  ready u hu := by
    obtain ⟨hlt, record, hrecord, hbytes⟩ := h.ready u hu
    exact ⟨hlt, record, hrecord, hcListArr_goroutineStep.2.trans hbytes⟩
  exclusive j j' u hashName hu hu' := by
    rcases h.holds_goroutineStep hu with hold | ⟨hp, hreset⟩ <;>
      rcases h.holds_goroutineStep hu' with hold' | ⟨hp', hreset'⟩
    · exact h.exclusive j j' u hashName hold hold'
    · obtain ⟨rfl, rfl⟩ := Prod.mk.inj hp'
      exact absurd (hold.trans hreset'.symm)
        (htimely.2.2 (by rw [hreset']; rfl) j (h.holds_le hold))
    · obtain ⟨rfl, rfl⟩ := Prod.mk.inj hp
      exact absurd (hold'.trans hreset.symm)
        (htimely.2.2 (by rw [hreset]; rfl) j' (h.holds_le hold'))
    · exact (Prod.mk.inj (hp.trans hp'.symm)).1
  tests hopen u := by
    by_cases hp : (s.blockNumber, u) = (i, t)
    · obtain ⟨rfl, rfl⟩ := Prod.mk.inj hp
      change TestsBlock job _ ((goroutineStep s s.blockNumber u).hcListArr u)
        ((goroutineStep s s.blockNumber u).scans (s.blockNumber, u))
      rw [goroutineStep_self, hcListArr_goroutineStep_self]
      exact (h.tests hopen u).step (h.list u) hrun
    · change TestsBlock job _ ((goroutineStep s i t).hcListArr u)
        ((goroutineStep s i t).scans (s.blockNumber, u))
      rw [goroutineStep_ne hp]
      by_cases hu : u = t
      · -- the goroutine of another block with the same objects
        subst hu
        rw [hcListArr_goroutineStep_self]
        refine (h.tests hopen u).other _ (fun hashName hhas hreset => ?_)
          fun hashName hhas hhold => ?_
        · rw [h.list] at hhas hreset
          exact absurd (hhas.trans hreset.symm)
            (htimely.2.2 (by rw [hreset]; rfl) s.blockNumber le_rfl)
        · rw [h.list] at hhas hhold
          exact hp (by rw [h.exclusive _ _ u hashName hhas hhold])
      · rw [hcListArr_goroutineStep_ne hu]
        exact h.tests hopen u
  matched j u hu := h.matched_step htimely hrun hu
  mutex u hu := h.mutex_step hrun u hu
  written w hw := by
    obtain ⟨u, hu, hbyte⟩ := h.written w hw
    exact ⟨u, by rw [goroutineStep_notified hrun hu]; exact ⟨hu, hbyte⟩⟩
  stopped j u hu := by
    have hstop := h.stopped j u hu
    by_cases hp : (j, u) = (i, t)
    · obtain ⟨rfl, rfl⟩ := Prod.mk.inj hp
      rw [goroutineStep_self, Scan.step_stop]
      · exact hstop
      · intro args hpc
        rw [htimely.1 (by rw [hpc]; rfl)] at hstop
        cases hstop
    · rw [goroutineStep_ne hp]
      exact hstop

end

/-! A step of main -/

theorem MainPc.not_isOpen {pc : MainPc} (h : pc.isClosed = true) : pc.isOpen = false := by
  cases pc <;> first | rfl | cases h

theorem UnzipInv.counter_eq_zero (h : UnzipInv job s) (hpc : s.main.isOpen = false) :
    s.c.counter = 0 := by
  rcases h.counter with ⟨hopen, -, -⟩ | ⟨-, hzero⟩
  · rw [hpc] at hopen
    cases hopen
  · exact hzero

theorem MainPc.not_beforeGo {pc : MainPc} (h : pc.isClosed = true) (t : ℕ) :
    ¬ pc.beforeGo t := by
  cases pc <;> simp [isClosed, beforeGo] at h ⊢

section
variable {record : BlockRecord} {k : ℕ}

/-- Between the wake-up and the next block main writes flags and the output. -/
theorem UnzipInv.closed_step (h : UnzipInv job s) (k : ℕ) (scan' : Scan)
    (hold : s.main.isClosed = true) {pc : MainPc} (hnew : pc.isClosed = true)
    (hpc : scan'.pc = (s.scans (s.blockNumber, k)).pc)
    (hbyte : scan'.md.byteblock = (s.scans (s.blockNumber, k)).md.byteblock)
    (hfound : scan'.md.matchFound = true →
      (s.scans (s.blockNumber, k)).md.matchFound = true)
    {written : List (ℕ × List UInt8)}
    (hwritten : ∀ w ∈ written, ∃ t, (s.scans (w.1, t)).pc = .notified ∧
      (s.scans (w.1, t)).md.byteblock = w.2)
    (hstop : ∀ i t, ({ s with main := pc } : UnzipState).stopIssued job i t →
      (Function.update s.scans (s.blockNumber, k) scan' (i, t)).md.stop = true) :
    UnzipInv job { s with
      scans := Function.update s.scans (s.blockNumber, k) scan', main := pc, written } := by
  have hpcs (p : ℕ × ℕ) :
      (Function.update s.scans (s.blockNumber, k) scan' p).pc = (s.scans p).pc := by
    by_cases hp : p = (s.blockNumber, k)
    · rw [hp, Function.update_self, hpc]
    · rw [Function.update_of_ne hp]
  have hbytes (p : ℕ × ℕ) : (Function.update s.scans (s.blockNumber, k) scan' p).md.byteblock =
      (s.scans p).md.byteblock := by
    by_cases hp : p = (s.blockNumber, k)
    · rw [hp, Function.update_self, hbyte]
    · rw [Function.update_of_ne hp]
  exact {
    fresh := fun i t hu => by
      obtain ⟨hinit, hfalse⟩ := h.fresh i t (hu.imp_right fun hu => hu.imp_right fun hu =>
        absurd hu.2 (MainPc.not_beforeGo hnew t))
      refine ⟨(hpcs _).trans hinit, ?_⟩
      by_cases hp : (i, t) = (s.blockNumber, k)
      · rw [hp] at hfalse
        dsimp only
        rw [hp, Function.update_self]
        cases hmatch : scan'.md.matchFound with
        | false => rfl
        | true => exact absurd (hfound hmatch) (by rw [hfalse]; nofun)
      · dsimp only
        rw [Function.update_of_ne hp]
        exact hfalse
    unique := fun i t t' => by simpa only [hpcs] using h.unique i t t'
    settled := fun i hi => by
      obtain ⟨t, ht⟩ := h.settled i (hi.imp_right fun hi => ⟨hi.1, hold⟩)
      exact ⟨t, (hpcs _).trans ht⟩
    quiet := h.quiet
    counter := by
      refine .inr ⟨fun hopen => ?_, h.counter_eq_zero (MainPc.not_isOpen hold)⟩
      rw [MainPc.not_isOpen hnew] at hopen
      cases hopen
    list := h.list
    ready := fun t ht => by
      dsimp only at ht
      rw [ht] at hnew
      cases hnew
    exclusive := fun i i' t => by simpa only [Scan.holds, hpcs] using h.exclusive i i' t
    tests := fun hopen => by rw [MainPc.not_isOpen hnew] at hopen; cases hopen
    matched := fun i t => by simpa only [hpcs, hbytes] using h.matched i t
    mutex := fun t => by simpa only [hpcs, hbytes] using h.mutex t
    written := by simpa only [hpcs, hbytes] using hwritten
    stopped := hstop }

/-- What main has stopped stays stopped while it only moves on. -/
theorem UnzipInv.stopped_update (h : UnzipInv job s) {scan' : Scan} {i t : ℕ}
    (hstop : (i, t) = (s.blockNumber, k) → scan'.md.stop = true)
    (hissued : (i, t) ≠ (s.blockNumber, k) → s.stopIssued job i t) :
    (Function.update s.scans (s.blockNumber, k) scan' (i, t)).md.stop = true := by
  by_cases hp : (i, t) = (s.blockNumber, k)
  · rw [hp, Function.update_self]
    exact hstop hp
  · rw [Function.update_of_ne hp]
    exact h.stopped i t (hissued hp)

theorem UnzipInv.main_add (h : UnzipInv job s) (hpc : s.main = .add) :
    UnzipInv job (mainStep job s record) := by
  have hfresh (i t : ℕ) (hi : s.blockNumber ≤ i) : (s.scans (i, t)).pc = .init ∧
      (s.scans (i, t)).md.matchFound = false := by
    apply h.fresh i t
    rcases hi.lt_or_eq with hlt | rfl
    · exact .inr (.inl hlt)
    · exact .inr (.inr ⟨rfl, by rw [hpc]; trivial⟩)
  set s' := mainStep job s record with hs'
  simp only [mainStep, hpc] at hs'
  have hscans (p : ℕ × ℕ) : s'.scans p =
      if p.1 = s.blockNumber ∧ p.2 < job.threadCount then
        Scan.init record.args.blocksize job.modSize p.2 job.threadCount
      else s.scans p := by rw [hs']
  have hpcs (p : ℕ × ℕ) : (s'.scans p).pc = (s.scans p).pc := by
    rw [hscans]
    split_ifs with hp
    · exact (hfresh p.1 p.2 hp.1.ge).1.symm
    · rfl
  have hsame {p : ℕ × ℕ} (hp : (s.scans p).pc ≠ .init) : s'.scans p = s.scans p := by
    rw [hscans, if_neg]
    exact fun hcur => hp (hfresh p.1 p.2 hcur.1.ge).1
  have hinit (t : ℕ) : (s'.scans (s.blockNumber, t)).pc = .init ∧
      (s'.scans (s.blockNumber, t)).md.matchFound = false := by
    rw [hscans]
    split_ifs
    · exact ⟨rfl, rfl⟩
    · exact hfresh _ t le_rfl
  have hblk : s'.blockNumber = s.blockNumber := by rw [hs']
  have hmain : s'.main = .setBlockHash 0 := by rw [hs']
  have hc : s'.c = s.c.add := by rw [hs']
  exact {
    fresh := fun i t hu => by
      rcases lt_or_ge i s.blockNumber with hlt | hge
      · have hold : (s.scans (i, t)).pc = .init ∧ (s.scans (i, t)).md.matchFound = false := by
          refine h.fresh i t (.inl ?_)
          rcases hu with hu | hu | hu
          · exact hu
          · omega
          · omega
        rw [hscans, if_neg (by dsimp only; omega)]
        exact hold
      · rcases hge.lt_or_eq with hgt | rfl
        · rw [hscans, if_neg (by dsimp only; omega)]
          exact hfresh i t hge
        · exact hinit t
    unique := fun i t t' => by simpa only [hpcs] using h.unique i t t'
    settled := fun i hi => by
      obtain ⟨t, ht⟩ := h.settled i (by
        rcases hi with hi | ⟨-, hi⟩
        · exact .inl (hblk ▸ hi)
        · rw [hmain] at hi
          cases hi)
      exact ⟨t, (hpcs _).trans ht⟩
    quiet := by rw [hc]; exact h.quiet
    counter := by
      have hzero := h.counter_eq_zero (by rw [hpc]; rfl)
      refine .inl ⟨by rw [hmain]; rfl, ?_, by rw [hc, WaitGroup.add, hzero]⟩
      rintro ⟨t, ht⟩
      rw [hblk, (hinit t).1] at ht
      cases ht
    list := by rw [hs']; exact h.list
    ready := fun k hgo => by
      rw [hmain] at hgo
      cases hgo
    exclusive := fun i i' t => by simpa only [Scan.holds, hpcs] using h.exclusive i i' t
    tests := fun _ t => by
      rw [hblk]
      exact .of_init (hinit t).1 (hinit t).2
    matched := fun i t hsees => by
      rw [hpcs] at hsees
      rw [hsame (by intro hp; rw [hp] at hsees; cases hsees)]
      exact h.matched i t hsees
    mutex := fun t ht => by
      rw [hblk, (hinit t).1] at ht
      rcases ht with ht | ht <;> cases ht
    written := fun w hw => by
      obtain ⟨t, ht, hbyte⟩ := h.written w (by rw [hs'] at hw; exact hw)
      refine ⟨t, (hpcs _).trans ht, ?_⟩
      rw [hsame (by intro hp; rw [ht] at hp; cases hp)]
      exact hbyte
    stopped := fun i t hissued => by
      obtain ⟨ht, hi | ⟨-, hi⟩⟩ := hissued
      · rw [hblk] at hi
        rw [hscans, if_neg (by dsimp only; omega)]
        exact h.stopped i t ⟨ht, .inl hi⟩
      · rw [hmain] at hi
        exact hi.elim }

theorem UnzipInv.main_setBlockHash (h : UnzipInv job s) (hpc : s.main = .setBlockHash k)
    (hrecord : job.records[s.blockNumber]? = some record) :
    UnzipInv job (mainStep job s record) := by
  have hopen : s.main.isOpen = true := by rw [hpc]; rfl
  have hcounter := h.counter
  rw [hpc] at hcounter
  simp only [mainStep, hpc]
  split_ifs with hk
  · have hinit := h.fresh s.blockNumber k (.inr (.inr ⟨rfl, by rw [hpc]; exact le_rfl⟩))
    exact { h with
      fresh := fun i t hu => h.fresh i t (hu.imp_right (Or.imp_right (And.imp_right fun hle => by
        rw [hpc]
        exact hle)))
      settled := fun i hi => h.settled i (.inl (hi.resolve_right (by rintro ⟨-, ⟨⟩⟩)))
      counter := hcounter
      list := fun t => by
        by_cases ht : t = k
        · rw [ht]
          dsimp only
          rw [Function.update_self]
          exact h.list k
        · dsimp only
          rw [Function.update_of_ne ht]
          exact h.list t
      ready := fun t ht => by
        obtain rfl := MainPc.go.inj ht
        refine ⟨hk, record, hrecord, ?_⟩
        dsimp only
        rw [Function.update_self, HashContextList.setBlockHash, h.list]
      tests := fun _ t => by
        by_cases ht : t = k
        · subst ht
          exact .of_init hinit.1 hinit.2
        · dsimp only
          rw [Function.update_of_ne ht]
          exact h.tests hopen t
      stopped := fun i t hissued => h.stopped i t ⟨hissued.1, .inl (hissued.2.resolve_right
        (by rintro ⟨-, ⟨⟩⟩))⟩ }
  · exact { h with
      fresh := fun i t hu => h.fresh i t (hu.imp_right (Or.imp_right (And.imp_right False.elim)))
      settled := fun i hi => h.settled i (.inl (hi.resolve_right (by rintro ⟨-, ⟨⟩⟩)))
      counter := hcounter
      ready := nofun
      tests := fun _ => h.tests hopen
      stopped := fun i t hissued => h.stopped i t ⟨hissued.1, .inl (hissued.2.resolve_right
        (by rintro ⟨-, ⟨⟩⟩))⟩ }

theorem UnzipInv.main_go (h : UnzipInv job s) (hpc : s.main = .go k) :
    UnzipInv job (mainStep job s record) := by
  have hopen : s.main.isOpen = true := by rw [hpc]; rfl
  obtain ⟨hinit, hfalse⟩ :=
    h.fresh s.blockNumber k (.inr (.inr ⟨rfl, by rw [hpc]; exact le_rfl⟩))
  obtain ⟨hk, hctx⟩ := h.ready k hpc
  set s' := mainStep job s record with hs'
  simp only [mainStep, hpc] at hs'
  have hself : s'.scans (s.blockNumber, k) = (s.scans (s.blockNumber, k)).go record.args := by
    simp only [hs', Function.update_self]
  have hne {p : ℕ × ℕ} (hp : p ≠ (s.blockNumber, k)) : s'.scans p = s.scans p := by
    rw [hs']
    exact Function.update_of_ne hp ..
  have hsame {p : ℕ × ℕ} (hp : (s.scans p).pc ≠ .init) : s'.scans p = s.scans p :=
    hne (by rintro rfl; exact hp hinit)
  have hsees {p : ℕ × ℕ} (hp : (s'.scans p).pc.seesMatch = true) :
      (s.scans p).pc.seesMatch = true ∧ s'.scans p = s.scans p := by
    by_cases heq : p = (s.blockNumber, k)
    · rw [heq, hself] at hp
      cases hp
    · rw [hne heq] at hp
      exact ⟨hp, hne heq⟩
  have hholds {p : ℕ × ℕ} {hashName : List UInt8}
      (hp : (s'.scans p).holds job.blockHashList = some hashName) :
      (s.scans p).holds job.blockHashList = some hashName := by
    by_cases heq : p = (s.blockNumber, k)
    · rw [heq, hself] at hp
      cases hp
    · rwa [hne heq] at hp
  have hnotified (i t : ℕ) (ht : (s.scans (i, t)).pc = .notified) :
      s'.scans (i, t) = s.scans (i, t) := hsame (by rw [ht]; nofun)
  have hblk : s'.blockNumber = s.blockNumber := by rw [hs']
  have hmain : s'.main = .setBlockHash (k + 1) := by rw [hs']
  have hc : s'.c = s.c := by rw [hs']
  have hopen' : s'.main.isOpen = true := by rw [hmain]; rfl
  have hiff (i : ℕ) : s'.notified i ↔ s.notified i := by
    constructor
    · rintro ⟨t, ht⟩
      exact ⟨t, by rw [← (hsees (by rw [ht]; rfl)).2]; exact ht⟩
    · rintro ⟨t, ht⟩
      exact ⟨t, by rw [hnotified i t ht]; exact ht⟩
  exact {
    fresh := fun i t hu => by
      have hold : s.unlaunched job i t ∧ (i, t) ≠ (s.blockNumber, k) := by
        rcases hu with hu | hu | ⟨rfl, hu⟩
        · exact ⟨.inl hu, by rintro ⟨-, -⟩; omega⟩
        · rw [hblk] at hu
          exact ⟨.inr (.inl hu), by rintro ⟨-, -⟩; omega⟩
        · rw [hmain] at hu
          refine ⟨.inr (.inr ⟨hblk, by rw [hpc]; exact (Nat.le_succ k).trans hu⟩), fun hp => ?_⟩
          obtain ⟨-, rfl⟩ := Prod.mk.inj hp
          exact absurd hu (Nat.not_succ_le_self _)
      rw [hne hold.2]
      exact h.fresh i t hold.1
    unique := fun i t t' ht ht' => h.unique i t t' (hsees ht).1 (hsees ht').1
    settled := fun i hi => (hiff i).mpr <| h.settled i (by
      rcases hi with hi | ⟨-, hi⟩
      · exact .inl (hblk ▸ hi)
      · rw [hmain] at hi
        cases hi)
    quiet := by rw [hc]; exact h.quiet
    counter := by
      have hcounter := h.counter
      rw [hopen] at hcounter
      rwa [hc, hblk, hiff, hopen']
    list := by rw [hs']; exact h.list
    ready := by rw [hmain]; nofun
    exclusive := fun i i' t hashName hi hi' =>
      h.exclusive i i' t hashName (hholds hi) (hholds hi')
    tests := fun _ t => by
      have harr : s'.hcListArr = s.hcListArr := by rw [hs']
      rw [hblk, harr]
      by_cases ht : t = k
      · subst ht
        rw [hself]
        exact ⟨fun _ => hctx, nofun, fun hfound => absurd hfound (by
          rw [Scan.go, hfalse]
          nofun)⟩
      · rw [hne (by simpa using ht)]
        exact h.tests hopen t
    matched := fun i t ht => by
      rw [(hsees ht).2]
      exact h.matched i t (hsees ht).1
    mutex := fun t ht => by
      rw [hblk] at ht ⊢
      have hsame :=
        (hsees (p := (s.blockNumber, t)) (by rcases ht with ht | ht <;> rw [ht] <;> rfl)).2
      have hmutex : s'.mutex = s.mutex := by rw [hs']
      rw [hsame] at ht ⊢
      rw [hmutex]
      exact h.mutex t ht
    written := fun w hw => by
      obtain ⟨t, ht, hbyte⟩ := h.written w (by rw [hs'] at hw; exact hw)
      exact ⟨t, by rw [hnotified w.1 t ht]; exact ⟨ht, hbyte⟩⟩
    stopped := fun i t hissued => by
      obtain ⟨ht, hi | ⟨-, hi⟩⟩ := hissued
      · rw [hblk] at hi
        rw [hne (by rintro ⟨-, -⟩; omega)]
        exact h.stopped i t ⟨ht, .inl hi⟩
      · rw [hmain] at hi
        exact hi.elim }

theorem UnzipInv.main_wait (h : UnzipInv job s) (hpc : s.main = .wait) :
    UnzipInv job (mainStep job s record) := by
  simp only [mainStep, hpc]
  split_ifs with hzero
  · have hnotified : s.notified s.blockNumber := by
      rcases h.counter with ⟨-, -, hone⟩ | ⟨hsome, -⟩
      · omega
      · exact hsome (by rw [hpc]; rfl)
    exact { h with
      fresh := fun i t hu => h.fresh i t (hu.imp_right (Or.imp_right (And.imp_right False.elim)))
      settled := fun i hi => by
        rcases hi with hi | ⟨rfl, -⟩
        · exact h.settled i (.inl hi)
        · exact hnotified
      counter := .inr ⟨nofun, hzero⟩
      ready := nofun
      tests := nofun
      stopped := fun i t hissued => h.stopped i t ⟨hissued.1, .inl (hissued.2.resolve_right
        (by rintro ⟨-, ⟨⟩⟩))⟩ }
  · exact h

theorem UnzipInv.main_resetMutex (h : UnzipInv job s) (hpc : s.main = .resetMutex) :
    UnzipInv job (mainStep job s record) := by
  have hclosed : s.main.isClosed = true := by rw [hpc]; rfl
  simp only [mainStep, hpc]
  exact { h with
    fresh := fun i t hu => h.fresh i t (by
      rcases hu with hu | hu | ⟨hu, -⟩
      · exact .inl hu
      · exact .inr (.inl ((Nat.lt_succ_self _).trans hu))
      · exact .inr (.inl (hu ▸ Nat.lt_succ_self _)))
    settled := fun i hi => h.settled i (by
      rcases hi with hi | ⟨-, hi⟩
      · rcases (Nat.lt_succ_iff.mp hi).lt_or_eq with hlt | heq
        · exact .inl hlt
        · exact .inr ⟨heq, hclosed⟩
      · cases hi)
    counter := .inr ⟨nofun, h.counter_eq_zero (MainPc.not_isOpen hclosed)⟩
    ready := nofun
    tests := nofun
    mutex := fun t ht => by
      have hinit := (h.fresh (s.blockNumber + 1) t (.inr (.inl (Nat.lt_succ_self _)))).1
      dsimp only at ht
      rw [hinit] at ht
      rcases ht with ht | ht <;> cases ht
    stopped := fun i t hissued => h.stopped i t ⟨hissued.1, by
      rcases hissued.2 with hi | ⟨-, ⟨⟩⟩
      rcases (Nat.lt_succ_iff.mp hi).lt_or_eq with hlt | heq
      · exact .inl hlt
      · exact .inr ⟨heq, by rw [hpc]; trivial⟩⟩ }

/-- A step between the wake-up and the next block that leaves the scans alone. -/
theorem UnzipInv.closed_main (h : UnzipInv job s) (hold : s.main.isClosed = true) {pc : MainPc}
    (hnew : pc.isClosed = true) {written : List (ℕ × List UInt8)}
    (hwritten : ∀ w ∈ written, ∃ t, (s.scans (w.1, t)).pc = .notified ∧
      (s.scans (w.1, t)).md.byteblock = w.2)
    (hstop : ∀ t < job.threadCount, pc.hasStopped t → s.main.hasStopped t) :
    UnzipInv job { s with main := pc, written } := by
  have hstep := h.closed_step 0 _ hold hnew rfl rfl id hwritten fun i t hissued =>
    h.stopped_update (fun hp => by
      rw [← hp]
      exact h.stopped i t (hissued.imp_right (Or.imp_right (And.imp_right (hstop t hissued.1)))))
      fun _ => hissued.imp_right (Or.imp_right (And.imp_right (hstop t hissued.1)))
  rwa [Function.update_eq_self] at hstep

theorem UnzipInv.main_getFileBuffer (h : UnzipInv job s) (hpc : s.main = .getFileBuffer) :
    UnzipInv job (mainStep job s record) := by
  have hclosed : s.main.isClosed = true := by rw [hpc]; rfl
  simp only [mainStep, hpc]
  refine h.closed_main hclosed rfl (fun w hw => ?_) (fun t _ ht => absurd ht (Nat.not_lt_zero t))
  rcases List.mem_append.mp hw with hw | hw
  · exact h.written w hw
  · obtain rfl := List.mem_singleton.mp hw
    obtain ⟨t, ht⟩ := h.settled s.blockNumber (.inr ⟨rfl, hclosed⟩)
    exact ⟨t, ht, (h.mutex t (.inr ht)).symm⟩

theorem UnzipInv.main_stopScan (h : UnzipInv job s) (hpc : s.main = .stopScan k) :
    UnzipInv job (mainStep job s record) := by
  have hclosed : s.main.isClosed = true := by rw [hpc]; rfl
  simp only [mainStep, hpc]
  split_ifs with hk
  · refine h.closed_step k (s.scans (s.blockNumber, k)).stopScan hclosed rfl rfl rfl id h.written
      fun i t hissued => h.stopped_update (fun _ => rfl) fun hne => ⟨hissued.1, ?_⟩
    rcases hissued.2 with hi | ⟨rfl, hle⟩
    · exact .inl hi
    · refine .inr ⟨rfl, ?_⟩
      rw [hpc]
      exact lt_of_le_of_ne hle fun heq => hne (by rw [heq])
  · apply h.closed_main hclosed rfl h.written
    intro t ht _
    rw [hpc]
    exact ht.trans_le (Nat.le_of_not_lt hk)

theorem UnzipInv.main_resetMatchFound (h : UnzipInv job s) (hpc : s.main = .resetMatchFound k) :
    UnzipInv job (mainStep job s record) := by
  have hissued' {i t : ℕ} (hissued : ({ s with main := .stopScan (k + 1) } :
      UnzipState).stopIssued job i t) : s.stopIssued job i t :=
    hissued.imp_right (Or.imp_right (And.imp_right fun hlt => by
      rw [hpc]
      exact Nat.lt_succ_iff.mp hlt))
  simp only [mainStep, hpc]
  refine h.closed_step k (s.scans (s.blockNumber, k)).resetMatchFound (by rw [hpc]; rfl) rfl rfl rfl
    nofun h.written fun i t hissued =>
    h.stopped_update (fun hp => ?_) fun _ => hissued' hissued
  obtain ⟨rfl, rfl⟩ := Prod.mk.inj hp
  exact h.stopped _ _ (hissued' hissued)

theorem UnzipInv.mainStep (h : UnzipInv job s)
    (hrecord : job.records[s.blockNumber]? = some record) :
    UnzipInv job (mainStep job s record) := by
  cases hpc : s.main with
  | add => exact h.main_add hpc
  | setBlockHash k => exact h.main_setBlockHash hpc hrecord
  | go k => exact h.main_go hpc
  | wait => exact h.main_wait hpc
  | getMatchStatus =>
    simp only [Go.mainStep, hpc]
    split_ifs
    · exact h.closed_main (by rw [hpc]; rfl) rfl h.written fun t _ ht => ht.elim
    · exact h.closed_main (by rw [hpc]; rfl) rfl h.written fun t _ ht =>
        absurd ht (Nat.not_lt_zero t)
  | getFileBuffer => exact h.main_getFileBuffer hpc
  | stopScan k => exact h.main_stopScan hpc
  | resetMatchFound k => exact h.main_resetMatchFound hpc
  | resetMutex => exact h.main_resetMutex hpc

/-- Every timely run keeps the invariant. -/
theorem UnzipInv.of_reach (h : Reach (unzipStep job) (Timely job) (UnzipState.initial job) s) :
    UnzipInv job s := by
  apply h.invariant .initial
  intro s a s' hinv htimely hstep
  cases a with
  | main =>
    simp only [unzipStep] at hstep
    split_ifs at hstep
    obtain ⟨record, hrecord, rfl⟩ := Option.map_eq_some_iff.mp hstep
    exact hinv.mainStep hrecord
  | goroutine i t =>
    simp only [unzipStep] at hstep
    split_ifs at hstep with _ hrun
    obtain rfl := Option.some.inj hstep
    exact hinv.goroutine htimely hrun

end

end Mdencode.Go
