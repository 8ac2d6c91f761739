import Mdencode.Lib.Progress
import Mdencode.Go.ScanSearch
import Mdencode.Go.ThreadProtocol

/-! When the block loop of `DecodeFile` gets to its end. Main waits in each
block until a goroutine calls `Done`, and only a goroutine that has matched does
so: a block of which no candidate is accepted is never left. The Go runtime ends
a process in which main waits and no goroutine is left. -/

namespace Mdencode.Go

open Mdencode.Bytes Mdencode.Transition

/-- One of the goroutines has an accepted candidate among those it tests. -/
def UnzipJob.Meets (job : UnzipJob) (record : BlockRecord) : Prop :=
  ∃ t < job.threadCount, ∃ k, Tests job.modSize job.threadCount t record.args k ∧
    job.check record (toBE record.args.blocksize
      (candidate job.modSize job.threadCount t record.args k)) = true

/-- Main is past the place where it writes the block. -/
def MainPc.hasWritten : MainPc → Bool
  | .stopScan _ | .resetMatchFound _ | .resetMutex => true
  | _ => false

/-- What the scans of each block are about, and what has been written, in a
timely run. -/
structure LoopInv (job : UnzipJob) (s : UnzipState) : Prop where
  inv : UnzipInv job s
  prepared : s.main ≠ .add → ∀ t < job.threadCount, s.main.beforeGo t → ∃ record,
    job.records[s.blockNumber]? = some record ∧ s.scans (s.blockNumber, t) =
      Scan.init record.args.blocksize job.modSize t job.threadCount
  searches : ∀ i t, ¬ s.unlaunched job i t → ∃ record, job.records[i]? = some record ∧
    Searches job.modSize job.threadCount t record.args (s.scans (i, t))
  rejects : s.main.isOpen = true → ∀ t record, ¬ s.unlaunched job s.blockNumber t →
    job.records[s.blockNumber]? = some record →
    Rejects job.modSize job.threadCount t record.args (job.check record)
      (s.scans (s.blockNumber, t))
  flag : ∀ t, (s.scans (s.blockNumber, t)).pc = .done ∨
    (s.scans (s.blockNumber, t)).pc = .notified → s.mutex.isMatched = true
  order : s.written.map Prod.fst =
    List.range (s.blockNumber + if s.main.hasWritten then 1 else 0)
  bound : s.blockNumber ≤ job.records.length
  live : s.main ≠ .add → s.blockNumber < job.records.length

variable {job : UnzipJob} {s s' : UnzipState} {record : BlockRecord}

theorem LoopInv.initial : LoopInv job (UnzipState.initial job) where
  inv := UnzipInv.initial
  prepared h := absurd rfl h
  searches i t h := by
    refine absurd (.inr ?_) h
    rcases Nat.eq_zero_or_pos i with rfl | hpos
    · exact .inr ⟨rfl, trivial⟩
    · exact .inl hpos
  rejects h := by cases h
  flag t h := by rcases h with h | h <;> cases h
  order := rfl
  bound := Nat.zero_le _
  live h := absurd rfl h

/-- A goroutine that has left its first state has been launched. -/
theorem UnzipInv.launched (h : UnzipInv job s) {i t : ℕ} (hpc : (s.scans (i, t)).pc ≠ .init) :
    ¬ s.unlaunched job i t := fun hu => hpc (h.fresh i t hu).1

/-! A step of a goroutine -/

theorem isMatched_goroutineStep {i t : ℕ} (h : s.mutex.isMatched = true) :
    (goroutineStep s i t).mutex.isMatched = true := by
  simp only [goroutineStep, Scan.mutexStep]
  split
  · rfl
  · exact h

theorem LoopInv.goroutine (h : LoopInv job s) {i t : ℕ}
    (htimely : Timely job s (.goroutine i t)) (hrun : (s.scans (i, t)).pc.isRunning = true) :
    LoopInv job (goroutineStep s i t) where
  inv := h.inv.goroutine htimely hrun
  prepared hadd u hu hbefore := by
    have hpc := (h.inv.fresh s.blockNumber u (.inr (.inr ⟨rfl, hbefore⟩))).1
    have hne : (s.blockNumber, u) ≠ (i, t) := by
      intro heq
      rw [heq] at hpc
      rw [hpc] at hrun
      cases hrun
    obtain ⟨record, hrecord, hscan⟩ := h.prepared hadd u hu hbefore
    exact ⟨record, hrecord, (goroutineStep_ne hne).trans hscan⟩
  searches j u hu := by
    obtain ⟨record, hrecord, hsearches⟩ := h.searches j u hu
    refine ⟨record, hrecord, ?_⟩
    by_cases heq : (j, u) = (i, t)
    · obtain ⟨rfl, rfl⟩ := Prod.mk.inj heq
      rw [goroutineStep_self]
      exact hsearches.step _
    · rw [goroutineStep_ne heq]
      exact hsearches
  rejects hopen u record hu hrecord := by
    have hrejects := h.rejects hopen u record hu hrecord
    have htests := h.inv.tests hopen u
    by_cases heq : (s.blockNumber, u) = (i, t)
    · obtain ⟨rfl, rfl⟩ := Prod.mk.inj heq
      obtain ⟨record', hrecord', hcheck⟩ :=
        htests.check_eq (h.inv.list u) (Pc.ne_init_of_isRunning hrun)
      obtain rfl : record = record' := Option.some.inj (hrecord.symm.trans hrecord')
      change Rejects _ _ _ _ _ ((goroutineStep s s.blockNumber u).scans (s.blockNumber, u))
      rw [goroutineStep_self]
      exact hrejects.step (hcheck ▸ htests.checking)
    · change Rejects _ _ _ _ _ ((goroutineStep s i t).scans (s.blockNumber, u))
      rw [goroutineStep_ne heq]
      exact hrejects
  flag u hu := by
    change ((goroutineStep s i t).scans (s.blockNumber, u)).pc = _ ∨
      ((goroutineStep s i t).scans (s.blockNumber, u)).pc = _ at hu
    by_cases heq : (s.blockNumber, u) = (i, t)
    · rw [heq, goroutineStep_self] at hu
      rcases hu with hu | hu
      · simp only [goroutineStep, Scan.mutexStep, Scan.step_done.mp hu]
        rfl
      · apply isMatched_goroutineStep
        apply h.flag u
        rw [heq]
        exact Scan.step_notified.mp hu
    · rw [goroutineStep_ne heq] at hu
      exact isMatched_goroutineStep (h.flag u hu)
  order := h.order
  bound := h.bound
  live := h.live

/-! A step of main -/

/-- Once it has been woken, main only sets flags of scans before the next block. -/
theorem LoopInv.settle (h : LoopInv job s) (hinv : UnzipInv job s')
    (hlive : s.blockNumber < job.records.length)
    (hblk : s'.blockNumber = s.blockNumber) (hold : ∀ t, ¬ s.main.beforeGo t)
    (hnew : s'.main.isClosed = true)
    (hscans : ∀ p, s'.scans p = s.scans p ∨ s'.scans p = (s.scans p).stopScan ∨
      s'.scans p = (s.scans p).resetMatchFound)
    (hmutex : s'.mutex = s.mutex)
    (horder : s'.written.map Prod.fst =
      List.range (s'.blockNumber + if s'.main.hasWritten then 1 else 0)) : LoopInv job s' where
  inv := hinv
  prepared _ t _ hbefore := absurd hbefore (MainPc.not_beforeGo hnew t)
  searches i t ht := by
    have hlaunched : ¬ s.unlaunched job i t := by
      rintro (hge | hlt | ⟨-, hbefore⟩)
      · exact ht (.inl hge)
      · exact ht (.inr (.inl (hblk.symm ▸ hlt)))
      · exact hold t hbefore
    obtain ⟨record, hrecord, hsearches⟩ := h.searches i t hlaunched
    refine ⟨record, hrecord, ?_⟩
    rcases hscans (i, t) with heq | heq | heq
    · rw [heq]
      exact hsearches
    · rw [heq]
      exact hsearches.stopScan
    · rw [heq]
      exact hsearches.resetMatchFound
  rejects hopen := by
    rw [MainPc.not_isOpen hnew] at hopen
    cases hopen
  flag t ht := by
    have hpc : (s'.scans (s'.blockNumber, t)).pc = (s.scans (s.blockNumber, t)).pc := by
      rw [hblk]
      rcases hscans (s.blockNumber, t) with heq | heq | heq <;> rw [heq] <;> rfl
    rw [hpc] at ht
    rw [hmutex]
    exact h.flag t ht
  order := horder
  bound := hblk ▸ h.bound
  live _ := hblk ▸ hlive

theorem LoopInv.isMatched (h : LoopInv job s) (hclosed : s.main.isClosed = true) :
    s.mutex.isMatched = true := by
  obtain ⟨t, ht⟩ := h.inv.settled s.blockNumber (.inr ⟨rfl, hclosed⟩)
  exact h.flag t (.inr ht)

theorem LoopInv.main_add (h : LoopInv job s) (hrecord : job.records[s.blockNumber]? = some record)
    (hpc : s.main = .add) : LoopInv job (mainStep job s record) := by
  have hinv := h.inv.mainStep hrecord
  have horder := h.order
  simp only [mainStep, hpc] at hinv ⊢
  have hbefore (t : ℕ) : s.unlaunched job s.blockNumber t :=
    .inr (.inr ⟨rfl, by rw [hpc]; trivial⟩)
  refine ⟨hinv, fun _ t ht _ => ⟨record, hrecord, if_pos ⟨rfl, ht⟩⟩, fun i t ht => ?_,
    fun _ t _ ht => ?_, fun t ht => ?_, ?_, h.bound,
    fun _ => (List.getElem?_eq_some_iff.mp hrecord).1⟩
  · have hne : i ≠ s.blockNumber := by
      rintro rfl
      exact ht (.inr (.inr ⟨rfl, Nat.zero_le t⟩))
    dsimp only
    rw [if_neg (fun hcur => hne hcur.1)]
    apply h.searches i t
    rintro (hge | hlt | ⟨heq, -⟩)
    · exact ht (.inl hge)
    · exact ht (.inr (.inl hlt))
    · exact hne heq
  · exact absurd (.inr (.inr ⟨rfl, Nat.zero_le t⟩)) ht
  · dsimp only at ht
    split_ifs at ht
    · rcases ht with ht | ht <;> cases ht
    · rw [(h.inv.fresh _ t (hbefore t)).1] at ht
      rcases ht with ht | ht <;> cases ht
  · rw [hpc] at horder
    exact horder

theorem LoopInv.main_setBlockHash (h : LoopInv job s)
    (hrecord : job.records[s.blockNumber]? = some record) {k : ℕ}
    (hpc : s.main = .setBlockHash k) : LoopInv job (mainStep job s record) := by
  have hinv := h.inv.mainStep hrecord
  have horder := h.order
  rw [hpc] at horder
  simp only [mainStep, hpc] at hinv ⊢
  have hopen : s.main.isOpen = true := by rw [hpc]; rfl
  have hlive := (List.getElem?_eq_some_iff.mp hrecord).1
  split_ifs at hinv ⊢ with hk
  · have hsame {i t : ℕ} {hcListArr : ℕ → HashContextList} :
        ({ s with hcListArr, main := .go k } : UnzipState).unlaunched job i t ↔
          s.unlaunched job i t := by
      simp only [UnzipState.unlaunched, MainPc.beforeGo, hpc]
    refine ⟨hinv, fun _ t ht hbefore => ?_, fun i t ht => ?_, fun _ t record' ht => ?_, h.flag,
      horder, h.bound, fun _ => hlive⟩
    · exact h.prepared (by rw [hpc]; simp) t ht (by rw [hpc]; exact hbefore)
    · exact h.searches i t (fun hu => ht (hsame.mpr hu))
    · exact h.rejects hopen t record' (fun hu => ht (hsame.mpr hu))
  · have hsame {i t : ℕ} (ht : ¬ ({ s with main := .wait } : UnzipState).unlaunched job i t) :
        ¬ s.unlaunched job i t := by
      rintro (hge | hlt | ⟨-, hbefore⟩)
      · exact ht (.inl hge)
      · exact ht (.inr (.inl hlt))
      · rw [hpc] at hbefore
        exact ht (.inl ((Nat.le_of_not_lt hk).trans hbefore))
    refine ⟨hinv, fun _ t _ hbefore => hbefore.elim, fun i t ht => ?_, fun _ t record' ht => ?_,
      h.flag, horder, h.bound, fun _ => hlive⟩
    · exact h.searches i t (hsame ht)
    · exact h.rejects hopen t record' (hsame ht)

/-- The `go` statement. -/
theorem LoopInv.main_go (h : LoopInv job s)
    (hrecord : job.records[s.blockNumber]? = some record) {k : ℕ} (hpc : s.main = .go k) :
    LoopInv job (mainStep job s record) := by
  have hinv := h.inv.mainStep hrecord
  have horder := h.order
  rw [hpc] at horder
  have hopen : s.main.isOpen = true := by rw [hpc]; rfl
  obtain ⟨hk, -⟩ := h.inv.ready k hpc
  obtain ⟨record', hrecord', hscan⟩ :=
    h.prepared (by rw [hpc]; simp) k hk (by rw [hpc]; exact le_rfl)
  obtain rfl : record = record' := Option.some.inj (hrecord.symm.trans hrecord')
  simp only [mainStep, hpc, hscan] at hinv ⊢
  change LoopInv job { s with
    scans := Function.update s.scans (s.blockNumber, k)
      (launched job.modSize job.threadCount k record.args)
    main := .setBlockHash (k + 1) }
  have hother {i t : ℕ} (hne : (i, t) ≠ (s.blockNumber, k)) :
      Function.update s.scans (s.blockNumber, k)
        (launched job.modSize job.threadCount k record.args) (i, t) = s.scans (i, t) :=
    Function.update_of_ne hne _ _
  have hlaunched {i t : ℕ} {scans : ℕ × ℕ → Scan} (hne : (i, t) ≠ (s.blockNumber, k))
      (ht : ¬ ({ s with scans, main := .setBlockHash (k + 1) } : UnzipState).unlaunched job i t) :
      ¬ s.unlaunched job i t := by
    rintro (hge | hlt | ⟨rfl, hbefore⟩)
    · exact ht (.inl hge)
    · exact ht (.inr (.inl hlt))
    · rw [hpc] at hbefore
      have hkt : k ≠ t := by
        rintro rfl
        exact hne rfl
      exact ht (.inr (.inr ⟨rfl, Nat.lt_of_le_of_ne hbefore hkt⟩))
  refine ⟨hinv, fun _ t ht hbefore => ?_, fun i t ht => ?_, fun _ t record' ht hrecord' => ?_,
    fun t ht => ?_, horder, h.bound, fun _ => (List.getElem?_eq_some_iff.mp hrecord).1⟩
  · have hlt : k < t := hbefore
    obtain ⟨record', hrecord', hscan'⟩ :=
      h.prepared (by rw [hpc]; simp) t ht (by rw [hpc]; exact hlt.le)
    refine ⟨record', hrecord', ?_⟩
    dsimp only
    rw [hother (by simp only [ne_eq, Prod.mk.injEq, true_and]; omega)]
    exact hscan'
  · by_cases heq : (i, t) = (s.blockNumber, k)
    · obtain ⟨rfl, rfl⟩ := Prod.mk.inj heq
      refine ⟨record, hrecord, .inl ?_⟩
      dsimp only
      rw [Function.update_self]
      exact ⟨rfl, false, rfl⟩
    · dsimp only
      rw [hother heq]
      exact h.searches i t (hlaunched heq ht)
  · by_cases heq : t = k
    · subst heq
      obtain rfl : record = record' := Option.some.inj (hrecord.symm.trans hrecord')
      dsimp only
      rw [Function.update_self]
      exact .inl rfl
    · have hne : (s.blockNumber, t) ≠ (s.blockNumber, k) := by simp [heq]
      dsimp only
      rw [hother hne]
      exact h.rejects hopen t record' (hlaunched hne ht) hrecord'
  · by_cases heq : t = k
    · subst heq
      dsimp only at ht
      rw [Function.update_self] at ht
      rcases ht with ht | ht <;> cases ht
    · have hne : (s.blockNumber, t) ≠ (s.blockNumber, k) := by simp [heq]
      dsimp only at ht
      rw [hother hne] at ht
      exact h.flag t ht

theorem LoopInv.main_resetMutex (h : LoopInv job s)
    (hrecord : job.records[s.blockNumber]? = some record) (hpc : s.main = .resetMutex) :
    LoopInv job (mainStep job s record) := by
  have hinv := h.inv.mainStep hrecord
  have horder := h.order
  rw [hpc] at horder
  simp only [mainStep, hpc] at hinv ⊢
  refine ⟨hinv, fun hadd => absurd rfl hadd, fun i t ht => ?_, (fun h => by cases h),
    fun t ht => ?_, horder, (List.getElem?_eq_some_iff.mp hrecord).1, fun hadd => absurd rfl hadd⟩
  · apply h.searches i t
    rintro (hge | hlt | ⟨-, hbefore⟩)
    · exact ht (.inl hge)
    · rcases Nat.lt_or_eq_of_le hlt with hlt | heq
      · exact ht (.inr (.inl hlt))
      · exact ht (.inr (.inr ⟨heq.symm, trivial⟩))
    · rw [hpc] at hbefore
      exact hbefore
  · dsimp only at ht
    rw [(h.inv.fresh (s.blockNumber + 1) t (.inr (.inl (Nat.lt_succ_self _)))).1] at ht
    rcases ht with ht | ht <;> cases ht

theorem LoopInv.mainStep (h : LoopInv job s)
    (hrecord : job.records[s.blockNumber]? = some record) :
    LoopInv job (mainStep job s record) := by
  have hinv := h.inv.mainStep hrecord
  have horder := h.order
  have hlive := (List.getElem?_eq_some_iff.mp hrecord).1
  cases hpc : s.main with
  | add => exact h.main_add hrecord hpc
  | setBlockHash k => exact h.main_setBlockHash hrecord hpc
  | go k => exact h.main_go hrecord hpc
  | resetMutex => exact h.main_resetMutex hrecord hpc
  | wait =>
    rw [hpc] at horder
    simp only [Go.mainStep, hpc] at hinv ⊢
    split_ifs at hinv ⊢
    · exact h.settle hinv hlive rfl (fun t => by rw [hpc]; exact id) rfl
        (fun _ => .inl rfl) rfl horder
    · exact h
  | getMatchStatus =>
    rw [hpc] at horder
    simp only [Go.mainStep, hpc, h.isMatched (by rw [hpc]; rfl)] at hinv ⊢
    exact h.settle hinv hlive rfl (fun t => by rw [hpc]; exact id) rfl
      (fun _ => .inl rfl) rfl horder
  | getFileBuffer =>
    rw [hpc] at horder
    simp only [Go.mainStep, hpc] at hinv ⊢
    refine h.settle hinv hlive rfl (fun t => by rw [hpc]; exact id) rfl (fun _ => .inl rfl) rfl ?_
    rw [List.map_append, horder]
    exact List.range_succ.symm
  | stopScan k =>
    rw [hpc] at horder
    simp only [Go.mainStep, hpc] at hinv ⊢
    split_ifs at hinv ⊢
    · refine h.settle hinv hlive rfl (fun t => by rw [hpc]; exact id) rfl (fun p => ?_) rfl horder
      by_cases hp : p = (s.blockNumber, k)
      · subst hp
        exact .inr (.inl (Function.update_self ..))
      · exact .inl (Function.update_of_ne hp _ _)
    · exact h.settle hinv hlive rfl (fun t => by rw [hpc]; exact id) rfl
        (fun _ => .inl rfl) rfl horder
  | resetMatchFound k =>
    rw [hpc] at horder
    simp only [Go.mainStep, hpc] at hinv ⊢
    refine h.settle hinv hlive rfl (fun t => by rw [hpc]; exact id) rfl (fun p => ?_) rfl horder
    by_cases hp : p = (s.blockNumber, k)
    · subst hp
      exact .inr (.inr (Function.update_self ..))
    · exact .inl (Function.update_of_ne hp _ _)

/-- A step is one of main's on a block that is left, or one of a goroutine that is running. -/
theorem unzipStep_cases {a : UnzipAct} (h : unzipStep job s a = some s') :
    (∃ record, a = .main ∧ job.records[s.blockNumber]? = some record ∧
      s' = Go.mainStep job s record) ∨
    ∃ i t, a = .goroutine i t ∧ (s.scans (i, t)).pc.isRunning = true ∧
      s' = goroutineStep s i t := by
  cases a with
  | main =>
    simp only [unzipStep] at h
    split_ifs at h
    obtain ⟨record, hrecord, rfl⟩ := Option.map_eq_some_iff.mp h
    exact .inl ⟨record, rfl, hrecord, rfl⟩
  | goroutine i t =>
    simp only [unzipStep] at h
    split_ifs at h with _ hrun
    obtain rfl := Option.some.inj h
    exact .inr ⟨i, t, rfl, hrun, rfl⟩

theorem LoopInv.step (h : LoopInv job s) {a : UnzipAct} (htimely : Timely job s a)
    (hstep : unzipStep job s a = some s') : LoopInv job s' := by
  obtain ⟨record, -, hrecord, rfl⟩ | ⟨i, t, rfl, hrun, rfl⟩ := unzipStep_cases hstep
  · exact h.mainStep hrecord
  · exact h.goroutine htimely hrun

theorem LoopInv.of_reach (h : Reach (unzipStep job) (Timely job) (UnzipState.initial job) s) :
    LoopInv job s :=
  h.invariant LoopInv.initial fun _ _ _ hinv htimely hstep => hinv.step htimely hstep

/-! The steps that are left -/

/-- The steps of main up to the end of its block, waiting apart. -/
def MainPc.stepsLeft (T : ℕ) : MainPc → ℕ
  | .add => 4 * T + 7
  | .setBlockHash threadNum => 2 * (T - threadNum) + 2 * T + 6
  | .go threadNum => 2 * (T - (threadNum + 1)) + 2 * T + 7
  | .wait => 2 * T + 5
  | .getMatchStatus => 2 * T + 4
  | .getFileBuffer => 2 * T + 3
  | .stopScan threadNum => 2 * (T - threadNum) + 2
  | .resetMatchFound threadNum => 2 * (T - (threadNum + 1)) + 3
  | .resetMutex => 1

variable (job) in
def UnzipState.mainLeft (s : UnzipState) : ℕ :=
  (job.records.length - s.blockNumber) * (4 * job.threadCount + 7) +
    s.main.stepsLeft job.threadCount

variable (job) in
/-- The steps of all goroutines that have been launched. -/
def UnzipState.goroutinesLeft (s : UnzipState) : ℕ :=
  ∑ p ∈ Finset.range (s.blockNumber + 1) ×ˢ Finset.range job.threadCount,
    (s.scans p).stepsLeft job.blockHashList.length

variable (job) in
def UnzipState.workLeft (s : UnzipState) : ℕ ×ₗ ℕ :=
  toLex (s.mainLeft job, s.goroutinesLeft job)

/-- Nobody of the block main waits in has called `Done`. -/
def UnzipState.waits (s : UnzipState) : Prop := s.main = .wait ∧ s.c.counter ≠ 0

/-- Main waits and no goroutine is left: "all goroutines are asleep". -/
def UnzipState.deadlocked (s : UnzipState) : Prop :=
  s.waits ∧ ∀ p, (s.scans p).pc.isRunning = false

theorem mainLeft_mainStep (hlive : s.blockNumber < job.records.length) (hmoves : ¬ s.waits) :
    (mainStep job s record).mainLeft job < s.mainLeft job := by
  have hblocks := Nat.succ_mul (job.records.length - (s.blockNumber + 1)) (4 * job.threadCount + 7)
  rw [show (job.records.length - (s.blockNumber + 1)).succ =
    job.records.length - s.blockNumber by omega] at hblocks
  unfold mainStep
  cases hpc : s.main with
  | setBlockHash k =>
    dsimp only
    split_ifs with hk
    · simp only [UnzipState.mainLeft, hpc, MainPc.stepsLeft]
      omega
    · simp only [UnzipState.mainLeft, hpc, MainPc.stepsLeft]
      omega
  | wait =>
    have hzero : s.c.counter = 0 := by
      by_contra hne
      exact hmoves ⟨hpc, hne⟩
    dsimp only
    rw [if_pos hzero]
    simp only [UnzipState.mainLeft, hpc, MainPc.stepsLeft]
    omega
  | getMatchStatus =>
    dsimp only
    split_ifs
    · simp only [UnzipState.mainLeft, hpc, MainPc.stepsLeft]
      omega
    · simp only [UnzipState.mainLeft, hpc, MainPc.stepsLeft]
      omega
  | stopScan k =>
    dsimp only
    split_ifs with hk
    · simp only [UnzipState.mainLeft, hpc, MainPc.stepsLeft]
      omega
    · simp only [UnzipState.mainLeft, hpc, MainPc.stepsLeft]
      omega
  | _ =>
    simp only [UnzipState.mainLeft, hpc, MainPc.stepsLeft]
    omega

theorem mainStep_of_waits (hwaits : s.waits) : mainStep job s record = s := by
  simp only [mainStep, hwaits.1, if_neg hwaits.2]

/-- A goroutine that is running is one of those launched so far. -/
theorem LoopInv.launched_of_isRunning (h : LoopInv job s) {i t : ℕ}
    (hrun : (s.scans (i, t)).pc.isRunning = true) : i ≤ s.blockNumber ∧ t < job.threadCount ∧
      ¬ s.unlaunched job i t := by
  have hlaunched := h.inv.launched (Pc.ne_init_of_isRunning hrun)
  refine ⟨?_, ?_, hlaunched⟩
  · by_contra hlt
    exact hlaunched (.inr (.inl (Nat.lt_of_not_le hlt)))
  · by_contra hge
    exact hlaunched (.inl (Nat.le_of_not_lt hge))

theorem LoopInv.goroutinesLeft_step (h : LoopInv job s) {i t : ℕ}
    (hrun : (s.scans (i, t)).pc.isRunning = true) :
    (goroutineStep s i t).goroutinesLeft job < s.goroutinesLeft job := by
  obtain ⟨hi, ht, hlaunched⟩ := h.launched_of_isRunning hrun
  have hsteps : ((s.scans (i, t)).step (s.hcListArr t)).stepsLeft job.blockHashList.length <
      (s.scans (i, t)).stepsLeft job.blockHashList.length := by
    rw [← h.inv.list t]
    refine Scan.stepsLeft_step hrun fun hpc => ?_
    obtain ⟨record, -, hsearches⟩ := h.searches i t hlaunched
    rcases hsearches with ⟨hstart, -⟩ | ⟨k, hat⟩
    · rw [hpc] at hstart
      cases hstart
    · rw [hat.step]
      exact Nat.mul_pos (pow_pos two_pos _) (Nat.zero_lt_of_lt ht)
  refine Finset.sum_lt_sum (fun p _ => ?_) ⟨(i, t), ?_, ?_⟩
  · by_cases hp : p = (i, t)
    · subst hp
      rw [goroutineStep_self]
      exact hsteps.le
    · rw [goroutineStep_ne hp]
  · rw [Finset.mem_product, Finset.mem_range, Finset.mem_range]
    exact ⟨Nat.lt_succ_of_le hi, ht⟩
  · rw [goroutineStep_self]
    exact hsteps

theorem unzip_descends (job : UnzipJob) :
    Descends (unzipStep job) (Timely job) (LoopInv job) (UnzipState.workLeft job) where
  keeps _ _ _ h htimely hstep := h.step htimely hstep
  lowers s a s' h _ hstep := by
    obtain ⟨record, -, hrecord, rfl⟩ | ⟨i, t, -, hrun, rfl⟩ := unzipStep_cases hstep
    · by_cases hwaits : s.waits
      · exact .inl (mainStep_of_waits hwaits)
      · exact .inr (Prod.Lex.toLex_lt_toLex.mpr (.inl
          (mainLeft_mainStep (List.getElem?_eq_some_iff.mp hrecord).1 hwaits)))
    · exact .inr (Prod.Lex.toLex_lt_toLex.mpr (.inr ⟨rfl, h.goroutinesLeft_step hrun⟩))

/-! Where a run comes to rest -/

/-- A goroutine that is allowed to go on does so before the run is at rest. -/
theorem LoopInv.not_timely (h : LoopInv job s) (hrest : AtRest (unzipStep job) (Timely job) s)
    {i t : ℕ} (hrun : (s.scans (i, t)).pc.isRunning = true) :
    ¬ Timely job s (.goroutine i t) := by
  intro htimely
  have hsame := hrest (.goroutine i t) (goroutineStep s i t) htimely
    (by rw [unzipStep, h.inv.quiet, if_neg Bool.false_ne_true, if_pos hrun])
  have hless := h.goroutinesLeft_step hrun
  rw [hsame] at hless
  exact lt_irrefl _ hless

theorem timely_of_ne {i t : ℕ} (hstart : (s.scans (i, t)).pc.isStart = false)
    (hexit : (s.scans (i, t)).pc ≠ .exit)
    (hreset : (s.scans (i, t)).resets job.blockHashList = none) :
    Timely job s (.goroutine i t) :=
  ⟨fun h => absurd h (by simp [hstart]), fun h => absurd h hexit,
    fun h => absurd h (by simp [hreset])⟩

/-- Who holds a hash object goes on to read it. -/
theorem LoopInv.holds_atRest (h : LoopInv job s)
    (hrest : AtRest (unzipStep job) (Timely job) s) (i t : ℕ) :
    (s.scans (i, t)).holds job.blockHashList = none := by
  by_contra hholds
  obtain ⟨op, position, start, hpc, hop⟩ := Scan.check_of_holds hholds
  have htimely : Timely job s (.goroutine i t) := by
    apply timely_of_ne
    · rw [hpc]; rfl
    · rw [hpc]; simp
    · rw [Scan.resets, hpc]
      cases op with
      | reset => exact absurd rfl hop
      | write | sum | equal => rfl
  exact h.not_timely hrest (by rw [hpc]; rfl) htimely

/-- Main waits for good only when all goroutines of its block have finished
without a match. -/
theorem LoopInv.finished_of_waits (h : LoopInv job s)
    (hrest : AtRest (unzipStep job) (Timely job) s) (hwaits : s.waits)
    (hrecord : job.records[s.blockNumber]? = some record) {t : ℕ} (ht : t < job.threadCount) :
    (s.scans (s.blockNumber, t)).pc = .finished := by
  have hopen : s.main.isOpen = true := by rw [hwaits.1]; rfl
  have hnot : ¬ s.notified s.blockNumber := by
    rcases h.inv.counter with ⟨-, hnot, -⟩ | ⟨-, hzero⟩
    · exact hnot
    · exact absurd hzero hwaits.2
  have hlaunched {u : ℕ} (hu : u < job.threadCount) : ¬ s.unlaunched job s.blockNumber u := by
    rintro (hge | hlt | ⟨-, hbefore⟩)
    · omega
    · exact absurd hlt (lt_irrefl _)
    · rw [hwaits.1] at hbefore
      exact hbefore
  -- whoever has seen a match goes on to `Done`
  have hblind {u : ℕ} : (s.scans (s.blockNumber, u)).pc.seesMatch = false := by
    cases hpc : (s.scans (s.blockNumber, u)).pc with
    | setFileBuffer =>
      exact absurd (timely_of_ne (by rw [hpc]; rfl) (by rw [hpc]; simp) (by rw [Scan.resets, hpc]))
        (h.not_timely hrest (by rw [hpc]; rfl))
    | done =>
      exact absurd (timely_of_ne (by rw [hpc]; rfl) (by rw [hpc]; simp) (by rw [Scan.resets, hpc]))
        (h.not_timely hrest (by rw [hpc]; rfl))
    | notified => exact absurd ⟨u, hpc⟩ hnot
    | _ => rfl
  have hrejects := h.rejects hopen t record (hlaunched ht) hrecord
  have hstop : (s.scans (s.blockNumber, t)).md.stop = false := by
    rcases hrejects with heq | ⟨k, -, hreject⟩
    · rw [heq]
      rfl
    · exact hreject.stop
  have hinit : (s.scans (s.blockNumber, t)).pc ≠ .init := by
    rcases hrejects with heq | ⟨k, hat, -⟩
    · rw [heq]
      exact fun h => by cases h
    · intro hpc
      have hbegun := hat.begun
      rw [hpc] at hbegun
      cases hbegun
  by_contra hpc
  have hrun : (s.scans (s.blockNumber, t)).pc.isRunning = true := by
    cases hcases : (s.scans (s.blockNumber, t)).pc with
    | init => exact absurd hcases hinit
    | notified => exact absurd ⟨t, hcases⟩ hnot
    | finished => exact absurd hcases hpc
    | _ => rfl
  refine h.not_timely hrest hrun ⟨fun _ => hstop, fun _ _ u _ => hblind, fun hreset i _ hsame => ?_⟩
  rw [← hsame, h.holds_atRest hrest] at hreset
  cases hreset

/-- At rest main is past its last block or waits for good. -/
theorem waits_of_atRest (h : LoopInv job s)
    (hrest : AtRest (unzipStep job) (Timely job) s)
    (hrecord : job.records[s.blockNumber]? = some record) : s.waits := by
  by_contra hmoves
  have hsame := hrest .main (mainStep job s record) trivial
    (by rw [unzipStep, h.inv.quiet, if_neg Bool.false_ne_true, hrecord]; rfl)
  have hless : (mainStep job s record).mainLeft job < s.mainLeft job :=
    mainLeft_mainStep (List.getElem?_eq_some_iff.mp hrecord).1 hmoves
  rw [hsame] at hless
  exact lt_irrefl _ hless

/-- A block that main has left has been met. -/
theorem LoopInv.meets (h : LoopInv job s) {i : ℕ} (hi : i < s.blockNumber)
    (hrecord : job.records[i]? = some record) : job.Meets record := by
  obtain ⟨t, ht⟩ := h.inv.settled i (.inl hi)
  have hpc : (s.scans (i, t)).pc ≠ .init := by rw [ht]; simp
  obtain ⟨record', hrecord', hsearches⟩ := h.searches i t (h.inv.launched hpc)
  obtain rfl : record = record' := Option.some.inj (hrecord.symm.trans hrecord')
  obtain ⟨k, htests, hbyte⟩ := hsearches.found (by rw [ht]; rfl)
  obtain ⟨record', hrecord', haccepts⟩ := h.inv.matched i t (by rw [ht]; rfl)
  obtain rfl : record = record' := Option.some.inj (hrecord.symm.trans hrecord')
  exact ⟨t, h.inv.lt_threadCount hpc, k, htests, hbyte ▸ haccepts⟩

theorem LoopInv.not_meets (h : LoopInv job s) (hrest : AtRest (unzipStep job) (Timely job) s)
    (hrecord : job.records[s.blockNumber]? = some record) : ¬ job.Meets record := by
  rintro ⟨t, ht, k, htests, haccepts⟩
  have hwaits := waits_of_atRest h hrest hrecord
  have hfinished := h.finished_of_waits hrest hwaits hrecord ht
  have hrejects := h.rejects (by rw [hwaits.1]; rfl) t record (by
    rintro (hge | hlt | ⟨-, hbefore⟩)
    · omega
    · exact absurd hlt (lt_irrefl _)
    · rw [hwaits.1] at hbefore
      exact hbefore) hrecord
  rw [hrejects.finished hfinished htests] at haccepts
  cases haccepts

/-- At rest no block is half written. -/
theorem LoopInv.order_atRest (h : LoopInv job s)
    (hrest : AtRest (unzipStep job) (Timely job) s) :
    s.written.map Prod.fst = List.range s.blockNumber := by
  have horder := h.order
  cases hrecord : job.records[s.blockNumber]? with
  | none =>
    have hadd : s.main = .add := by
      by_contra hne
      have hlt := h.live hne
      rw [List.getElem?_eq_none_iff] at hrecord
      omega
    rw [hadd] at horder
    exact horder
  | some record =>
    rw [(waits_of_atRest h hrest hrecord).1] at horder
    exact horder

section
variable {schedule : ℕ → UnzipAct} {run : ℕ → UnzipState} (hfair : Fair schedule)
  (hrun : Scheduled (unzipStep job) (Timely job) (UnzipState.initial job) schedule run)
include hfair hrun

theorem exists_atRest : ∃ n, (∀ m ≥ n, run m = run n) ∧ LoopInv job (run n) ∧
    AtRest (unzipStep job) (Timely job) (run n) := by
  have hdescends := unzip_descends job
  obtain ⟨n, hrest⟩ := hdescends.exists_atRest LoopInv.initial hrun hfair
  exact ⟨n, fun m hm => hrun.atRest hrest hm, hdescends.holds LoopInv.initial hrun n, hrest⟩

/-- Every fair timely run comes to rest past the last block, or at the first
block that no goroutine meets, with the blocks before it written in order. In the
second case all goroutines of that block have returned, and the process ends with
them unless the guard still holds back a goroutine of an earlier block. -/
theorem comes_to_rest :
    ∃ n, (∀ m ≥ n, run m = run n) ∧ (run n).blockNumber ≤ job.records.length ∧
      (∀ i < (run n).blockNumber, ∀ record, job.records[i]? = some record → job.Meets record) ∧
      (∀ record, job.records[(run n).blockNumber]? = some record → ¬ job.Meets record ∧
        (∀ t < job.threadCount, ((run n).scans ((run n).blockNumber, t)).pc = .finished) ∧
        ((run n).deadlocked ∨ ∃ i < (run n).blockNumber, ∃ t,
          ((run n).scans (i, t)).pc.isRunning = true ∧
          ¬ Timely job (run n) (.goroutine i t))) ∧
      (run n).written.map Prod.fst = List.range (run n).blockNumber := by
  obtain ⟨n, hstays, h, hrest⟩ := exists_atRest hfair hrun
  refine ⟨n, hstays, h.bound, fun i hi record => h.meets hi, fun record hrecord => ?_,
    h.order_atRest hrest⟩
  have hwaits := waits_of_atRest h hrest hrecord
  have hfinished {t : ℕ} (ht : t < job.threadCount) :=
    h.finished_of_waits hrest hwaits hrecord ht
  refine ⟨h.not_meets hrest hrecord, fun t => hfinished, ?_⟩
  by_cases hdead : ∀ p, ((run n).scans p).pc.isRunning = false
  · exact .inl ⟨hwaits, hdead⟩
  · rw [not_forall] at hdead
    obtain ⟨⟨i, t⟩, hrunning⟩ := hdead
    rw [Bool.not_eq_false] at hrunning
    obtain ⟨hle, ht, -⟩ := h.launched_of_isRunning hrunning
    have hne : i ≠ (run n).blockNumber := by
      rintro rfl
      rw [hfinished ht] at hrunning
      cases hrunning
    exact .inr ⟨i, lt_of_le_of_ne hle hne, t, hrunning, h.not_timely hrest hrunning⟩

end

instance : Countable UnzipAct := by
  apply Function.Injective.countable (f := fun
    | UnzipAct.main => none
    | UnzipAct.goroutine blockNumber threadNum => some (blockNumber, threadNum))
  rintro (_ | ⟨_, _⟩) (_ | ⟨_, _⟩) h
  · rfl
  · cases h
  · cases h
  · cases h
    rfl

instance : Nonempty UnzipAct := ⟨.main⟩

theorem lateJob_meets : lateJob.Meets ⟨crc32.sum [5], ⟨2, 5, 1⟩⟩ :=
  ⟨0, by decide, 0, ⟨.inl rfl, by decide⟩, by decide +kernel⟩

/-- The one block of the file `05` is written. -/
theorem comes_to_rest_late : ∃ schedule run n, Fair schedule ∧
    Scheduled (unzipStep lateJob) (Timely lateJob) (UnzipState.initial lateJob) schedule run ∧
    (run n).written.map Prod.fst = [0] := by
  obtain ⟨schedule, run, hfair, hrun⟩ :=
    exists_fair_scheduled (unzipStep lateJob) (Timely lateJob) (UnzipState.initial lateJob)
  obtain ⟨n, -, hbound, -, hstuck, horder⟩ := comes_to_rest hfair hrun
  refine ⟨schedule, run, n, hfair, hrun, ?_⟩
  have hone : (run n).blockNumber = 1 := by
    refine le_antisymm hbound (Nat.one_le_iff_ne_zero.mpr fun hzero => ?_)
    rw [hzero] at hstuck
    exact (hstuck _ rfl).1 lateJob_meets
  rw [horder, hone]
  rfl

end Mdencode.Go
