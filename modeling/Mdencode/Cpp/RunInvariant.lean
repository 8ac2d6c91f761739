import Mdencode.Cpp.BlockRestore

/-! What holds in every run of the block loop, however the steps of main and of
the threads are interleaved. A thread of an earlier block may still be working
on an object that main has set up again; it may match, count or write `stopped`
there, but it does not set a stop flag or take a report back. -/

namespace Mdencode.Cpp

open Mdencode.Bytes Mdencode.Transition

section
variable {ρ : Type}

/-- What the reports of threads, of this block or of earlier ones, leave in the mutex. -/
structure MutexInv (T : ℕ) (acts : ℕ → Option Activation) (mutex : MdMutex) : Prop where
  threadCount : mutex.threadCount = T
  searching : mutex.isMatched = .searching → mutex.notFound < T
  passed : (passedThreads T acts).card ≤ mutex.notFound
  unmatched : mutex.isMatched = .searching → ∀ t act buf, acts t = some act →
    ¬ act.pc.hasMatched buf

section
variable {compare : ρ → List UInt8 → Bool} {T t : ℕ} {acts : ℕ → Option Activation}
  {mutex : MdMutex} {act act' : Activation}

theorem MutexInv.start (hT : 1 ≤ T) (mutex : MdMutex) (h : mutex.threadCount = T) :
    MutexInv T (fun _ => none) mutex.resetMatched := by
  refine ⟨h, fun _ => hT, ?_, fun _ t act buf hact => by cases hact⟩
  simp [passedThreads]

theorem MutexInv.setMatched (h : MutexInv T acts mutex) (k : ℕ) :
    MutexInv T acts (mutex.setMatched k) := by
  refine ⟨h.threadCount, fun hsearch => ?_, h.passed, fun hsearch => ?_⟩
  · cases hsearch
  · cases hsearch

theorem searching_of_incNotFound (h : mutex.incNotFound.isMatched = .searching) :
    mutex.isMatched = .searching ∧ mutex.notFound + 1 ≠ mutex.threadCount := by
  simp only [MdMutex.incNotFound] at h
  split_ifs at h with hfull
  exact ⟨h, hfull⟩

/-- One thread more may have passed its ceiling. -/
theorem MutexInv.incNotFound (h : MutexInv T acts mutex) {acts' : ℕ → Option Activation}
    (hcard : (passedThreads T acts').card ≤ (passedThreads T acts).card + 1)
    (hmatched : ∀ t act' buf, acts' t = some act' → act'.pc.hasMatched buf →
      ∃ act, acts t = some act ∧ act.pc.hasMatched buf) :
    MutexInv T acts' mutex.incNotFound := by
  refine ⟨h.threadCount, fun hsearch => ?_, ?_, fun hsearch t act' buf hact' hbuf => ?_⟩
  · obtain ⟨hsearch, hfull⟩ := searching_of_incNotFound hsearch
    have hlt := h.searching hsearch
    have hcount := h.threadCount
    change mutex.notFound + 1 < T
    omega
  · exact hcard.trans (Nat.succ_le_succ h.passed)
  · obtain ⟨act, hact, hbuf⟩ := hmatched t act' buf hact' hbuf
    exact h.unmatched (searching_of_incNotFound hsearch).1 t act buf hact hbuf

/-- A report of a thread of an earlier block. -/
theorem MutexInv.stale (h : MutexInv T acts mutex) (k : ℕ) (pc : Pc) :
    MutexInv T acts (Modscan.mutexStep mutex k pc) := by
  unfold Modscan.mutexStep
  split
  · exact h.setMatched k
  · exact h.incNotFound (Nat.le_succ _) fun t act buf hact hbuf => ⟨act, hact, hbuf⟩
  · exact h

/-- Thread `t` of the block goes on without a report. -/
theorem MutexInv.quiet (h : MutexInv T acts mutex)
    (hpassed : act'.pc.passedCeiling = true ↔
      ∃ act, acts t = some act ∧ act.pc.passedCeiling = true)
    (hmatched : ∀ buf, act'.pc.hasMatched buf → ∃ act, acts t = some act ∧
      act.pc.hasMatched buf) :
    MutexInv T (Function.update acts t (some act')) mutex := by
  refine ⟨h.threadCount, h.searching, (passedThreads_update hpassed).symm ▸ h.passed,
    fun hsearch u act₁ buf hact₁ hbuf => ?_⟩
  rcases eq_or_ne u t with rfl | hne
  · rw [Function.update_self, Option.some.injEq] at hact₁
    subst hact₁
    obtain ⟨act, hact, hbuf⟩ := hmatched buf hbuf
    exact h.unmatched hsearch u act buf hact hbuf
  · rw [Function.update_of_ne hne] at hact₁
    exact h.unmatched hsearch u act₁ buf hact₁ hbuf

theorem card_passedThreads_update (t : ℕ) (act' : Activation) :
    (passedThreads T (Function.update acts t (some act'))).card ≤
      (passedThreads T acts).card + 1 := by
  have hsub : passedThreads T (Function.update acts t (some act')) ⊆
      insert t (passedThreads T acts) := by
    intro u hu
    rw [mem_passedThreads] at hu
    rw [Finset.mem_insert, mem_passedThreads]
    rcases eq_or_ne u t with rfl | hne
    · exact .inl rfl
    · rw [Function.update_of_ne hne] at hu
      exact .inr hu
  exact (Finset.card_le_card hsub).trans (Finset.card_insert_le _ _)

/-- A step of thread `t` of the block. -/
theorem MutexInv.step (compare : ρ → List UInt8 → Bool) (h : MutexInv T acts mutex)
    (hact : acts t = some act) (ms : Modscan ρ) (k : ℕ) :
    MutexInv T (Function.update acts t (some (ms.decodeStep compare act).2))
      (Modscan.mutexStep mutex k act.pc) := by
  by_cases hmatch : ∃ buf, act.pc = .setMatched buf
  · obtain ⟨buf, hpc⟩ := hmatch
    have hpassed : passedThreads T (Function.update acts t
        (some (ms.decodeStep compare act).2)) = passedThreads T acts :=
      passedThreads_update (by simp [hact, hpc, Modscan.decodeStep, Pc.passedCeiling])
    rw [hpc]
    refine ⟨h.threadCount, fun hsearch => ?_, hpassed.symm ▸ h.passed, fun hsearch => ?_⟩
    · cases hsearch
    · cases hsearch
  · by_cases hceil : act.pc = .incNotFound
    · rw [hceil]
      refine h.incNotFound (card_passedThreads_update t _) fun u act₁ buf hact₁ hbuf => ?_
      rcases eq_or_ne u t with rfl | hne
      · rw [Function.update_self, Option.some.injEq] at hact₁
        simp [← hact₁, Modscan.decodeStep, hceil, Pc.hasMatched] at hbuf
      · rw [Function.update_of_ne hne] at hact₁
        exact ⟨act₁, hact₁, hbuf⟩
    · obtain ⟨hpassed, hmatched⟩ := decodeStep_reported compare ms
        (fun buf hpc => hmatch ⟨buf, hpc⟩) hceil
      rw [mutexStep_eq (fun buf hpc => hmatch ⟨buf, hpc⟩) hceil]
      refine h.quiet ?_ fun buf hbuf => ?_
      · simp [hact, hpassed]
      · exact ⟨act, hact, (hmatched buf).mp hbuf⟩

end

variable (job : UnzipJob ρ)

/-- Of the objects main has set up for its block, and of the threads on them. No
step is told apart by the block its thread was started for. -/
structure RunInv (s : UnzipState ρ) : Prop where
  started : ∀ t < job.threadcount, (s.acts (s.blk, t)).isSome = true ↔ s.main.Started t
  absent : ∀ r t, s.blk < r ∨ job.threadcount ≤ t → s.acts (r, t) = none
  stride : ∀ t < job.threadcount, 0 < s.blk ∨ s.main.Initialised t →
    (s.mst t).modulusInt = calcModulusInt job.modsize * job.threadcount
  fresh : s.blk = 0 → ∀ t < job.threadcount, ¬ s.main.Initialised t →
    s.mst t = Modscan.new job.registers
  running : s.main.hasWritten = false → ∀ t < job.threadcount, s.main.Initialised t →
    (s.mst t).stop = false
  unstopped : s.main.hasWritten = false → ∀ t act, s.acts (s.blk, t) = some act →
    act.pc ≠ .exit .stopped ∧ act.pc ≠ .done .stopped
  stopped : ∀ t act, s.acts (s.blk, t) = some act → act.pc.hasStopped = true →
    (s.mst t).stopped = true
  mutex : MutexInv job.threadcount (fun t => s.acts (s.blk, t)) s.mutex
  awaited : ∀ k, s.main = .isStopped k → k < job.threadcount
  bound : s.blk ≤ job.records.length

variable {job} {s s' : UnzipState ρ} {record : BlockRecord ρ}

theorem RunInv.initial (hT : 1 ≤ job.threadcount) : RunInv job (UnzipState.initial job) where
  started := by simp [UnzipState.initial, MainPc.Started]
  absent := by simp [UnzipState.initial]
  stride := by simp [UnzipState.initial, MainPc.Initialised]
  fresh := by simp [UnzipState.initial]
  running := by simp [UnzipState.initial, MainPc.Initialised]
  unstopped := by simp [UnzipState.initial]
  stopped := by simp [UnzipState.initial]
  mutex := MutexInv.start hT (MdMutex.new job.threadcount) rfl
  awaited _ h := by cases h
  bound := Nat.zero_le _

theorem RunInv.lt_threadcount (h : RunInv job s) {r t : ℕ} {act : Activation}
    (hact : s.acts (r, t) = some act) : t < job.threadcount := by
  by_contra hge
  rw [h.absent r t (.inr (Nat.le_of_not_lt hge))] at hact
  cases hact

theorem RunInv.le_blk (h : RunInv job s) {r t : ℕ} {act : Activation}
    (hact : s.acts (r, t) = some act) : r ≤ s.blk := by
  by_contra hlt
  rw [h.absent r t (.inl (Nat.lt_of_not_le hlt))] at hact
  cases hact

theorem MainPc.Started.initialised {p : MainPc} {t : ℕ} (h : p.Started t) : p.Initialised t := by
  cases p with
  | setModscan k => exact h.elim
  | _ => trivial

theorem RunInv.started_of_act (h : RunInv job s) {t : ℕ} {act : Activation}
    (hact : s.acts (s.blk, t) = some act) : s.main.Started t :=
  (h.started t (h.lt_threadcount hact)).mp (by rw [hact]; rfl)

/-- While main sets objects up its block has no threads. -/
theorem RunInv.none_of_setModscan (h : RunInv job s) {k : ℕ} (hpc : s.main = .setModscan k)
    (t : ℕ) : s.acts (s.blk, t) = none := by
  cases hact : s.acts (s.blk, t) with
  | none => rfl
  | some act =>
    have hstarted := h.started_of_act hact
    rw [hpc] at hstarted
    exact hstarted.elim

/-- A thread works on an object that has been set up. -/
theorem RunInv.stride_of_act (h : RunInv job s) {r t : ℕ} {act : Activation}
    (hact : s.acts (r, t) = some act) :
    (s.mst t).modulusInt = calcModulusInt job.modsize * job.threadcount := by
  apply h.stride t (h.lt_threadcount hact)
  rcases (h.le_blk hact).lt_or_eq with hlt | rfl
  · exact .inl (Nat.zero_lt_of_lt hlt)
  · exact .inr (h.started_of_act hact).initialised

/-- Main moves on without touching an object or a thread. -/
theorem RunInv.move (h : RunInv job s) (p : MainPc)
    (hinit : ∀ t < job.threadcount, p.Initialised t ↔ s.main.Initialised t)
    (hstart : ∀ t < job.threadcount, p.Started t ↔ s.main.Started t)
    (hwritten : p.hasWritten = false → s.main.hasWritten = false) (hp : ∀ k, p ≠ .isStopped k) :
    RunInv job { s with main := p } :=
  { h with
    started := fun t ht => (h.started t ht).trans (hstart t ht).symm
    stride := fun t ht hset => h.stride t ht (hset.imp_right (hinit t ht).mp)
    fresh := fun h0 t ht hidle => h.fresh h0 t ht fun hs => hidle ((hinit t ht).mpr hs)
    running := fun hw t ht hset => h.running (hwritten hw) t ht ((hinit t ht).mp hset)
    unstopped := fun hw => h.unstopped (hwritten hw)
    awaited := fun k hk => absurd hk (hp k) }

theorem RunInv.modulusInt_prepareThread (h : RunInv job s) {tnum : ℕ}
    (ht : tnum < job.threadcount) (hpc : s.main = .setModscan tnum) (record : BlockRecord ρ) :
    (prepareThread job s.blk tnum record (s.mst tnum)).modulusInt =
      calcModulusInt job.modsize * job.threadcount := by
  unfold prepareThread
  split_ifs with hblk
  · rw [h.fresh (by omega) tnum ht (by rw [hpc]; exact lt_irrefl tnum)]
    simp [Modscan.setModscan, Modscan.new]
  · exact h.stride tnum ht (.inl (by omega))

theorem stop_prepareThread (blk tnum : ℕ) (record : BlockRecord ρ) (ms : Modscan ρ) :
    (prepareThread job blk tnum record ms).stop = false := by
  unfold prepareThread
  split_ifs <;> rfl

/-- Main sets object `tnum` up, whoever is still working on it. -/
theorem RunInv.setModscan (h : RunInv job s) {tnum : ℕ} (ht : tnum < job.threadcount)
    (hpc : s.main = .setModscan tnum) (record : BlockRecord ρ) :
    RunInv job { s with
      mst := Function.update s.mst tnum (prepareThread job s.blk tnum record (s.mst tnum))
      main := .setModscan (tnum + 1) } := by
  have hnone := h.none_of_setModscan hpc
  have hinit {t : ℕ} (hne : t ≠ tnum) :
      (MainPc.setModscan (tnum + 1)).Initialised t ↔ s.main.Initialised t := by
    rw [hpc]
    simp only [MainPc.Initialised]
    omega
  refine { h with
    started := ?_, stride := ?_, fresh := ?_, running := ?_, unstopped := ?_, stopped := ?_
    awaited := fun _ h => by cases h }
  · intro t ht'
    rw [h.started t ht', hpc]
    rfl
  · intro t ht' hset
    dsimp only at hset ⊢
    rcases eq_or_ne t tnum with rfl | hne
    · rw [Function.update_self]
      exact h.modulusInt_prepareThread ht hpc record
    · rw [Function.update_of_ne hne]
      exact h.stride t ht' (hset.imp_right (hinit hne).mp)
  · intro h0 t ht' hidle
    dsimp only at hidle ⊢
    have hne : t ≠ tnum := by
      rintro rfl
      exact hidle (Nat.lt_succ_self t)
    rw [Function.update_of_ne hne]
    exact h.fresh h0 t ht' fun hs => hidle ((hinit hne).mpr hs)
  · intro _ t ht' hset
    dsimp only at hset ⊢
    rcases eq_or_ne t tnum with rfl | hne
    · rw [Function.update_self]
      exact stop_prepareThread _ _ _ _
    · rw [Function.update_of_ne hne]
      exact h.running (by rw [hpc]; rfl) t ht' ((hinit hne).mp hset)
  · intro _ t act hact
    rw [hnone t] at hact
    cases hact
  · intro t act hact
    rw [hnone t] at hact
    cases hact

/-- Main starts thread `tnum`. -/
theorem RunInv.startThread (h : RunInv job s) {tnum : ℕ} (ht : tnum < job.threadcount)
    (hpc : s.main = .startThread tnum) :
    RunInv job { s with
      acts := Function.update s.acts (s.blk, tnum) (some (Activation.start tnum))
      main := .startThread (tnum + 1) } := by
  have hnone : s.acts (s.blk, tnum) = none := by
    cases hact : s.acts (s.blk, tnum) with
    | none => rfl
    | some act =>
      have hstarted := h.started_of_act hact
      rw [hpc] at hstarted
      exact absurd hstarted (lt_irrefl tnum)
  have hstarted {t : ℕ} (hne : t ≠ tnum) :
      (MainPc.startThread (tnum + 1)).Started t ↔ s.main.Started t := by
    rw [hpc]
    simp only [MainPc.Started]
    omega
  have hother {r t : ℕ} (hne : (r, t) ≠ (s.blk, tnum)) :
      Function.update s.acts (s.blk, tnum) (some (Activation.start tnum)) (r, t) = s.acts (r, t) :=
    Function.update_of_ne hne _ _
  have hround : (fun t => Function.update s.acts (s.blk, tnum) (some (Activation.start tnum))
      (s.blk, t)) = Function.update (fun t => s.acts (s.blk, t)) tnum
        (some (Activation.start tnum)) :=
    Function.update_comp_eq_of_injective s.acts (Prod.mk_right_injective s.blk) tnum _
  refine { h with
    started := ?_, absent := ?_, stride := ?_, fresh := ?_, running := ?_, unstopped := ?_
    stopped := ?_, mutex := ?_, awaited := fun _ h => by cases h }
  · intro t ht'
    dsimp only
    rcases eq_or_ne t tnum with rfl | hne
    · simp [MainPc.Started]
    · rw [hother (by simp [hne]), h.started t ht', hstarted hne]
  · intro r t hrt
    dsimp only at hrt ⊢
    rw [hother (by simp only [ne_eq, Prod.mk.injEq, not_and]; omega)]
    exact h.absent r t hrt
  · intro t ht' _
    exact h.stride t ht' (.inr (by rw [hpc]; trivial))
  · intro _ t _ hidle
    exact absurd trivial hidle
  · intro _ t ht' _
    exact h.running (by rw [hpc]; rfl) t ht' (by rw [hpc]; trivial)
  · intro _ t act hact
    dsimp only at hact
    rcases eq_or_ne t tnum with rfl | hne
    · rw [Function.update_self, Option.some.injEq] at hact
      subst hact
      exact ⟨(fun h => by cases h), fun h => by cases h⟩
    · rw [hother (by simp [hne])] at hact
      exact h.unstopped (by rw [hpc]; rfl) t act hact
  · intro t act hact hstop
    dsimp only at hact ⊢
    rcases eq_or_ne t tnum with rfl | hne
    · rw [Function.update_self, Option.some.injEq] at hact
      subst hact
      cases hstop
    · rw [hother (by simp [hne])] at hact
      exact h.stopped t act hact hstop
  · dsimp only
    rw [hround]
    refine h.mutex.quiet ?_ fun buf hbuf => ?_
    · simp [hnone, Activation.start, Pc.passedCeiling]
    · exact hbuf.elim

/-- Main sets a stop flag. -/
theorem RunInv.stopThread (h : RunInv job s) {tnum : ℕ} (ht : tnum < job.threadcount)
    (hpc : s.main = .stopThread tnum) :
    RunInv job { s with
      mst := Function.update s.mst tnum (s.mst tnum).stopThread
      main := .isStopped tnum } := by
  have hkept (t : ℕ) : (Function.update s.mst tnum (s.mst tnum).stopThread t).modulusInt =
      (s.mst t).modulusInt ∧
      (Function.update s.mst tnum (s.mst tnum).stopThread t).stopped = (s.mst t).stopped := by
    rcases eq_or_ne t tnum with rfl | hne
    · rw [Function.update_self]
      exact ⟨rfl, rfl⟩
    · rw [Function.update_of_ne hne]
      exact ⟨rfl, rfl⟩
  refine { h with
    started := ?_, stride := ?_, fresh := ?_, running := (fun h => by cases h), unstopped :=
      (fun h => by cases h), stopped := ?_
    awaited := ?_ }
  · intro t ht'
    rw [h.started t ht', hpc]
    rfl
  · intro t ht' _
    rw [(hkept t).1]
    exact h.stride t ht' (.inr (by rw [hpc]; trivial))
  · intro _ t _ hidle
    exact absurd trivial hidle
  · intro t act hact hstop
    rw [(hkept t).2]
    exact h.stopped t act hact hstop
  · intro k hk
    obtain rfl := MainPc.isStopped.inj hk
    exact ht

/-- Main goes on to the next block. -/
theorem RunInv.resetMatched (hT : 1 ≤ job.threadcount) (h : RunInv job s)
    (hlive : s.blk < job.records.length) (hpc : s.main = .resetMatched) :
    RunInv job { s with
      mutex := s.mutex.resetMatched, blk := s.blk + 1, main := .setModscan 0 } := by
  have hnone : (fun t => s.acts (s.blk + 1, t)) = fun _ => none := by
    funext t
    exact h.absent _ _ (.inl (Nat.lt_succ_self _))
  refine { h with
    started := ?_, absent := ?_, stride := ?_, fresh := (fun h => by cases h), running := ?_,
      unstopped := ?_
    stopped := ?_, mutex := ?_, awaited := (fun _ h => by cases h), bound := hlive }
  · intro t _
    simp [congrFun hnone t, MainPc.Started]
  · intro r t hrt
    exact h.absent r t (hrt.imp_left fun hr => by dsimp only at hr; omega)
  · intro t ht' _
    exact h.stride t ht' (.inr (by rw [hpc]; trivial))
  · intro _ t _ hset
    exact absurd hset (Nat.not_lt_zero t)
  · intro _ t act hact
    rw [congrFun hnone t] at hact
    cases hact
  · intro t act hact
    rw [congrFun hnone t] at hact
    cases hact
  · dsimp only
    rw [hnone]
    exact MutexInv.start hT _ h.mutex.threadCount

theorem RunInv.mainStep (hT : 1 ≤ job.threadcount) (h : RunInv job s) (record : BlockRecord ρ)
    (hlive : s.blk < job.records.length) : RunInv job (mainStep job s record) := by
  unfold Mdencode.Cpp.mainStep
  cases hpc : s.main with
  | setModscan tnum =>
    dsimp only
    split_ifs with ht
    · exact h.setModscan ht hpc record
    · refine h.move _ (fun t ht' => ?_) (fun t _ => ?_) (fun _ => by rw [hpc]; rfl)
        (fun _ h => by cases h)
      · rw [hpc]
        simp only [MainPc.Initialised, true_iff]
        omega
      · rw [hpc]
        simp [MainPc.Started]
  | startThread tnum =>
    dsimp only
    split_ifs with ht
    · exact h.startThread ht hpc
    · refine h.move _ (fun t _ => ?_) (fun t ht' => ?_) (fun _ => by rw [hpc]; rfl)
        (fun _ h => by cases h)
      · rw [hpc]
        rfl
      · rw [hpc]
        simp only [MainPc.Started, true_iff]
        omega
  | stopThread tnum =>
    dsimp only
    split_ifs with ht
    · exact h.stopThread ht hpc
    · exact h.move _ (fun t _ => by rw [hpc]; rfl) (fun t _ => by rw [hpc]; rfl)
        (fun h => by cases h) (fun _ h => by cases h)
  | isStopped tnum =>
    dsimp only
    split_ifs
    · exact h.move _ (fun t _ => by rw [hpc]; rfl) (fun t _ => by rw [hpc]; rfl)
        (fun h => by cases h) (fun _ h => by cases h)
    · exact h
  | resetMatched => exact h.resetMatched hT hlive hpc
  | writeBlock k =>
    have hmove : RunInv job { s with main := .stopThread 0 } :=
      h.move _ (fun t _ => by rw [hpc]; rfl) (fun t _ => by rw [hpc]; rfl) (fun h => by cases h)
        (fun _ h => by cases h)
    exact { hmove with }
  | poll =>
    dsimp only
    split_ifs
    · exact h
    · exact h.move _ (fun t _ => by rw [hpc]; rfl) (fun t _ => by rw [hpc]; rfl)
        (fun _ => by rw [hpc]; rfl) (fun _ h => by cases h)
  | checkNotFound =>
    dsimp only
    split_ifs
    · exact h.move _ (fun t _ => by rw [hpc]; rfl) (fun t _ => by rw [hpc]; rfl)
        (fun h => by cases h) (fun _ h => by cases h)
    · exact h.move _ (fun t _ => by rw [hpc]; rfl) (fun t _ => by rw [hpc]; rfl)
        (fun _ => by rw [hpc]; rfl) (fun _ h => by cases h)
  | getMatchThread =>
    exact h.move _ (fun t _ => by rw [hpc]; rfl) (fun t _ => by rw [hpc]; rfl)
      (fun _ => by rw [hpc]; rfl) (fun _ h => by cases h)

/-! A step of a thread -/

/-- `decode` only gives up because of the stop flag when it is set. -/
theorem decodeStep_unstopped (compare : ρ → List UInt8 → Bool) {ms : Modscan ρ} {act : Activation}
    (hstop : ms.stop = false) (h : act.pc ≠ .exit .stopped ∧ act.pc ≠ .done .stopped) :
    (ms.decodeStep compare act).2.pc ≠ .exit .stopped ∧
      (ms.decodeStep compare act).2.pc ≠ .done .stopped := by
  unfold Modscan.decodeStep
  cases hpc : act.pc with
  | head => simp [hstop]
  | test => dsimp only; split_ifs <;> simp
  | exit outcome =>
    rw [hpc] at h
    refine ⟨(fun h => by cases h), fun heq => h.1 ?_⟩
    rw [Pc.done.inj heq]
  | done outcome => exact h
  | _ => simp

/-- Whoever has written `stopped` finds it written. -/
theorem decodeStep_hasStopped (compare : ρ → List UInt8 → Bool) {ms : Modscan ρ}
    {act : Activation} (h : act.pc.hasStopped = true → ms.stopped = true)
    (hstop : (ms.decodeStep compare act).2.pc.hasStopped = true) :
    (ms.decodeStep compare act).1.stopped = true := by
  unfold Modscan.decodeStep at hstop ⊢
  cases hpc : act.pc with
  | head =>
    rw [hpc] at hstop
    dsimp only at hstop
    split_ifs at hstop <;> cases hstop
  | test =>
    rw [hpc] at hstop
    dsimp only at hstop
    split_ifs at hstop <;> cases hstop
  | exit outcome => rfl
  | setStopped => rfl
  | done outcome => exact h (by rw [hpc]; rfl)
  | _ =>
    rw [hpc] at hstop
    cases hstop

theorem RunInv.threadStep (h : RunInv job s) {r t : ℕ} {act : Activation}
    (hact : s.acts (r, t) = some act) : RunInv job (threadStep job s r t act) := by
  obtain ⟨_, _, _, _, -, hframe⟩ := (s.mst t).decodeStep_frame job.compareBlockHashList act
  set next := (s.mst t).decodeStep job.compareBlockHashList act with hnext
  have hkept (u : ℕ) : (Function.update s.mst t next.1 u).modulusInt = (s.mst u).modulusInt ∧
      (Function.update s.mst t next.1 u).stop = (s.mst u).stop := by
    rcases eq_or_ne u t with rfl | hne
    · rw [Function.update_self, hframe]
      exact ⟨rfl, rfl⟩
    · rw [Function.update_of_ne hne]
      exact ⟨rfl, rfl⟩
  have hother {k : ℕ × ℕ} (hne : k ≠ (r, t)) :
      Function.update s.acts (r, t) (some next.2) k = s.acts k :=
    Function.update_of_ne hne _ _
  have hround : (fun u => Function.update s.acts (r, t) (some next.2) (s.blk, u)) =
      if r = s.blk then Function.update (fun u => s.acts (s.blk, u)) t (some next.2)
      else fun u => s.acts (s.blk, u) := by
    split_ifs with hr
    · subst hr
      exact Function.update_comp_eq_of_injective s.acts (Prod.mk_right_injective s.blk) t _
    · funext u
      exact hother (by simp only [ne_eq, Prod.mk.injEq, not_and]; omega)
  rw [threadStep_eq]
  refine { h with
    started := ?_, absent := ?_, stride := ?_, fresh := ?_, running := ?_, unstopped := ?_
    stopped := ?_, mutex := ?_ }
  · intro u hu
    dsimp only
    by_cases heq : (s.blk, u) = (r, t)
    · rw [← h.started u hu, heq, Function.update_self, hact]
      rfl
    · rw [hother heq]
      exact h.started u hu
  · intro r' u hru
    have hnone := h.absent r' u hru
    dsimp only
    rw [hother, hnone]
    intro heq
    rw [heq, hact] at hnone
    cases hnone
  · intro u hu hset
    rw [(hkept u).1]
    exact h.stride u hu hset
  · intro h0 u hu hidle
    have hne : u ≠ t := by
      rintro rfl
      obtain rfl : r = s.blk := by
        have := h.le_blk hact
        dsimp only at h0
        omega
      exact hidle (h.started_of_act hact).initialised
    dsimp only
    rw [Function.update_of_ne hne]
    exact h.fresh h0 u hu hidle
  · intro hw u hu hset
    rw [(hkept u).2]
    exact h.running hw u hu hset
  · intro hw u act' hact'
    dsimp only at hw hact'
    by_cases heq : (s.blk, u) = (r, t)
    · obtain ⟨rfl, rfl⟩ := Prod.mk.inj heq
      rw [Function.update_self, Option.some.injEq] at hact'
      subst hact'
      exact decodeStep_unstopped _ (h.running hw u (h.lt_threadcount hact)
        (h.started_of_act hact).initialised) (h.unstopped hw u act hact)
    · rw [hother heq] at hact'
      exact h.unstopped hw u act' hact'
  · intro u act' hact' hstop
    dsimp only at hact' ⊢
    by_cases heq : (s.blk, u) = (r, t)
    · obtain ⟨rfl, rfl⟩ := Prod.mk.inj heq
      rw [Function.update_self, Option.some.injEq] at hact'
      subst hact'
      rw [Function.update_self]
      exact decodeStep_hasStopped _ (h.stopped u act hact) hstop
    · rw [hother heq] at hact'
      have hset := h.stopped u act' hact' hstop
      rcases eq_or_ne u t with rfl | hne
      · rw [Function.update_self]
        exact stopped_decodeStep _ act hset
      · rw [Function.update_of_ne hne]
        exact hset
  · dsimp only
    rw [hround]
    split_ifs with hr
    · subst hr
      exact h.mutex.step _ hact _ _
    · exact h.mutex.stale _ _

theorem RunInv.step (hT : 1 ≤ job.threadcount) (h : RunInv job s) {a : UnzipAct}
    (hstep : unzipStep job s a = some s') : RunInv job s' := by
  obtain ⟨record, -, hrecord, rfl⟩ | ⟨r, t, act, -, hact, -, rfl⟩ := unzipStep_cases hstep
  · exact h.mainStep hT record (List.getElem?_eq_some_iff.mp hrecord).1
  · exact h.threadStep hact

theorem RunInv.of_reach (hT : 1 ≤ job.threadcount)
    (h : Reach (unzipStep job) Free (UnzipState.initial job) s) : RunInv job s :=
  h.invariant (RunInv.initial hT) fun _ _ _ hinv _ hstep => hinv.step hT hstep

/-! What any run has written -/

/-- How many blocks main has had its chance to write. -/
def UnzipState.passed (s : UnzipState ρ) : ℕ := s.blk + if s.main.hasWritten then 1 else 0

/-- At most one chunk has been written for a block, the blocks in their order. -/
structure OutInv (job : UnzipJob ρ) (s : UnzipState ρ) : Prop where
  order : (s.out.map Chunk.block).Pairwise (· < ·)
  passed : ∀ c ∈ s.out, c.block < s.passed
  length : s.output.length ≤ ((job.records.take s.passed).map BlockRecord.blocksize).sum

theorem OutInv.later (h : OutInv job s) (hout : s'.out = s.out) (hle : s.passed ≤ s'.passed) :
    OutInv job s' where
  order := by
    rw [hout]
    exact h.order
  passed c hc := by
    rw [hout] at hc
    exact (h.passed c hc).trans_le hle
  length := by
    rw [UnzipState.output, hout]
    exact h.length.trans
      (((List.take_sublist_take_left hle).map _).sum_le_sum fun _ _ => Nat.zero_le _)

theorem OutInv.write (h : OutInv job s) (hrecord : job.records[s.blk]? = some record)
    (hwritten : s.main.hasWritten = false) {c : Chunk} (hblock : c.block = s.blk)
    (hlen : c.bytes.length ≤ record.blocksize) (hout : s'.out = s.out ++ [c])
    (hpassed : s'.passed = s.blk + 1) : OutInv job s' where
  order := by
    rw [hout, List.map_append, List.pairwise_append]
    refine ⟨h.order, List.pairwise_singleton _ _, fun i hi j hj => ?_⟩
    obtain ⟨c', hc', rfl⟩ := List.mem_map.mp hi
    have hbefore := h.passed c' hc'
    rw [UnzipState.passed, hwritten] at hbefore
    rw [List.map_singleton, List.mem_singleton, hblock] at hj
    rw [hj]
    exact hbefore
  passed c' hc' := by
    rw [hpassed]
    rw [hout, List.mem_append, List.mem_singleton] at hc'
    rcases hc' with hold | rfl
    · have hbefore := h.passed c' hold
      rw [UnzipState.passed, hwritten] at hbefore
      exact Nat.lt_succ_of_lt hbefore
    · rw [hblock]
      exact Nat.lt_succ_self _
  length := by
    have hbefore := h.length
    rw [UnzipState.passed, hwritten, if_neg Bool.false_ne_true, Nat.add_zero] at hbefore
    obtain ⟨hlt, hget⟩ := List.getElem?_eq_some_iff.mp hrecord
    rw [hpassed, List.take_add_one, hrecord, Option.toList_some, List.map_append, List.sum_append,
      List.map_singleton, List.sum_singleton, UnzipState.output, hout, List.flatMap_append,
      List.length_append, List.flatMap_singleton]
    exact Nat.add_le_add hbefore hlen

theorem OutInv.mainStep (h : OutInv job s) (hrecord : job.records[s.blk]? = some record) :
    OutInv job (mainStep job s record) := by
  obtain ⟨hout, hblk, hwritten⟩ | ⟨hpc, -, heq⟩ | ⟨k, hpc, heq⟩ | ⟨hpc, heq⟩ :=
    mainStep_effect job s record
  · refine h.later hout ?_
    rw [UnzipState.passed, UnzipState.passed, hblk, hwritten]
  · rw [heq]
    refine h.later rfl ?_
    simp [UnzipState.passed, hpc, MainPc.hasWritten]
  · rw [heq]
    exact h.write hrecord (by rw [hpc]; rfl) rfl (by simp) rfl rfl
  · rw [heq]
    refine h.later rfl ?_
    simp [UnzipState.passed, hpc, MainPc.hasWritten]

theorem OutInv.of_reach (h : Reach (unzipStep job) Free (UnzipState.initial job) s) :
    OutInv job s := by
  refine h.invariant ⟨List.Pairwise.nil, by simp [UnzipState.initial], Nat.zero_le _⟩
    fun s a s' hinv _ hstep => ?_
  obtain ⟨record, -, hrecord, rfl⟩ | ⟨r, t, act, -, -, -, rfl⟩ := unzipStep_cases hstep
  · exact hinv.mainStep hrecord
  · exact hinv.later rfl le_rfl

end

end Mdencode.Cpp
