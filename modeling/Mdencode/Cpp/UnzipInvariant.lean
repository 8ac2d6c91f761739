import Mdencode.Cpp.RoundLedger

/-! The invariant of the block loop in runs where main never sets an object up
again while a thread of an earlier block is still running on it. -/

namespace Mdencode.Cpp

open Mdencode.Bytes Mdencode.Transition

section
variable {ρ : Type} {compare : ρ → List UInt8 → Bool} {T t : ℕ} {act : Activation}

/-! One call of `decode` on its object -/

theorem hasStopped_of_reach {ms₀ : Modscan ρ} {s : Modscan ρ × Activation}
    (h : Reach (decodeAct compare) Free (ms₀, Activation.start t) s) (hms₀ : ms₀.stopped = false) :
    s.1.stopped = true → s.2.pc.hasStopped = true := by
  refine h.invariant (P := fun s => s.1.stopped = true → s.2.pc.hasStopped = true) ?_ ?_
  · simp [hms₀]
  · rintro ⟨ms, act⟩ a s' hs - hstep
    cases a with
    | step =>
      obtain rfl : ms.decodeStep compare act = s' := by simpa [decodeAct] using hstep
      dsimp only at hs ⊢
      unfold Modscan.decodeStep
      cases hpc : act.pc with
      | head => exact fun hstop => absurd (hs hstop) (by simp [hpc, Pc.hasStopped])
      | test => dsimp only; split_ifs <;> simpa [hpc, Pc.hasStopped] using hs
      | advance => simpa [hpc, Pc.hasStopped] using hs
      | setMatched buf => simpa [hpc, Pc.hasStopped] using hs
      | incNotFound => simpa [hpc, Pc.hasStopped] using hs
      | setStopped => simp [Pc.hasStopped]
      | exit outcome => simp [Pc.hasStopped]
      | done outcome => simp [hpc, Pc.hasStopped]
    | stopThread =>
      obtain rfl : (ms.stopThread, act) = s' := by simpa [decodeAct] using hstep
      exact hs

theorem Modscan.Used.of_reach {m B : ℕ} {ms₀ : Modscan ρ} {s : Modscan ρ × Activation}
    (h : Reach (decodeAct compare) Free (ms₀, act) s) (hms₀ : ms₀.Used compare m T t B) :
    s.1.Used compare m T t B := by
  refine h.invariant (P := fun s => s.1.Used compare m T t B) hms₀ ?_
  rintro ⟨ms, act⟩ a s' hs - hstep
  cases a with
  | step =>
    obtain rfl : ms.decodeStep compare act = s' := by simpa [decodeAct] using hstep
    exact hs.decodeStep act
  | stopThread =>
    obtain rfl : (ms.stopThread, act) = s' := by simpa [decodeAct] using hstep
    exact hs.stopThread

theorem Modscan.Prepared.used {m B rem exp : ℕ} {pos : BlockPosition} {ms : Modscan ρ}
    (h : ms.Prepared compare m T t B rem exp B pos) : ms.Used compare m T t B := by
  cases h with
  | first hcl₀ hcl modexp => exact (Used.setModscan hcl₀ rem exp modexp).setRegisters hcl
  | later hcl hused _ => exact (hused.resetThread rem exp).setRegisters hcl

end

/-! The invariant of the block loop -/

section
variable {ρ : Type}

/-- Main has set object `t` up for the current block. -/
def MainPc.Initialised (t : ℕ) : MainPc → Prop
  | .setModscan tnum => t < tnum
  | _ => True

/-- Main has started thread `t` for the current block. -/
def MainPc.Started (t : ℕ) : MainPc → Prop
  | .setModscan _ => False
  | .startThread tnum => t < tnum
  | _ => True

def blockPosition (blk : ℕ) : BlockPosition := if blk < 1 then .first else .later

variable (job : UnzipJob ρ)

/-- What `mst[t]` holds when main has set it up for block `blk`. -/
def PreparedFor (blk t : ℕ) (record : BlockRecord ρ) (ms : Modscan ρ) : Prop :=
  ms.Prepared job.compareBlockHashList job.modsize job.threadcount t job.blocksize
    record.modulusIntRemainder record.modexponent record.blocksize (blockPosition blk) ∧
    ms.hcl = record.hregister ∧ ms.stopped = false

/-- The object is as it was set up, or in the scan that started from there. -/
def Scanning (t : ℕ) (ms₀ ms : Modscan ρ) : Option Activation → Prop
  | none => ms = ms₀
  | some act => Reach (decodeAct job.compareBlockHashList) Free (ms₀, Activation.start t) (ms, act)

/-- What main knows from where it is. -/
def MainFacts (s : UnzipState ρ) : MainPc → Prop
  | .checkNotFound => s.mutex.isMatched ≠ .searching
  | .getMatchThread => s.mutex.isMatched = .found
  | .writeBlock k => k < job.threadcount ∧
    ∃ act buf, s.acts (s.blk, k) = some act ∧ act.pc.hasMatched buf
  | .stopThread k | .isStopped k => ∀ t < k, t < job.threadcount → (s.mst t).stopped = true
  | .resetMatched => ∀ t < job.threadcount, (s.mst t).stopped = true
  | _ => True

structure UnzipInv (s : UnzipState ρ) : Prop where
  started : ∀ t < job.threadcount, (s.acts (s.blk, t)).isSome = true ↔ s.main.Started t
  absent : ∀ r t, s.blk < r ∨ job.threadcount ≤ t → s.acts (r, t) = none
  stale : ∀ r < s.blk, ∀ t act, s.acts (r, t) = some act →
    act.pc.hasStopped = true ∧ (s.main.Initialised t → act.pc.isDone = true)
  ready : ∀ t < job.threadcount, s.main.Initialised t → ∃ record ms₀,
    job.records[s.blk]? = some record ∧ PreparedFor job s.blk t record ms₀ ∧
      Scanning job t ms₀ (s.mst t) (s.acts (s.blk, t))
  idle : ∀ t < job.threadcount, ¬ s.main.Initialised t →
    (s.blk = 0 → s.mst t = Modscan.new job.registers) ∧
    (0 < s.blk → s.blk < job.records.length → (s.mst t).Used job.compareBlockHashList job.modsize
      job.threadcount t job.blocksize)
  ledger : Ledger job.threadcount (fun t => s.acts (s.blk, t)) s.mutex
  main : MainFacts job s s.main
  out : ∀ c ∈ s.out, c.block ≤ s.blk ∧
    ∃ act, s.acts (c.block, c.thread) = some act ∧ act.pc.hasMatched c.bytes

/-- Main does not set an object up while an earlier thread is still running on it. -/
def Disciplined (s : UnzipState ρ) (a : UnzipAct) : Prop :=
  a = .main → ∀ tnum, s.main = .setModscan tnum → ∀ r < s.blk, ∀ act,
    s.acts (r, tnum) = some act → act.pc.isDone = true

variable {job}

theorem UnzipInv.initial : UnzipInv job (UnzipState.initial job) where
  started := by simp [UnzipState.initial, MainPc.Started]
  absent := by simp [UnzipState.initial]
  stale := by simp [UnzipState.initial]
  ready := by simp [UnzipState.initial, MainPc.Initialised]
  idle := by simp [UnzipState.initial]
  ledger := Ledger.start job.threadcount (MdMutex.new job.threadcount) rfl
  main := trivial
  out := by simp [UnzipState.initial]

variable {s s' : UnzipState ρ} {record : BlockRecord ρ}

/-- Main moves on without touching an object or a thread. -/
theorem UnzipInv.move (h : UnzipInv job s) (p : MainPc) (hp : MainFacts job s p)
    (hinit : ∀ t < job.threadcount, p.Initialised t ↔ s.main.Initialised t)
    (hstart : ∀ t < job.threadcount, p.Started t ↔ s.main.Started t) :
    UnzipInv job { s with main := p } := by
  refine { h with
    started := fun t ht => (h.started t ht).trans (hstart t ht).symm
    stale := fun r hr t act hact => ?_
    ready := fun t ht ht' => h.ready t ht ((hinit t ht).mp ht')
    idle := fun t ht ht' => h.idle t ht fun hs => ht' ((hinit t ht).mpr hs)
    main := by unfold MainFacts at hp ⊢; exact hp }
  obtain ⟨hstopped, hdone⟩ := h.stale r hr t act hact
  refine ⟨hstopped, fun ht' => hdone ((hinit t ?_).mp ht')⟩
  by_contra hge
  rw [h.absent r t (.inr (by omega))] at hact
  cases hact

theorem UnzipInv.lt_threadcount (h : UnzipInv job s) {r t : ℕ} {act : Activation}
    (hact : s.acts (r, t) = some act) : t < job.threadcount := by
  by_contra hge
  rw [h.absent r t (.inr (by omega))] at hact
  cases hact

theorem preparedFor_prepareThread (h : UnzipInv job s)
    (hrecord : job.records[s.blk]? = some record) {tnum : ℕ} (ht : tnum < job.threadcount)
    (hpc : s.main = .setModscan tnum) :
    PreparedFor job s.blk tnum record (prepareThread job s.blk tnum record (s.mst tnum)) := by
  have hlt : s.blk < job.records.length := (List.getElem?_eq_some_iff.mp hrecord).1
  obtain ⟨hfirst, hlater⟩ := h.idle tnum ht (by simp [hpc, MainPc.Initialised])
  unfold PreparedFor prepareThread blockPosition
  split_ifs with hblk
  · rw [hfirst (by omega)]
    exact ⟨.first _ _ _, rfl, rfl⟩
  · exact ⟨.later _ (hlater (by omega) hlt) (job.blocksize_le _ _ hrecord), rfl, rfl⟩

/-- Main sets object `tnum` up; no thread is left on it. -/
theorem UnzipInv.setModscan (h : UnzipInv job s) (hrecord : job.records[s.blk]? = some record)
    {tnum : ℕ} (ht : tnum < job.threadcount) (hpc : s.main = .setModscan tnum)
    (hok : ∀ r < s.blk, ∀ act, s.acts (r, tnum) = some act → act.pc.isDone = true) :
    UnzipInv job { s with
      mst := Function.update s.mst tnum (prepareThread job s.blk tnum record (s.mst tnum))
      main := .setModscan (tnum + 1) } := by
  have hprepared := preparedFor_prepareThread h hrecord ht hpc
  have hnone (t : ℕ) (ht : t < job.threadcount) : s.acts (s.blk, t) = none := by
    have hstarted := h.started t ht
    rw [hpc] at hstarted
    exact Option.not_isSome_iff_eq_none.mp fun hsome => hstarted.mp hsome
  have hinit (t : ℕ) : (MainPc.setModscan (tnum + 1)).Initialised t ↔
      t = tnum ∨ s.main.Initialised t := by
    rw [hpc]
    simp only [MainPc.Initialised]
    omega
  refine { h with started := ?_, stale := ?_, ready := ?_, idle := ?_, main := trivial }
  · intro t ht
    rw [h.started t ht, hpc]
    rfl
  · intro r hr t act hact
    obtain ⟨hstopped, hdone⟩ := h.stale r hr t act hact
    refine ⟨hstopped, fun ht' => ?_⟩
    rcases (hinit t).mp ht' with rfl | ht'
    · exact hok r hr act hact
    · exact hdone ht'
  · intro t ht' hready
    rcases (hinit t).mp hready with rfl | hbefore
    · refine ⟨record, _, hrecord, hprepared, ?_⟩
      dsimp only
      rw [hnone t ht, Function.update_self]
      rfl
    · have hne : t ≠ tnum := by
        rintro rfl
        rw [hpc] at hbefore
        exact lt_irrefl t hbefore
      dsimp only
      rw [Function.update_of_ne hne]
      exact h.ready t ht' hbefore
  · intro t ht' hidle
    rw [hinit, not_or] at hidle
    dsimp only
    rw [Function.update_of_ne hidle.1]
    exact h.idle t ht' hidle.2

/-- Main starts thread `tnum`. -/
theorem UnzipInv.startThread (h : UnzipInv job s) {tnum : ℕ} (ht : tnum < job.threadcount)
    (hpc : s.main = .startThread tnum) :
    UnzipInv job { s with
      acts := Function.update s.acts (s.blk, tnum) (some (Activation.start tnum))
      main := .startThread (tnum + 1) } := by
  have hnone : s.acts (s.blk, tnum) = none := by
    have hstarted := h.started tnum ht
    rw [hpc] at hstarted
    apply Option.not_isSome_iff_eq_none.mp
    intro hsome
    exact absurd (hstarted.mp hsome) (by simp [MainPc.Started])
  have hstarted (t : ℕ) : (MainPc.startThread (tnum + 1)).Started t ↔
      t = tnum ∨ s.main.Started t := by
    rw [hpc]
    simp only [MainPc.Started]
    omega
  have hother {r t : ℕ} (hne : (r, t) ≠ (s.blk, tnum)) :
      Function.update s.acts (s.blk, tnum) (some (Activation.start tnum)) (r, t) = s.acts (r, t) :=
    Function.update_of_ne hne _ _
  have hround : (fun t => Function.update s.acts (s.blk, tnum) (some (Activation.start tnum))
      (s.blk, t)) = Function.update (fun t => s.acts (s.blk, t)) tnum
        (some (Activation.start tnum)) :=
    Function.update_comp_eq_of_injective s.acts (Prod.mk_right_injective s.blk) tnum _
  refine { h with
    started := ?_, absent := ?_, stale := ?_, ready := ?_, idle := ?_, ledger := ?_,
    main := trivial, out := ?_ }
  · intro t ht'
    dsimp only
    rw [hstarted]
    rcases eq_or_ne t tnum with rfl | hne
    · simp
    · rw [hother (by simp [hne]), h.started t ht']
      simp [hne]
  · intro r t hrt
    dsimp only
    rw [hother]
    · exact h.absent r t hrt
    · simp only [ne_eq, Prod.mk.injEq, not_and]
      dsimp only at hrt
      omega
  · intro r hr t act hact
    dsimp only at hr hact
    rw [hother (by simp only [ne_eq, Prod.mk.injEq, not_and]; omega)] at hact
    obtain ⟨hstopped, hdone⟩ := h.stale r hr t act hact
    exact ⟨hstopped, fun _ => hdone (by rw [hpc]; trivial)⟩
  · intro t ht' _
    obtain ⟨record, ms₀, hrecord, hprepared, hscan⟩ := h.ready t ht' (by rw [hpc]; trivial)
    refine ⟨record, ms₀, hrecord, hprepared, ?_⟩
    dsimp only
    rcases eq_or_ne t tnum with rfl | hne
    · rw [hnone] at hscan
      rw [Function.update_self, show s.mst t = ms₀ from hscan]
      exact Reach.start
    · rw [hother (by simp [hne])]
      exact hscan
  · intro t _ hidle
    exact absurd trivial hidle
  · dsimp only
    rw [hround]
    refine h.ledger.quiet ?_ fun buf => ?_
    · simp [hnone, Activation.start, Pc.passedCeiling]
    · simp [hnone, Activation.start, Pc.hasMatched]
  · intro c hc
    obtain ⟨hblk, act, hact, hbuf⟩ := h.out c hc
    refine ⟨hblk, act, ?_, hbuf⟩
    dsimp only
    rw [Function.update_of_ne, hact]
    rintro heq
    rw [heq, hnone] at hact
    cases hact

/-- Main sets a stop flag. -/
theorem UnzipInv.stopThread (h : UnzipInv job s) {tnum : ℕ} (ht : tnum < job.threadcount)
    (hpc : s.main = .stopThread tnum) :
    UnzipInv job { s with
      mst := Function.update s.mst tnum (s.mst tnum).stopThread
      main := .isStopped tnum } := by
  have hmain := h.main
  rw [hpc] at hmain
  refine { h with started := ?_, stale := ?_, ready := ?_, idle := ?_, main := ?_ }
  · intro t ht'
    rw [h.started t ht', hpc]
    rfl
  · intro r hr t act hact
    obtain ⟨hstopped, hdone⟩ := h.stale r hr t act hact
    exact ⟨hstopped, fun _ => hdone (by rw [hpc]; trivial)⟩
  · intro t ht' _
    obtain ⟨record, ms₀, hrecord, hprepared, hscan⟩ := h.ready t ht' (by rw [hpc]; trivial)
    refine ⟨record, ms₀, hrecord, hprepared, ?_⟩
    have hsome : (s.acts (s.blk, t)).isSome = true := (h.started t ht').mpr (by rw [hpc]; trivial)
    obtain ⟨act, hact⟩ := Option.isSome_iff_exists.mp hsome
    dsimp only
    rw [hact] at hscan ⊢
    rcases eq_or_ne t tnum with rfl | hne
    · rw [Function.update_self]
      exact Reach.next .stopThread hscan trivial rfl
    · rw [Function.update_of_ne hne]
      exact hscan
  · intro t _ hidle
    exact absurd trivial hidle
  · intro t hlt ht'
    dsimp only
    rw [Function.update_of_ne (by omega)]
    exact hmain t hlt ht'

/-- Main goes on to the next block once every object says it has stopped. -/
theorem UnzipInv.resetMatched (h : UnzipInv job s) (hpc : s.main = .resetMatched) :
    UnzipInv job { s with
      mutex := s.mutex.resetMatched, blk := s.blk + 1, main := .setModscan 0 } := by
  have hmain := h.main
  rw [hpc] at hmain
  have hnone : (fun t => s.acts (s.blk + 1, t)) = fun _ => none := by
    funext t
    exact h.absent _ _ (.inl (Nat.lt_succ_self _))
  refine { h with
    started := ?_, absent := ?_, stale := ?_, ready := ?_, idle := ?_, ledger := ?_,
    main := trivial, out := ?_ }
  · intro t _
    simp [congrFun hnone t, MainPc.Started]
  · intro r t hrt
    exact h.absent r t (hrt.imp_left fun hr => by dsimp only at hr; omega)
  · intro r hr t act hact
    refine ⟨?_, fun hready => absurd hready (by simp [MainPc.Initialised])⟩
    dsimp only at hr hact
    rcases Nat.lt_succ_iff_lt_or_eq.mp hr with hr | rfl
    · exact (h.stale r hr t act hact).1
    · have ht := h.lt_threadcount hact
      obtain ⟨record, ms₀, -, hprepared, hscan⟩ := h.ready t ht (by rw [hpc]; trivial)
      rw [hact] at hscan
      exact hasStopped_of_reach hscan hprepared.2.2 (hmain t ht)
  · intro t _ hready
    exact absurd hready (by simp [MainPc.Initialised])
  · intro t ht _
    refine ⟨fun h0 => absurd h0 (Nat.succ_ne_zero _), fun _ hlt => ?_⟩
    dsimp only at hlt ⊢
    obtain ⟨record, ms₀, hrecord, hprepared, hscan⟩ := h.ready t ht (by rw [hpc]; trivial)
    have hused := hprepared.1
    rw [job.blocksize_eq _ _ hrecord hlt] at hused
    cases hact : s.acts (s.blk, t) with
    | none =>
      rw [hact] at hscan
      rw [show s.mst t = ms₀ from hscan]
      exact hused.used
    | some act =>
      rw [hact] at hscan
      exact Modscan.Used.of_reach hscan hused.used
  · dsimp only
    rw [hnone]
    exact Ledger.start _ _ h.ledger.threadCount
  · intro c hc
    obtain ⟨hblk, hact⟩ := h.out c hc
    exact ⟨Nat.le_succ_of_le hblk, hact⟩

theorem UnzipInv.initialised_of_act (h : UnzipInv job s) {t : ℕ} {act : Activation}
    (hact : s.acts (s.blk, t) = some act) : s.main.Initialised t := by
  have hstarted : s.main.Started t :=
    (h.started t (h.lt_threadcount hact)).mp (by rw [hact]; rfl)
  cases hpc : s.main with
  | setModscan k => rw [hpc] at hstarted; exact hstarted.elim
  | _ => trivial

/-- A thread of the current block is in the scan its object was set up for. -/
theorem UnzipInv.scanAt (h : UnzipInv job s) {t : ℕ} {act : Activation}
    (hact : s.acts (s.blk, t) = some act) :
    ∃ record ms₀ i, job.records[s.blk]? = some record ∧ PreparedFor job s.blk t record ms₀ ∧
      Reach (decodeAct job.compareBlockHashList) Free (ms₀, Activation.start t) (s.mst t, act) ∧
      ScanAt job.compareBlockHashList ms₀ (decodeLineCount t) i (s.mst t) act := by
  obtain ⟨record, ms₀, hrecord, hprepared, hscan⟩ :=
    h.ready t (h.lt_threadcount hact) (h.initialised_of_act hact)
  rw [hact] at hscan
  obtain ⟨-, -, -, -, hsize, hlen, -⟩ := hprepared.1.spec
  obtain ⟨i, hat⟩ := ScanAt.of_reach (hlen.trans hsize.symm) hscan
  exact ⟨record, ms₀, i, hrecord, hprepared, hscan, hat⟩

theorem UnzipInv.threadnumber (h : UnzipInv job s) {t : ℕ} {act : Activation}
    (hact : s.acts (s.blk, t) = some act) : (s.mst t).threadnumber = t := by
  obtain ⟨_, ms₀, i, -, hprepared, -, hat⟩ := h.scanAt hact
  obtain ⟨-, -, -, hnumber, -⟩ := hprepared.1.spec
  exact hat.threadnumber.trans hnumber

/-- The buffer of a thread that has matched is the one that matched. -/
theorem UnzipInv.byteblock_eq (h : UnzipInv job s) (hrecord : job.records[s.blk]? = some record)
    {t : ℕ} {act : Activation} {buf : List UInt8} (hact : s.acts (s.blk, t) = some act)
    (hbuf : act.pc.hasMatched buf) : (s.mst t).byteblock.take record.blocksize = buf := by
  obtain ⟨record', ms₀, i, hrecord', hprepared, -, hat⟩ := h.scanAt hact
  obtain rfl : record = record' := Option.some.inj (hrecord.symm.trans hrecord')
  obtain ⟨-, -, -, -, hsize, -⟩ := hprepared.1.spec
  have hfacts := hat.pc
  have heq : (s.mst t).byteblock = buf := by
    unfold Pc.hasMatched at hbuf
    split at hbuf
    · rename_i hpc
      rw [hpc] at hfacts
      exact hfacts.2.1.trans hbuf
    · rename_i hpc
      rw [hpc] at hfacts
      exact hfacts.2.1.trans hbuf
    · exact hbuf.elim
  rw [List.take_of_length_le (by rw [hat.length, hsize]), heq]

/-- Main writes the buffer of the thread it was told about. -/
theorem UnzipInv.writeBlock (h : UnzipInv job s) (hrecord : job.records[s.blk]? = some record)
    {k : ℕ} (hpc : s.main = .writeBlock k) :
    UnzipInv job { s with
      out := s.out ++ [⟨s.blk, k, (s.mst k).getModscanByteBlock.take record.blocksize⟩]
      main := .stopThread 0 } := by
  have hmain := h.main
  rw [hpc] at hmain
  obtain ⟨-, act, buf, hact, hbuf⟩ := hmain
  have hbytes := h.byteblock_eq hrecord hact hbuf
  have hmove : UnzipInv job { s with main := .stopThread 0 } := by
    refine h.move _ ?_ ?_ ?_
    · intro t ht
      omega
    all_goals
      intro t _
      rw [hpc]
      rfl
  refine { hmove with out := ?_ }
  intro c hc
  rcases List.mem_append.mp hc with hc | hc
  · exact h.out c hc
  · obtain rfl := List.mem_singleton.mp hc
    refine ⟨le_rfl, act, hact, ?_⟩
    dsimp only [Modscan.getModscanByteBlock]
    rw [hbytes]
    exact hbuf

theorem UnzipInv.mainStep (h : UnzipInv job s) (hrecord : job.records[s.blk]? = some record)
    (hok : Disciplined s .main) : UnzipInv job (mainStep job s record) := by
  have hmain := h.main
  unfold Mdencode.Cpp.mainStep
  cases hpc : s.main with
  | setModscan tnum =>
    dsimp only
    split_ifs with ht
    · exact h.setModscan hrecord ht hpc (hok rfl tnum hpc)
    · refine h.move _ trivial (fun t ht' => ?_) (fun t ht' => ?_)
      · rw [hpc]
        simp only [MainPc.Initialised, true_iff]
        omega
      · rw [hpc]
        simp [MainPc.Started]
  | startThread tnum =>
    dsimp only
    split_ifs with ht
    · exact h.startThread ht hpc
    · refine h.move _ trivial (fun t ht' => ?_) (fun t ht' => ?_)
      · rw [hpc]
        rfl
      · rw [hpc]
        simp only [MainPc.Started, true_iff]
        omega
  | poll =>
    dsimp only
    split_ifs with hsearch
    · exact h
    · exact h.move _ hsearch (fun t _ => by rw [hpc]; rfl) (fun t _ => by rw [hpc]; rfl)
  | checkNotFound =>
    rw [hpc] at hmain
    dsimp only
    split_ifs with hnot
    · refine h.move _ (fun t ht => ?_) (fun t _ => by rw [hpc]; rfl) (fun t _ => by rw [hpc]; rfl)
      omega
    · refine h.move _ ?_ (fun t _ => by rw [hpc]; rfl) (fun t _ => by rw [hpc]; rfl)
      cases hmatched : s.mutex.isMatched with
      | searching => exact absurd hmatched hmain
      | notfound => exact absurd hmatched hnot
      | found => exact hmatched
  | getMatchThread =>
    rw [hpc] at hmain
    exact h.move _ (h.ledger.last hmain) (fun t _ => by rw [hpc]; rfl) (fun t _ => by rw [hpc]; rfl)
  | writeBlock k => exact h.writeBlock hrecord hpc
  | stopThread tnum =>
    rw [hpc] at hmain
    dsimp only
    split_ifs with ht
    · exact h.stopThread ht hpc
    · refine h.move _ (fun t ht' => ?_) (fun t _ => by rw [hpc]; rfl) (fun t _ => by rw [hpc]; rfl)
      exact hmain t (by omega) ht'
  | isStopped tnum =>
    rw [hpc] at hmain
    dsimp only
    split_ifs with hstopped
    · refine h.move _ (fun t ht ht' => ?_) (fun t _ => by rw [hpc]; rfl)
        (fun t _ => by rw [hpc]; rfl)
      rcases Nat.lt_succ_iff_lt_or_eq.mp ht with ht | rfl
      · exact hmain t ht ht'
      · exact hstopped
    · exact h
  | resetMatched => exact h.resetMatched hpc

/-- What the step of a thread leaves alone. -/
theorem threadStep_eq (s : UnzipState ρ) (blk tnum : ℕ) (act : Activation) :
    threadStep job s blk tnum act = { s with
      mst := Function.update s.mst tnum
        ((s.mst tnum).decodeStep job.compareBlockHashList act).1
      acts := Function.update s.acts (blk, tnum)
        (some ((s.mst tnum).decodeStep job.compareBlockHashList act).2)
      mutex := Modscan.mutexStep s.mutex (s.mst tnum).threadnumber act.pc } := rfl

theorem hasMatched_update {acts : ℕ × ℕ → Option Activation} {k k' : ℕ × ℕ}
    {act act' : Activation} {buf : List UInt8} (hact : acts k = some act)
    (hkept : ∀ buf, act.pc.hasMatched buf → act'.pc.hasMatched buf)
    (h : ∃ a, acts k' = some a ∧ a.pc.hasMatched buf) :
    ∃ a, Function.update acts k (some act') k' = some a ∧ a.pc.hasMatched buf := by
  obtain ⟨a, ha, hbuf⟩ := h
  rcases eq_or_ne k' k with rfl | hne
  · rw [hact, Option.some.injEq] at ha
    subst ha
    exact ⟨act', Function.update_self .., hkept buf hbuf⟩
  · exact ⟨a, by rw [Function.update_of_ne hne, ha], hbuf⟩

theorem stopped_decodeStep (compare : ρ → List UInt8 → Bool) {ms : Modscan ρ} (act : Activation)
    (h : ms.stopped = true) : (ms.decodeStep compare act).1.stopped = true := by
  unfold Modscan.decodeStep
  cases act.pc with
  | test => dsimp only; split_ifs <;> exact h
  | setStopped => rfl
  | exit outcome => rfl
  | _ => exact h

/-- A thread of the current block takes a step. -/
theorem UnzipInv.currentStep (h : UnzipInv job s) {t : ℕ} {act : Activation}
    (hact : s.acts (s.blk, t) = some act) : UnzipInv job (threadStep job s s.blk t act) := by
  have ht := h.lt_threadcount hact
  have hready := h.initialised_of_act hact
  have hstarted : s.main.Started t := (h.started t ht).mp (by rw [hact]; rfl)
  obtain ⟨record, ms₀, -, hrecord, hprepared, hscan, -⟩ := h.scanAt hact
  set act' := ((s.mst t).decodeStep job.compareBlockHashList act).2 with hact'
  have hother {r u : ℕ} (hne : (r, u) ≠ (s.blk, t)) :
      Function.update s.acts (s.blk, t) (some act') (r, u) = s.acts (r, u) :=
    Function.update_of_ne hne _ _
  have hround : (fun u => Function.update s.acts (s.blk, t) (some act') (s.blk, u)) =
      Function.update (fun u => s.acts (s.blk, u)) t (some act') :=
    Function.update_comp_eq_of_injective s.acts (Prod.mk_right_injective s.blk) t _
  rw [threadStep_eq, h.threadnumber hact, ← hact']
  refine { h with
    started := ?_, absent := ?_, stale := ?_, ready := ?_, idle := ?_, ledger := ?_, main := ?_
    out := ?_ }
  · intro u hu
    dsimp only
    rcases eq_or_ne u t with rfl | hne
    · simpa using hstarted
    · rw [hother (by simp [hne])]
      exact h.started u hu
  · intro r u hru
    dsimp only at hru ⊢
    rw [hother]
    · exact h.absent r u hru
    · simp only [ne_eq, Prod.mk.injEq, not_and]
      omega
  · intro r hr u act₁ hact₁
    dsimp only at hr hact₁
    rw [hother (by simp only [ne_eq, Prod.mk.injEq, not_and]; omega)] at hact₁
    exact h.stale r hr u act₁ hact₁
  · intro u hu hready'
    dsimp only at hready' ⊢
    rcases eq_or_ne u t with rfl | hne
    · refine ⟨record, ms₀, hrecord, hprepared, ?_⟩
      rw [Function.update_self, Function.update_self]
      exact Reach.next .step hscan trivial rfl
    · rw [hother (by simp [hne]), Function.update_of_ne hne]
      exact h.ready u hu hready'
  · intro u hu hidle
    dsimp only at hidle ⊢
    have hne : u ≠ t := by
      rintro rfl
      exact hidle hready
    rw [Function.update_of_ne hne]
    exact h.idle u hu hidle
  · dsimp only
    rw [hround]
    exact h.ledger.step ht hact _
  · have hmain := h.main
    have hstopped {u : ℕ} (hu : (s.mst u).stopped = true) : (Function.update s.mst t
        ((s.mst t).decodeStep job.compareBlockHashList act).1 u).stopped = true := by
      rcases eq_or_ne u t with rfl | hne
      · rw [Function.update_self]
        exact stopped_decodeStep _ act hu
      · rw [Function.update_of_ne hne]
        exact hu
    dsimp only
    cases hpc : s.main with
    | checkNotFound =>
      rw [hpc] at hmain
      exact mutexStep_ne_searching hmain
    | getMatchThread =>
      rw [hpc] at hmain
      exact h.ledger.found_step job.compareBlockHashList ht hact (s.mst t) hmain
    | writeBlock k =>
      rw [hpc] at hmain
      obtain ⟨hk, act₁, buf, hact₁, hbuf⟩ := hmain
      obtain ⟨act₂, hact₂, hbuf₂⟩ := 
        hasMatched_update hact (fun _ => hasMatched_step) ⟨act₁, hact₁, hbuf⟩
      exact ⟨hk, act₂, buf, hact₂, hbuf₂⟩
    | stopThread k =>
      rw [hpc] at hmain
      exact fun u huk hu => hstopped (hmain u huk hu)
    | isStopped k =>
      rw [hpc] at hmain
      exact fun u huk hu => hstopped (hmain u huk hu)
    | resetMatched =>
      rw [hpc] at hmain
      exact fun u hu => hstopped (hmain u hu)
    | _ => trivial
  · intro c hc
    obtain ⟨hblk, hmatched⟩ := h.out c hc
    exact ⟨hblk, hasMatched_update hact (fun _ => hasMatched_step) hmatched⟩

/-- A thread left over from an earlier block takes its last step. -/
theorem UnzipInv.staleStep (h : UnzipInv job s) {r t : ℕ} (hr : r < s.blk) {act : Activation}
    (hact : s.acts (r, t) = some act) (hlive : act.pc.isDone = false) :
    UnzipInv job (threadStep job s r t act) := by
  have ht := h.lt_threadcount hact
  obtain ⟨hstopped, hdone⟩ := h.stale r hr t act hact
  have hidle : ¬ s.main.Initialised t := fun hready => by
    rw [hdone hready] at hlive
    cases hlive
  have hpc : act.pc = .exit .ceiling := by
    unfold Pc.hasStopped at hstopped
    unfold Pc.isDone at hlive
    split at hstopped
    · assumption
    · rename_i hpc
      simp [hpc] at hlive
    · cases hstopped
  have hstep : threadStep job s r t act = { s with
      mst := Function.update s.mst t
        ((s.mst t).decodeStep job.compareBlockHashList act).1
      acts := Function.update s.acts (r, t) (some { act with pc := .done .ceiling }) } := by
    rw [threadStep_eq, Modscan.decodeStep, hpc]
    rfl
  have hother {r' u : ℕ} (hne : (r', u) ≠ (r, t)) :
      Function.update s.acts (r, t) (some { act with pc := .done .ceiling }) (r', u) =
        s.acts (r', u) :=
    Function.update_of_ne hne _ _
  have hcurrent (u : ℕ) : Function.update s.acts (r, t) (some { act with pc := .done .ceiling })
      (s.blk, u) = s.acts (s.blk, u) :=
    hother (by simp only [ne_eq, Prod.mk.injEq, not_and]; omega)
  rw [hstep]
  refine { h with
    started := ?_, absent := ?_, stale := ?_, ready := ?_, idle := ?_, ledger := ?_, main := ?_
    out := ?_ }
  · intro u hu
    dsimp only
    rw [hcurrent]
    exact h.started u hu
  · intro r' u hru
    dsimp only at hru ⊢
    rw [hother]
    · exact h.absent r' u hru
    · simp only [ne_eq, Prod.mk.injEq, not_and]
      omega
  · intro r' hr' u act₁ hact₁
    dsimp only at hr' hact₁
    by_cases heq : (r', u) = (r, t)
    · rw [heq, Function.update_self, Option.some.injEq] at hact₁
      subst hact₁
      exact ⟨rfl, fun _ => rfl⟩
    · rw [hother heq] at hact₁
      exact h.stale r' hr' u act₁ hact₁
  · intro u hu hready
    have hne : u ≠ t := by
      rintro rfl
      exact hidle hready
    dsimp only
    rw [hcurrent, Function.update_of_ne hne]
    exact h.ready u hu hready
  · intro u hu hidle'
    dsimp only
    rcases eq_or_ne u t with rfl | hne
    · refine ⟨fun h0 => absurd h0 (by omega), fun hpos hlt => ?_⟩
      rw [Function.update_self]
      exact ((h.idle u hu hidle).2 hpos hlt).decodeStep act
    · rw [Function.update_of_ne hne]
      exact h.idle u hu hidle'
  · dsimp only
    simp only [hcurrent]
    exact h.ledger
  · -- main is still setting objects up
    dsimp only
    cases hmain : s.main with
    | setModscan k => trivial
    | _ => exact absurd (by rw [hmain]; trivial) hidle
  · intro c hc
    obtain ⟨hblk, hmatched⟩ := h.out c hc
    refine ⟨hblk, hasMatched_update hact (fun buf hbuf => ?_) hmatched⟩
    rw [hpc] at hbuf
    exact hbuf.elim

theorem UnzipInv.step (h : UnzipInv job s) {a : UnzipAct} (hok : Disciplined s a)
    (hstep : unzipStep job s a = some s') : UnzipInv job s' := by
  obtain ⟨record, rfl, hrecord, rfl⟩ | ⟨r, t, act, rfl, hact, hlive, rfl⟩ := unzipStep_cases hstep
  · exact h.mainStep hrecord hok
  · rcases lt_trichotomy r s.blk with hr | rfl | hr
    · exact h.staleStep hr hact hlive
    · exact h.currentStep hact
    · rw [h.absent r t (.inl hr)] at hact
      cases hact

theorem UnzipInv.of_reach
    (h : Reach (unzipStep job) Disciplined (UnzipState.initial job) s) : UnzipInv job s :=
  h.invariant UnzipInv.initial fun _ _ _ hinv hok hstep => hinv.step hok hstep

/-- Steps of one thread inside its loop, as a run of the whole program. -/
theorem reach_quiet {s : UnzipState ρ} {r t : ℕ} {ms₀ : Modscan ρ} {act₀ : Activation}
    {p : Modscan ρ × Activation} (hmst : s.mst t = ms₀) (hact : s.acts (r, t) = some act₀)
    (h : Reach (decodeAct job.compareBlockHashList) Quiet (ms₀, act₀) p) :
    Reach (unzipStep job) Free s { s with
      mst := Function.update s.mst t p.1
      acts := Function.update s.acts (r, t) (some p.2) } := by
  induction h with
  | start =>
    have hmst' : Function.update s.mst t ms₀ = s.mst := by rw [← hmst, Function.update_eq_self]
    have hact' : Function.update s.acts (r, t) (some act₀) = s.acts := by
      rw [← hact, Function.update_eq_self]
    rw [hmst', hact']
    exact .start
  | @next p p' a _ hquiet hstep ih =>
    apply ih.next (.thread r t) trivial
    obtain ⟨rfl, hpc⟩ := hquiet
    have hlive : p.2.pc.isDone = false := by
      rcases hpc with hpc | hpc | hpc <;> rw [hpc] <;> rfl
    have hmutex : Modscan.mutexStep s.mutex p.1.threadnumber p.2.pc = s.mutex := by
      rcases hpc with hpc | hpc | hpc <;> rw [hpc] <;> rfl
    obtain rfl : p.1.decodeStep job.compareBlockHashList p.2 = p' := by
      simpa [decodeAct] using hstep
    rw [unzipStep]
    simp only [Function.update_self, hlive, Bool.false_eq_true, if_false, threadStep_eq, hmutex,
      Function.update_idem]

end

end Mdencode.Cpp
