import Mdencode.Lib.Progress
import Mdencode.Cpp.RunInvariant
import Mdencode.Cpp.UnzipOutcome

/-! Why the block loop of `mdunzipfile` ends. A call of `decode` moves its
candidate up to a ceiling, whoever else works on its object, and main goes
through its blocks once; so every step either waits or uses some of this up. -/

namespace Mdencode.Cpp

open Mdencode.Bytes Mdencode.Transition

/-! The steps that are left of one call of `decode` -/

/-- How often a candidate can be moved on before it is above the ceiling. -/
def advancesLeft (blockInt modulusInt ceil : ℕ) : ℕ :=
  if ceil < blockInt then 0 else (ceil - blockInt) / modulusInt + 1

theorem advancesLeft_anti {b b' : ℕ} (h : b ≤ b') (modulusInt ceil : ℕ) :
    advancesLeft b' modulusInt ceil ≤ advancesLeft b modulusInt ceil := by
  unfold advancesLeft
  split_ifs with h' hb
  · exact le_rfl
  · exact Nat.zero_le _
  · omega
  · exact Nat.succ_le_succ (Nat.div_le_div_right (by omega))

theorem advancesLeft_add {b modulusInt ceil : ℕ} (hpos : 0 < modulusInt) (h : b ≤ ceil) :
    advancesLeft (b + modulusInt) modulusInt ceil + 1 = advancesLeft b modulusInt ceil := by
  unfold advancesLeft
  rw [if_neg (Nat.not_lt.mpr h)]
  split_ifs with hover
  · rw [Nat.div_eq_of_lt (by omega)]
  · rw [show ceil - b = ceil - (b + modulusInt) + modulusInt by omega,
      Nat.add_div_right _ hpos]

section
variable {ρ : Type}

namespace Modscan

/-- How often `decode` goes on before it looks at a candidate above the ceiling.
It looks at least once in `lineCount + 2` iterations. -/
def iterationsLeft (ms : Modscan ρ) (blockInt lineNum : ℕ) (lineCount : ℤ) : ℕ :=
  advancesLeft blockInt ms.modulusInt ms.modulusExpIntCeil * (lineCount.toNat + 2) +
    (lineCount.toNat + 1 - lineNum)

def stepsLeft (ms : Modscan ρ) (act : Activation) : ℕ :=
  match act.pc with
  | .head => 3 * ms.iterationsLeft ms.blockInt act.lineNum act.lineCount + 7
  | .test => 3 * ms.iterationsLeft ms.blockInt act.lineNum act.lineCount + 6
  | .advance =>
    3 * ms.iterationsLeft (ms.blockInt + ms.modulusInt) (act.lineNum + 1) act.lineCount + 8
  | .incNotFound => 3
  | .setMatched _ | .setStopped => 2
  | .exit _ => 1
  | .done _ => 0

variable {compare : ρ → List UInt8 → Bool} {ms ms' : Modscan ρ} {act : Activation}

/-- Another call on the same object does not give this one more to do. -/
theorem stepsLeft_anti (hceil : ms'.modulusExpIntCeil = ms.modulusExpIntCeil)
    (hstep : ms'.modulusInt = ms.modulusInt) (hle : ms.blockInt ≤ ms'.blockInt) :
    ms'.stepsLeft act ≤ ms.stepsLeft act := by
  have hiter {b b' lineNum : ℕ} (h : b ≤ b') : ms'.iterationsLeft b' lineNum act.lineCount ≤
      ms.iterationsLeft b lineNum act.lineCount := by
    unfold iterationsLeft
    rw [hceil, hstep]
    exact Nat.add_le_add_right (Nat.mul_le_mul_right _ (advancesLeft_anti h _ _)) _
  unfold stepsLeft
  cases act.pc with
  | head => exact Nat.add_le_add_right (Nat.mul_le_mul_left 3 (hiter hle)) 7
  | test => exact Nat.add_le_add_right (Nat.mul_le_mul_left 3 (hiter hle)) 6
  | advance =>
    rw [hstep]
    exact Nat.add_le_add_right (Nat.mul_le_mul_left 3 (hiter (Nat.add_le_add_right hle _))) 8
  | _ => exact le_rfl

/-- After a look at a ceiling that is not passed yet. -/
theorem iterationsLeft_checked (hpos : 0 < ms.modulusInt)
    (hbelow : ms.blockInt ≤ ms.modulusExpIntCeil) (lineNum : ℕ) (lineCount : ℤ) :
    ms.iterationsLeft (ms.blockInt + ms.modulusInt) 1 lineCount + 2 ≤
      ms.iterationsLeft ms.blockInt lineNum lineCount := by
  unfold iterationsLeft
  rw [← advancesLeft_add hpos hbelow, Nat.succ_mul]
  omega

/-- An iteration that does not look at the ceiling. -/
theorem iterationsLeft_unchecked (ms : Modscan ρ) {lineNum : ℕ} {lineCount : ℤ}
    (h : ¬ lineCount < lineNum) :
    ms.iterationsLeft (ms.blockInt + ms.modulusInt) (lineNum + 1) lineCount + 1 ≤
      ms.iterationsLeft ms.blockInt lineNum lineCount := by
  have hless := Nat.mul_le_mul_right (lineCount.toNat + 2) (advancesLeft_anti
    (Nat.le_add_right ms.blockInt ms.modulusInt) ms.modulusInt ms.modulusExpIntCeil)
  unfold iterationsLeft
  omega

theorem stepsLeft_decodeStep (compare : ρ → List UInt8 → Bool) (hpos : 0 < ms.modulusInt)
    (hlive : act.pc.isDone = false) :
    (ms.decodeStep compare act).1.stepsLeft (ms.decodeStep compare act).2 <
      ms.stepsLeft act := by
  unfold decodeStep
  cases hpc : act.pc with
  | head =>
    dsimp only
    split_ifs
    · simp only [stepsLeft, hpc]
      omega
    · simp only [stepsLeft, hpc]
      omega
  | test =>
    dsimp only
    split_ifs with hmatch hcheck hceil
    · simp only [stepsLeft, hpc]
      omega
    · simp only [stepsLeft, hpc]
      omega
    · have hless := iterationsLeft_checked hpos (Nat.le_of_not_lt hceil) act.lineNum act.lineCount
      simp only [stepsLeft, hpc, Nat.zero_add]
      unfold iterationsLeft at hless ⊢
      dsimp only
      omega
    · have hless := ms.iterationsLeft_unchecked hcheck
      simp only [stepsLeft, hpc]
      unfold iterationsLeft at hless ⊢
      dsimp only
      omega
  | advance =>
    simp only [stepsLeft, hpc]
    unfold iterationsLeft
    dsimp only
    omega
  | done outcome =>
    rw [hpc] at hlive
    cases hlive
  | _ => simp only [stepsLeft, hpc]; omega

end Modscan

/-! The steps that are left of the block loop -/

/-- The steps of main up to the end of its block, waiting apart. -/
def MainPc.stepsLeft (T : ℕ) : MainPc → ℕ
  | .setModscan tnum => (T - tnum) + 3 * T + 8
  | .startThread tnum => (T - tnum) + 2 * T + 7
  | .poll => 2 * T + 6
  | .checkNotFound => 2 * T + 5
  | .getMatchThread => 2 * T + 4
  | .writeBlock _ => 2 * T + 3
  | .stopThread tnum => 2 * (T - tnum) + 2
  | .isStopped tnum => 2 * (T - (tnum + 1)) + 3
  | .resetMatched => 1

variable (job : UnzipJob ρ)

def UnzipState.mainLeft (s : UnzipState ρ) : ℕ :=
  (job.records.length - s.blk) * (4 * job.threadcount + 8) + s.main.stepsLeft job.threadcount

/-- The steps of all threads that have been started. -/
def UnzipState.threadsLeft (s : UnzipState ρ) : ℕ :=
  ∑ p ∈ Finset.range (s.blk + 1) ×ˢ Finset.range job.threadcount,
    (s.acts p).elim 0 (s.mst p.2).stepsLeft

/-- Main gives the threads new work, and uses its own up in doing so. -/
def UnzipState.workLeft (s : UnzipState ρ) : ℕ ×ₗ ℕ := toLex (s.mainLeft job, s.threadsLeft job)

variable {job} {s s' : UnzipState ρ} {record : BlockRecord ρ}

/-- What main waits for. -/
def MainPc.Waits (s : UnzipState ρ) : MainPc → Prop
  | .poll => s.mutex.getIsMatched = .searching
  | .isStopped tnum => (s.mst tnum).isStoppedThread = false
  | _ => False

theorem mainLeft_mainStep (hlive : s.blk < job.records.length) (hmoves : ¬ s.main.Waits s) :
    (mainStep job s record).mainLeft job < s.mainLeft job := by
  unfold mainStep
  cases hpc : s.main with
  | setModscan tnum =>
    dsimp only
    split_ifs with ht
    · simp only [UnzipState.mainLeft, hpc, MainPc.stepsLeft]
      omega
    · simp only [UnzipState.mainLeft, hpc, MainPc.stepsLeft]
      omega
  | startThread tnum =>
    dsimp only
    split_ifs with ht
    · simp only [UnzipState.mainLeft, hpc, MainPc.stepsLeft]
      omega
    · simp only [UnzipState.mainLeft, hpc, MainPc.stepsLeft]
      omega
  | poll =>
    rw [hpc] at hmoves
    dsimp only [MainPc.Waits] at hmoves ⊢
    rw [if_neg hmoves]
    simp only [UnzipState.mainLeft, hpc, MainPc.stepsLeft]
    omega
  | checkNotFound =>
    dsimp only
    split_ifs
    · simp only [UnzipState.mainLeft, hpc, MainPc.stepsLeft]
      omega
    · simp only [UnzipState.mainLeft, hpc, MainPc.stepsLeft]
      omega
  | getMatchThread =>
    simp only [UnzipState.mainLeft, hpc, MainPc.stepsLeft]
    omega
  | writeBlock k =>
    simp only [UnzipState.mainLeft, hpc, MainPc.stepsLeft]
    omega
  | stopThread tnum =>
    dsimp only
    split_ifs with ht
    · simp only [UnzipState.mainLeft, hpc, MainPc.stepsLeft]
      omega
    · simp only [UnzipState.mainLeft, hpc, MainPc.stepsLeft]
      omega
  | isStopped tnum =>
    rw [hpc] at hmoves
    dsimp only [MainPc.Waits] at hmoves ⊢
    rw [if_pos (Bool.of_not_eq_false hmoves)]
    simp only [UnzipState.mainLeft, hpc, MainPc.stepsLeft]
    omega
  | resetMatched =>
    have hblocks := Nat.succ_mul (job.records.length - (s.blk + 1)) (4 * job.threadcount + 8)
    rw [show (job.records.length - (s.blk + 1)).succ = job.records.length - s.blk by omega]
      at hblocks
    simp only [UnzipState.mainLeft, hpc, MainPc.stepsLeft]
    omega

theorem mainStep_of_waits (hwaits : s.main.Waits s) : mainStep job s record = s := by
  unfold mainStep
  unfold MainPc.Waits at hwaits
  split at hwaits
  · rename_i hpc
    rw [hpc]
    exact if_pos hwaits
  · rename_i hpc
    rw [hpc]
    exact if_neg (by simp [hwaits])
  · exact hwaits.elim

/-- The steps that are left of the other threads of an object do not become more. -/
theorem threadsLeft_threadStep (hpos : 0 < calcModulusInt job.modsize * job.threadcount)
    (h : RunInv job s) {r t : ℕ} {act : Activation} (hact : s.acts (r, t) = some act)
    (hlive : act.pc.isDone = false) :
    (threadStep job s r t act).threadsLeft job < s.threadsLeft job := by
  obtain ⟨_, _, _, _, -, hframe⟩ := (s.mst t).decodeStep_frame job.compareBlockHashList act
  have hle : (s.mst t).blockInt ≤
      ((s.mst t).decodeStep job.compareBlockHashList act).1.blockInt := by
    unfold Modscan.decodeStep
    cases act.pc with
    | test => dsimp only; split_ifs <;> exact le_rfl
    | advance => exact Nat.le_add_right _ _
    | _ => exact le_rfl
  have hsteps := Modscan.stepsLeft_decodeStep job.compareBlockHashList
    (h.stride_of_act hact ▸ hpos) hlive
  rw [threadStep_eq]
  refine Finset.sum_lt_sum (fun p _ => ?_) ⟨(r, t), ?_, ?_⟩
  · dsimp only
    by_cases hp : p = (r, t)
    · subst hp
      rw [Function.update_self, Function.update_self, hact]
      exact hsteps.le
    · rw [Function.update_of_ne hp]
      cases hother : s.acts p with
      | none => exact le_rfl
      | some act' =>
        rcases eq_or_ne p.2 t with heq | hne
        · rw [heq, Function.update_self]
          apply Modscan.stepsLeft_anti _ _ hle
          · rw [hframe]
          · rw [hframe]
        · rw [Function.update_of_ne hne]
  · rw [Finset.mem_product, Finset.mem_range, Finset.mem_range]
    exact ⟨Nat.lt_succ_of_le (h.le_blk hact), h.lt_threadcount hact⟩
  · dsimp only
    rw [Function.update_self, Function.update_self, hact]
    exact hsteps

theorem unzip_descends (hT : 1 ≤ job.threadcount) (hm : 1 ≤ job.modsize)
    (ok : UnzipState ρ → UnzipAct → Prop) :
    Descends (unzipStep job) ok (RunInv job) (UnzipState.workLeft job) where
  keeps _ _ _ h _ hstep := h.step hT hstep
  lowers s a s' h _ hstep := by
    obtain ⟨record, -, hrecord, rfl⟩ | ⟨r, t, act, -, hact, hlive, rfl⟩ := unzipStep_cases hstep
    · by_cases hwaits : s.main.Waits s
      · exact .inl (mainStep_of_waits hwaits)
      · exact .inr (Prod.Lex.toLex_lt_toLex.mpr (.inl
          (mainLeft_mainStep (List.getElem?_eq_some_iff.mp hrecord).1 hwaits)))
    · have hpos := Nat.mul_pos (calcModulusInt_pos hm) hT
      exact .inr (Prod.Lex.toLex_lt_toLex.mpr (.inr
        ⟨rfl, threadsLeft_threadStep hpos h hact hlive⟩))

/-! Exports past a buffer -/

/-- A thread is about to export a candidate that is longer than its buffer. -/
def Overruns (s : UnzipState ρ) : Prop :=
  ∃ r t act, s.acts (r, t) = some act ∧ act.pc = .test ∧
    256 ^ (s.mst t).byteblock.length ≤ (s.mst t).blockInt

/-- The step exports no candidate past its buffer. -/
def Contained (s : UnzipState ρ) (a : UnzipAct) : Prop :=
  ∀ r t, a = .thread r t → ∀ act, s.acts (r, t) = some act → act.pc = .test →
    (s.mst t).blockInt < 256 ^ (s.mst t).byteblock.length

theorem contained_of_not_overruns (h : ¬ Overruns s) (a : UnzipAct) : Contained s a := by
  intro r t _ act hact hpc
  by_contra hge
  exact h ⟨r, t, act, hact, hpc, Nat.le_of_not_lt hge⟩

/-- Every thread's candidates for a block fit it. -/
def AllFit (job : UnzipJob ρ) (blocks : List (List UInt8)) : Prop :=
  ∀ (i : ℕ) (record : BlockRecord ρ) (block : List UInt8), job.records[i]? = some record →
    blocks[i]? = some block → ∀ t < job.threadcount,
      Fits job.modsize job.threadcount t (blockPosition i) record.modexponent block

/-- Then no thread of a disciplined run gets to the edge of its buffer. -/
theorem UnzipInv.not_overruns {blocks : List (List UInt8)} (hjob : Restorable job blocks)
    (hfits : AllFit job blocks) (h : UnzipInv job s) : ¬ Overruns s := by
  rintro ⟨r, t, act, hact, hpc, hge⟩
  have ht := h.lt_threadcount hact
  -- a thread of an earlier block is past its tests
  obtain rfl : r = s.blk := by
    rcases lt_trichotomy r s.blk with hr | hr | hr
    · have hstopped := (h.stale r hr t act hact).1
      rw [hpc] at hstopped
      cases hstopped
    · exact hr
    · rw [h.absent r t (.inl hr)] at hact
      cases hact
  have hstarted : s.main.Started t := (h.started t ht).mp (by rw [hact]; rfl)
  have hinit : s.main.Initialised t := by
    cases hmain : s.main with
    | setModscan tnum =>
      rw [hmain] at hstarted
      exact hstarted.elim
    | _ => trivial
  obtain ⟨record, ms₀, hrecord, ⟨hprepared, hhcl, -⟩, hscan⟩ := h.ready t ht hinit
  obtain ⟨block, hblock, hrestores⟩ := hjob.exists_block hrecord
  rw [hrestores.blocksize, hrestores.remainder] at hprepared
  obtain ⟨-, -, -, hnum, -, hlen, -⟩ := hprepared.spec
  have haccept : job.compareBlockHashList ms₀.hcl block = true := by
    rw [hhcl]
    exact hrestores.accepts
  rw [hact] at hscan
  have hreach : Reach (decodeAct job.compareBlockHashList) Free
      (ms₀, Activation.start ms₀.threadnumber) (s.mst t, act) := by
    rw [hnum]
    exact hscan
  have hfit := (hfits _ record block hrecord hblock t ht).candidatesFit hjob.one_le_modsize ht
    hprepared
  have hlt := ((hfit _ haccept _ hreach).1 hpc).1
  have hsame : (s.mst t).byteblock.length = block.length := by
    obtain ⟨i, hat⟩ := ScanAt.of_reach (hlen.trans hprepared.spec.2.2.2.2.1.symm) hreach
    exact hat.length.trans hprepared.spec.2.2.2.2.1
  rw [hsame] at hge
  exact absurd hlt (Nat.not_lt.mpr hge)

/-! Where a run comes to rest -/

/-- Main has been through its blocks, and every call of `decode` has returned. -/
structure Finished (job : UnzipJob ρ) (s : UnzipState ρ) : Prop where
  blk : s.blk = job.records.length
  done : ∀ p act, s.acts p = some act → act.pc.isDone = true

/-- What main waits for is not there only while a thread of its block is running. -/
theorem RunInv.not_waits (h : RunInv job s)
    (hdone : ∀ p act, s.acts p = some act → act.pc.isDone = true) : ¬ s.main.Waits s := by
  have hact {t : ℕ} (ht : t < job.threadcount) (hstarted : s.main.Started t) :
      ∃ act, s.acts (s.blk, t) = some act ∧ act.pc.isDone = true := by
    obtain ⟨act, hact⟩ := Option.isSome_iff_exists.mp ((h.started t ht).mpr hstarted)
    exact ⟨act, hact, hdone _ act hact⟩
  intro hwaits
  cases hpc : s.main with
  | poll =>
    rw [hpc] at hwaits
    have hsearch : s.mutex.isMatched = .searching := hwaits
    -- without a match every thread of the block has been counted
    have hall : Finset.range job.threadcount ⊆
        passedThreads job.threadcount fun t => s.acts (s.blk, t) := by
      intro t ht
      have ht := Finset.mem_range.mp ht
      obtain ⟨act, hact, hisDone⟩ := hact ht (by rw [hpc]; trivial)
      refine mem_passedThreads.mpr ⟨ht, act, hact, ?_⟩
      cases hactpc : act.pc with
      | done outcome =>
        cases outcome with
        | ceiling => rfl
        | matched buf =>
          exact absurd (show act.pc.hasMatched buf by rw [hactpc]; rfl)
            (h.mutex.unmatched hsearch t act buf hact)
        | stopped => exact absurd hactpc (h.unstopped (by rw [hpc]; rfl) t act hact).2
      | _ =>
        rw [hactpc] at hisDone
        cases hisDone
    have hcard := Finset.card_le_card hall
    rw [Finset.card_range] at hcard
    exact absurd (hcard.trans h.mutex.passed) (Nat.not_le.mpr (h.mutex.searching hsearch))
  | isStopped k =>
    rw [hpc] at hwaits
    obtain ⟨act, hact, hisDone⟩ := hact (h.awaited k hpc) (by rw [hpc]; trivial)
    have hstopped : (s.mst k).stopped = true := by
      apply h.stopped k act hact
      cases hactpc : act.pc with
      | done outcome => rfl
      | _ =>
        rw [hactpc] at hisDone
        cases hisDone
    exact absurd hstopped (by rw [show (s.mst k).stopped = false from hwaits]; simp)
  | _ =>
    rw [hpc] at hwaits
    exact hwaits

/-- At rest nothing is left to do, also when main is not allowed to set up an
object that is still in use, unless a thread is kept from going past its buffer. -/
theorem finished_of_atRest (hT : 1 ≤ job.threadcount) (hm : 1 ≤ job.modsize)
    {ok : UnzipState ρ → UnzipAct → Prop} (hok : ∀ s a, Disciplined s a → Contained s a → ok s a)
    (h : RunInv job s) (hrest : AtRest (unzipStep job) ok s) (hcontained : ¬ Overruns s) :
    Finished job s := by
  have hdone : ∀ p act, s.acts p = some act → act.pc.isDone = true := by
    rintro ⟨r, t⟩ act hact
    by_contra hlive
    rw [Bool.not_eq_true] at hlive
    have hallowed : ok s (.thread r t) :=
      hok _ _ (fun h => by cases h) (contained_of_not_overruns hcontained _)
    have hsame := hrest (.thread r t) (threadStep job s r t act) hallowed
      (by rw [unzipStep, hact]; simp [hlive])
    have hless := threadsLeft_threadStep (Nat.mul_pos (calcModulusInt_pos hm) hT) h hact hlive
    rw [hsame] at hless
    exact lt_irrefl _ hless
  refine ⟨?_, hdone⟩
  by_contra hne
  have hlive : s.blk < job.records.length := lt_of_le_of_ne h.bound hne
  have hallowed : ok s .main :=
    hok _ _ (fun _ tnum _ r _ act hact => hdone (r, tnum) act hact)
      (contained_of_not_overruns hcontained _)
  have hsame := hrest .main (mainStep job s job.records[s.blk]) hallowed
    (by rw [unzipStep, List.getElem?_eq_getElem hlive]; rfl)
  have hless : (mainStep job s job.records[s.blk]).mainLeft job < s.mainLeft job :=
    mainLeft_mainStep hlive (h.not_waits hdone)
  rw [hsame] at hless
  exact lt_irrefl _ hless

/-- Under every fair schedule the block loop finishes, or leaves a thread at the
edge of its buffer. -/
theorem exists_finished (hT : 1 ≤ job.threadcount) (hm : 1 ≤ job.modsize)
    {ok : UnzipState ρ → UnzipAct → Prop} (hok : ∀ s a, Disciplined s a → Contained s a → ok s a)
    {schedule : ℕ → UnzipAct} {run : ℕ → UnzipState ρ} (hfair : Fair schedule)
    (hrun : Scheduled (unzipStep job) ok (UnzipState.initial job) schedule run) :
    ∃ n, (∀ m ≥ n, run m = run n) ∧ (Finished job (run n) ∨ Overruns (run n)) := by
  have hdescends := unzip_descends hT hm ok
  obtain ⟨n, hrest⟩ := hdescends.exists_atRest (RunInv.initial hT) hrun hfair
  refine ⟨n, fun m hmn => hrun.atRest hrest hmn, ?_⟩
  by_cases hcontained : Overruns (run n)
  · exact .inr hcontained
  · exact .inl (finished_of_atRest hT hm hok (hdescends.holds (RunInv.initial hT) hrun n) hrest
      hcontained)

/-- Without a block there is nothing to do. -/
theorem eq_initial_of_records_nil (hnil : job.records = []) {ok : UnzipState ρ → UnzipAct → Prop}
    (h : Reach (unzipStep job) ok (UnzipState.initial job) s) : s = UnzipState.initial job := by
  refine h.invariant (P := fun s => s = UnzipState.initial job) rfl ?_
  rintro s a s' rfl - hstep
  obtain ⟨record, -, hrecord, -⟩ | ⟨r, t, act, -, hact, -⟩ := unzipStep_cases hstep
  · rw [hnil] at hrecord
    cases hrecord
  · cases hact

end

end Mdencode.Cpp
