import Mdencode.Go.MdTestProtocol

/-! Every run of `mdtest` in which each goroutine gets its turns comes to an end,
and what it has found by then. The steps that are left are counted for each
place of a goroutine and of main; a message in the channel stands for the steps
that receiving it costs. -/

namespace Mdencode.Go

open Mdencode.Bytes Mdencode.Transition Mdencode.Channel

/-! The steps that are left -/

/-- A match is sent before the last message, so there are two sends left. -/
def MdTest.scanLeft (fd : MdTest) : TestPc → ℕ
  | .init => fd.modceil + 22
  | .start => fd.modceil + 21
  | .loop modulusStart _ => 19 + (fd.modceil + 1 - modulusStart)
  | .sendMatch _ => 18
  | .sendNotFound => 9
  | .done => 0

namespace TestState

def mainLeft (fd : MdTest) (s : TestState) : ℕ :=
  match s.main with
  | .go thread => 10 + (fd.threadEnd.toNat - thread)
  | .receive => if s.c.closed then 2 else 5
  | .response _ => 7
  | .closeFound | .closeLast => 4
  | .returned => 1
  | .exited => 0

def scansLeft (fd : MdTest) (s : TestState) : ℕ :=
  ∑ t ∈ fd.goroutines, fd.scanLeft (s.scans t)

/-- The steps of a process that is not gone. -/
def workLeft (fd : MdTest) (s : TestState) : ℕ :=
  s.mainLeft fd + 8 * s.c.queue.length + s.scansLeft fd

def left (fd : MdTest) (s : TestState) : ℕ := if s.isOver then 0 else 1 + s.workLeft fd

end TestState

theorem MdTest.modulusThreadCount_pos {fd : MdTest} (hthreads : 0 < fd.threadCount) :
    0 < fd.modulusThreadCount :=
  Nat.mul_pos (pow_pos two_pos _) (Int.pos_iff_toNat_pos.mp hthreads)

namespace TestState

variable {fd : MdTest} {s s' : TestState} {t : ℕ}

theorem scansLeft_move (hrange : fd.InRange t) (s : TestState) (pc : TestPc) :
    (s.move t pc).scansLeft fd + fd.scanLeft (s.scans t) = s.scansLeft fd + fd.scanLeft pc := by
  have hmem : t ∈ fd.goroutines := MdTest.mem_goroutines.mpr hrange
  have hrest : ∑ u ∈ fd.goroutines.erase t, fd.scanLeft ((s.move t pc).scans u) =
      ∑ u ∈ fd.goroutines.erase t, fd.scanLeft (s.scans u) :=
    Finset.sum_congr rfl fun u hu => by rw [move_ne (Finset.ne_of_mem_erase hu)]
  rw [scansLeft, scansLeft, ← Finset.add_sum_erase _ _ hmem, ← Finset.add_sum_erase _ _ hmem,
    hrest, move_self]
  omega

/-- A pass of the search is followed by a larger candidate or by the reports. -/
theorem scanLeft_pass (hthreads : 0 < fd.threadCount) {i v : ℕ} {buf : List UInt8}
    (h : fd.LoopAt t i v buf) : fd.scanLeft (fd.pass v buf) < 19 + (fd.modceil + 1 - v) := by
  have hstep := MdTest.modulusThreadCount_pos hthreads
  rcases h.pass with ⟨v', buf', hpass, -, hle, hv'⟩ | ⟨hpass, -⟩ | ⟨hpass, -⟩
  · rw [hpass, MdTest.scanLeft]
    omega
  · rw [hpass, MdTest.scanLeft]
    omega
  · rw [hpass, MdTest.scanLeft]
    omega

theorem workLeft_goroutine (hthreads : 0 < fd.threadCount) (h : TestInv fd s)
    (hmove : s.GoroutineMoves fd t s') :
    s'.panicked = true ∨ s'.workLeft fd < s.workLeft fd := by
  have hrange : s.scans t ≠ .init → fd.InRange t := h.inRange
  have hscan := h.scan t
  cases hmove with
  | start hpc =>
    right
    have hscans := scansLeft_move (hrange (by simp [hpc])) s (fd.begin t)
    rw [hpc, MdTest.begin_eq, MdTest.scanLeft, MdTest.scanLeft] at hscans
    have hmain : (s.move t (fd.begin t)).mainLeft fd = s.mainLeft fd := rfl
    have hqueue : (s.move t (fd.begin t)).c.queue = s.c.queue := rfl
    rw [workLeft, workLeft, hmain, hqueue, MdTest.begin_eq]
    omega
  | loop v buf hpc =>
    right
    rw [hpc] at hscan
    obtain ⟨i, hloop⟩ := hscan
    have hpass := scanLeft_pass hthreads hloop
    have hscans := scansLeft_move (hrange (by simp [hpc])) s (fd.pass v buf)
    rw [hpc] at hscans
    change _ + (19 + (fd.modceil + 1 - v)) = _ at hscans
    have hmain : (s.move t (fd.pass v buf)).mainLeft fd = s.mainLeft fd := rfl
    have hqueue : (s.move t (fd.pass v buf)).c.queue = s.c.queue := rfl
    rw [workLeft, workLeft, hmain, hqueue]
    omega
  | panic hpc hclosed => exact .inl rfl
  | sendMatch buf hpc hopen =>
    right
    have hscans := scansLeft_move (hrange (by simp [hpc])) s .sendNotFound
    rw [hpc, MdTest.scanLeft, MdTest.scanLeft] at hscans
    change s.mainLeft fd + 8 * (s.c.queue ++ [_]).length + (s.move t .sendNotFound).scansLeft fd < _
    rw [workLeft, List.length_append, List.length_singleton]
    omega
  | sendNotFound hpc hopen =>
    right
    have hscans := scansLeft_move (hrange (by simp [hpc])) s .done
    rw [hpc, MdTest.scanLeft, MdTest.scanLeft] at hscans
    change s.mainLeft fd + 8 * (s.c.queue ++ [_]).length + (s.move t .done).scansLeft fd < _
    rw [workLeft, List.length_append, List.length_singleton]
    omega

theorem workLeft_main (h : TestInv fd s) (hmove : s.MainMoves fd s') :
    s'.panicked = true ∨ s'.workLeft fd < s.workLeft fd := by
  cases hmove with
  | go u hpc hlt =>
    right
    have hinit : s.scans u = .init := (h.fresh u).mpr (.inr (by rw [hpc]; exact le_rfl))
    have hscans := scansLeft_move ⟨(h.main.going u hpc).1, hlt⟩ s .start
    rw [hinit, MdTest.scanLeft, MdTest.scanLeft] at hscans
    change 10 + (fd.threadEnd.toNat - (u + 1)) + 8 * s.c.queue.length +
      (s.move u .start).scansLeft fd < _
    rw [workLeft, mainLeft, hpc]
    dsimp only
    omega
  | started u hpc hge =>
    right
    change (if s.c.closed then 2 else 5) + 8 * s.c.queue.length + s.scansLeft fd < _
    rw [workLeft, mainLeft, hpc]
    dsimp only
    split_ifs <;> omega
  | ended hpc hqueue hclosed =>
    right
    change 1 + 8 * s.c.queue.length + s.scansLeft fd < _
    rw [workLeft, mainLeft, hpc]
    simp only [hclosed, if_true]
    omega
  | received resp queue hpc hqueue =>
    right
    change 7 + 8 * queue.length + s.scansLeft fd < _
    rw [workLeft, mainLeft, hpc, hqueue, List.length_cons]
    dsimp only
    split_ifs <;> omega
  | found u buf hpc =>
    right
    change 4 + 8 * s.c.queue.length + s.scansLeft fd < _
    rw [workLeft, mainLeft, hpc]
    dsimp only
    omega
  | last hpc hcl =>
    right
    change 4 + 8 * s.c.queue.length + s.scansLeft fd < _
    rw [workLeft, mainLeft, hpc]
    dsimp only
    omega
  | counted hpc hcl =>
    right
    change (if s.c.closed then 2 else 5) + 8 * s.c.queue.length + s.scansLeft fd < _
    rw [workLeft, mainLeft, hpc]
    dsimp only
    split_ifs <;> omega
  | closedTwice hpc hclosed => exact .inl rfl
  | closeFound hpc hopen =>
    right
    change 1 + 8 * s.c.queue.length + s.scansLeft fd < _
    rw [workLeft, mainLeft, hpc]
    dsimp only
    omega
  | closeLast hpc hopen =>
    right
    change 2 + 8 * s.c.queue.length + s.scansLeft fd < _
    rw [workLeft, mainLeft, hpc]
    dsimp only
    omega
  | exit hpc =>
    right
    change 0 + 8 * s.c.queue.length + s.scansLeft fd < _
    rw [workLeft, mainLeft, hpc]
    dsimp only
    omega

theorem left_step (hthreads : 0 < fd.threadCount) (h : TestInv fd s) {a : TestAct}
    (hstep : s.step fd a = some s') : s'.left fd < s.left fd := by
  obtain ⟨hover, hmove⟩ := moves_of_step hstep
  have hwork : s'.panicked = true ∨ s'.workLeft fd < s.workLeft fd := by
    rcases hmove with hmove | ⟨t, hmove⟩
    · exact workLeft_main h hmove
    · exact workLeft_goroutine hthreads h hmove
  rw [left, left, if_neg (by simp [hover] : ¬ s.isOver = true)]
  split_ifs with hover'
  · omega
  · have hlt : s'.workLeft fd < s.workLeft fd :=
      hwork.resolve_left fun hpanicked => hover' (by simp [isOver, hpanicked])
    omega

/-! Short of the end there is a step -/

/-- A goroutine that has been started and is not through can go on while there is
room in the channel. -/
theorem exists_goroutineStep (hinit : s.scans t ≠ .init) (hdone : s.scans t ≠ .done)
    (hroom : s.c.closed = true ∨ s.c.queue.length < s.c.cap) :
    ∃ s', s.goroutineStep fd t = some s' := by
  have hsend (resp : Response) (pc : TestPc) : ∃ s', s.sendStep t resp pc = some s' := by
    rw [sendStep]
    cases hresult : s.c.send resp with
    | panic => exact ⟨_, rfl⟩
    | sent c => exact ⟨_, rfl⟩
    | blocked =>
      have hopen : s.c.closed = false := by
        by_contra hclosed
        rw [Chan.send, if_pos (by simpa using hclosed)] at hresult
        cases hresult
      have hfull := Chan.send_eq_blocked hresult
      rcases hroom with hclosed | hroom
      · rw [hopen] at hclosed
        cases hclosed
      · omega
  cases hpc : s.scans t with
  | init => exact absurd hpc hinit
  | done => exact absurd hpc hdone
  | start => exact ⟨_, by rw [goroutineStep, hpc]⟩
  | loop v buf => exact ⟨_, by rw [goroutineStep, hpc]⟩
  | sendMatch buf =>
    obtain ⟨s', hs'⟩ := hsend (.matched t buf) .sendNotFound
    exact ⟨s', by rw [goroutineStep, hpc]; exact hs'⟩
  | sendNotFound =>
    obtain ⟨s', hs'⟩ := hsend .notFound .done
    exact ⟨s', by rw [goroutineStep, hpc]; exact hs'⟩

theorem exists_closeStep (s : TestState) (main : TestMain) : ∃ s', s.closeStep main = some s' := by
  rw [closeStep]
  cases s.c.close with
  | none => exact ⟨_, rfl⟩
  | some c => exact ⟨_, rfl⟩

/-- Main waits only for an empty channel, and then not everybody is through. -/
theorem exists_step (h : TestInv fd s) (hover : s.isOver = false) :
    ∃ a s', s.step fd a = some s' := by
  have hmain (hstep : ∃ s', s.mainStep fd = some s') : ∃ a s', s.step fd a = some s' := by
    obtain ⟨s', hstep⟩ := hstep
    exact ⟨.main, s', by simpa [step, hover] using hstep⟩
  cases hpc : s.main with
  | go u =>
    refine hmain ?_
    rw [mainStep, hpc]
    dsimp only
    split_ifs <;> exact ⟨_, rfl⟩
  | receive =>
    cases hreceive : s.c.receive with
    | ended => exact hmain ⟨_, by rw [mainStep, hpc]; dsimp only; rw [hreceive]⟩
    | received resp c => exact hmain ⟨_, by rw [mainStep, hpc]; dsimp only; rw [hreceive]⟩
    | blocked =>
      obtain ⟨hqueue, hopen⟩ := Chan.receive_eq_blocked hreceive
      have hnone := h.main.found_eq_none (by simp [hpc]) (by simp [hpc]) (by simp [hpc])
      have htally := h.tally hnone
      have hcl := h.main.cl
      rw [taken, hpc, hqueue] at htally
      simp only [hopen, Bool.false_eq_true, if_false] at htally
      have hlt := htally.not_through (by omega)
      obtain ⟨t, hmem, hdone⟩ : ∃ t ∈ fd.goroutines, s.scans t ≠ .done := by
        by_contra hall
        push Not at hall
        rw [doneCount, Finset.filter_true_of_mem hall, MdTest.card_goroutines] at hlt
        exact absurd hlt (lt_irrefl _)
      have hrange : fd.InRange t := MdTest.mem_goroutines.mp hmem
      have hinit : s.scans t ≠ .init := by
        intro hinit
        rcases (h.fresh t).mp hinit with hout | hbefore
        · exact hout hrange
        · rw [hpc] at hbefore
          exact hbefore
      obtain ⟨s', hstep⟩ : ∃ s', s.goroutineStep fd t = some s' :=
        exists_goroutineStep hinit hdone (.inr (by rw [hqueue, h.cap, List.length_nil]; omega))
      exact ⟨.goroutine t, s', by simpa [step, hover] using hstep⟩
  | response resp =>
    refine hmain ?_
    rw [mainStep, hpc]
    cases resp with
    | matched u buf => exact ⟨_, rfl⟩
    | notFound =>
      dsimp only
      split_ifs <;> exact ⟨_, rfl⟩
  | closeFound =>
    refine hmain ?_
    rw [mainStep, hpc]
    exact exists_closeStep s _
  | closeLast =>
    refine hmain ?_
    rw [mainStep, hpc]
    exact exists_closeStep s _
  | returned => exact hmain ⟨_, by rw [mainStep, hpc]⟩
  | exited => simp [isOver, hpc] at hover

end TestState

section
variable {fd : MdTest} {s : TestState} {schedule : ℕ → TestAct} {run : ℕ → TestState}

theorem MdTest.threadCount_pos (hrange : fd.threadStart < fd.threadEnd) : 0 < fd.threadCount := by
  have hle := fd.threadEnd_le
  omega

theorem TestInv.descends (hrange : fd.threadStart < fd.threadEnd) :
    Descends (TestState.step fd) Free (TestInv fd) (TestState.left fd) where
  keeps _ _ _ h _ hstep := h.step hstep
  lowers _ _ _ h _ hstep := .inr (TestState.left_step (MdTest.threadCount_pos hrange) h hstep)

/-- A state at rest is the end of the process. -/
theorem TestInv.isOver_of_atRest (hrange : fd.threadStart < fd.threadEnd) (h : TestInv fd s)
    (hrest : AtRest (TestState.step fd) Free s) : s.isOver = true := by
  by_contra hover
  obtain ⟨a, s', hstep⟩ := TestState.exists_step h (by simpa using hover)
  have hlt := TestState.left_step (MdTest.threadCount_pos hrange) h hstep
  rw [hrest a s' trivial hstep] at hlt
  exact absurd hlt (lt_irrefl _)

/-- Who gives up has heard of everybody, and of a match first. -/
theorem TestInv.found_iff (h : TestInv fd s) (hover : s.isOver = true) :
    s.found ≠ none ↔ ∃ t, fd.InRange t ∧ fd.Hits t := by
  constructor
  · intro hfound
    obtain ⟨⟨t, buf⟩, heq⟩ := Option.ne_none_iff_exists'.mp hfound
    obtain ⟨hrange, hits, -⟩ := h.found t buf heq
    exact ⟨t, hrange, hits⟩
  · rintro ⟨t, hrange, hits⟩ hnone
    have hexited : s.main = .exited := by
      rw [TestState.isOver, Bool.or_eq_true] at hover
      rcases hover with hpanicked | hexited
      · exact absurd hnone (h.panicked hpanicked)
      · simpa using hexited
    obtain ⟨hqueue, hall⟩ := h.all_done hnone (h.main.ended (.inr hexited))
    have hdone : s.scans t = .done := by
      by_contra hdone
      have := TestState.doneCount_lt hrange hdone
      omega
    rcases h.announced t (.inr hdone) hits with hfound | ⟨u, buf, hu⟩ | ⟨buf, hmem⟩
    · exact hfound hnone
    · rw [hexited] at hu
      cases hu
    · rw [hqueue] at hmem
      cases hmem

theorem TestInv.of_reach (hrange : fd.threadStart < fd.threadEnd)
    (hreach : Reach (TestState.step fd) Free fd.mddecode s) : TestInv fd s :=
  hreach.invariant (.initial hrange) fun _ _ _ hs _ hstep => hs.step hstep

/-- Every fair run is over at some time, and stays so. -/
theorem exists_isOver (hrange : fd.threadStart < fd.threadEnd) (hfair : Fair schedule)
    (hrun : Scheduled (TestState.step fd) Free fd.mddecode schedule run) :
    ∃ n, TestInv fd (run n) ∧ (run n).isOver = true ∧ ∀ m ≥ n, run m = run n := by
  have hinv := TestInv.initial hrange
  obtain ⟨n, hrest⟩ := (TestInv.descends hrange).exists_atRest hinv hrun hfair
  have hn := (TestInv.descends hrange).holds hinv hrun n
  exact ⟨n, hn, hn.isOver_of_atRest hrange hrest, fun m hm => hrun.atRest hrest hm⟩

/-! Without a goroutine there is nobody who could send main a message -/

/-- The process has not ended, and nobody can go on: "all goroutines are asleep". -/
def TestState.deadlocked (fd : MdTest) (s : TestState) : Prop :=
  s.isOver = false ∧ ∀ a, s.step fd a = none

structure Idle (fd : MdTest) (s : TestState) : Prop where
  scans : ∀ t, s.scans t = .init
  queue : s.c.queue = []
  opened : s.c.closed = false
  main : s.main = .go fd.threadStart ∨ s.main = .receive
  found : s.found = none
  panicked : s.panicked = false

theorem Idle.initial (hempty : fd.threadStart = fd.threadEnd) : Idle fd fd.mddecode :=
  ⟨fun _ => rfl, rfl, rfl, .inl rfl, rfl, decide_eq_false (by omega)⟩

theorem Idle.isOver (h : Idle fd s) : s.isOver = false := by
  rcases h.main with hpc | hpc <;> simp [TestState.isOver, h.panicked, hpc]

/-- The one step there is takes main from its loop to the channel. -/
theorem Idle.step_eq (hempty : fd.threadStart = fd.threadEnd) (h : Idle fd s) (a : TestAct) :
    s.step fd a =
      if a = .main ∧ s.main = .go fd.threadStart then some { s with main := .receive }
      else none := by
  unfold TestState.step
  rw [if_neg (by simp [h.isOver])]
  cases a with
  | main =>
    rcases h.main with hpc | hpc
    · simp [TestState.mainStep, hpc, hempty]
    · simp [TestState.mainStep, Chan.receive, hpc, h.queue, h.opened]
  | goroutine t => simp [TestState.goroutineStep, h.scans t]

theorem Idle.step (hempty : fd.threadStart = fd.threadEnd) (h : Idle fd s) {a : TestAct}
    {s' : TestState} (hstep : s.step fd a = some s') :
    s.main = .go fd.threadStart ∧ s'.main = .receive ∧ Idle fd s' := by
  rw [h.step_eq hempty] at hstep
  split_ifs at hstep with hgo
  obtain rfl := Option.some.inj hstep
  exact ⟨hgo.2, rfl, h.scans, h.queue, h.opened, .inr rfl, h.found, h.panicked⟩

theorem Idle.of_reach (hempty : fd.threadStart = fd.threadEnd)
    (hreach : Reach (TestState.step fd) Free fd.mddecode s) : Idle fd s :=
  hreach.invariant (.initial hempty) fun _ _ _ hs _ hstep => (hs.step hempty hstep).2.2

theorem Idle.descends (hempty : fd.threadStart = fd.threadEnd) :
    Descends (TestState.step fd) Free (Idle fd)
      fun s => if s.main = .go fd.threadStart then 1 else 0 where
  keeps _ _ _ h _ hstep := (h.step hempty hstep).2.2
  lowers s _ s' h _ hstep := by
    obtain ⟨hgo, hreceive, -⟩ := h.step hempty hstep
    right
    rw [hgo, hreceive]
    simp

/-- Main is left alone at the channel. -/
theorem exists_deadlocked (hempty : fd.threadStart = fd.threadEnd) (hfair : Fair schedule)
    (hrun : Scheduled (TestState.step fd) Free fd.mddecode schedule run) :
    ∃ n, (∀ m ≥ n, run m = run n) ∧ (run n).deadlocked fd ∧ (run n).found = none := by
  have hinv := Idle.initial hempty
  obtain ⟨n, hrest⟩ := (Idle.descends hempty).exists_atRest hinv hrun hfair
  have hn := (Idle.descends hempty).holds hinv hrun n
  refine ⟨n, fun m hm => hrun.atRest hrest hm, ⟨hn.isOver, fun a => ?_⟩, hn.found⟩
  by_contra hnone
  obtain ⟨s', hstep⟩ := Option.ne_none_iff_exists'.mp hnone
  obtain ⟨hgo, hreceive, -⟩ := hn.step hempty hstep
  rw [hrest a s' trivial hstep, hgo] at hreceive
  cases hreceive

/-! For a negative size of the channel nothing happens at all -/

theorem step_of_isOver (hover : s.isOver = true) (a : TestAct) : s.step fd a = none := by
  unfold TestState.step
  rw [if_pos hover]

theorem isOver_mddecode (hnegative : fd.threadEnd < fd.threadStart) :
    fd.mddecode.isOver = true := by
  simp [TestState.isOver, MdTest.mddecode, hnegative]

theorem eq_mddecode_of_reach (hnegative : fd.threadEnd < fd.threadStart)
    (hreach : Reach (TestState.step fd) Free fd.mddecode s) : s = fd.mddecode :=
  hreach.invariant (P := fun s => s = fd.mddecode) rfl fun _ a _ hs _ hstep => by
    rw [hs, step_of_isOver (isOver_mddecode hnegative) a] at hstep
    cases hstep

/-! What `mdtest` reports -/

/-- What is reported is a block a goroutine has found, and a goroutine panics only
when there is something to report. A fair run comes to its end when there is a
goroutine, and has a report then just when one of them finds the block; without
one main is left alone at the channel, and nothing is done for a negative size. -/
theorem mdtest_outcome (fd : MdTest) :
    (∀ s, Reach (TestState.step fd) Free fd.mddecode s →
      (∀ t buffer, s.found = some (t, buffer) →
        fd.InRange t ∧ fd.Hits t ∧ buffer = fd.byteblock) ∧
      (s.panicked = true → s.found ≠ none ∨ fd.threadEnd < fd.threadStart) ∧
      (s.deadlocked fd → fd.threadStart = fd.threadEnd)) ∧
    ∀ schedule run, Fair schedule → Scheduled (TestState.step fd) Free fd.mddecode schedule run →
      ∃ n, (∀ m ≥ n, run m = run n) ∧
        (fd.threadStart < fd.threadEnd → (run n).isOver = true ∧
          ((run n).found ≠ none ↔ ∃ t, fd.InRange t ∧ fd.Hits t)) ∧
        (fd.threadStart = fd.threadEnd → (run n).deadlocked fd ∧ (run n).found = none) ∧
        (fd.threadEnd < fd.threadStart → (run n).panicked = true ∧ (run n).found = none) := by
  rcases lt_trichotomy (fd.threadStart : ℤ) fd.threadEnd with hrange | hempty | hnegative
  · refine ⟨fun s hreach => ?_, fun schedule run hfair hrun => ?_⟩
    · have hinv := TestInv.of_reach hrange hreach
      refine ⟨hinv.found, fun hpanicked => .inl (hinv.panicked hpanicked), fun hdead => ?_⟩
      obtain ⟨a, s', hstep⟩ := TestState.exists_step hinv hdead.1
      rw [hdead.2 a] at hstep
      cases hstep
    · obtain ⟨n, hinv, hover, hstays⟩ := exists_isOver hrange hfair hrun
      exact ⟨n, hstays, fun _ => ⟨hover, hinv.found_iff hover⟩, fun heq => absurd heq hrange.ne,
        fun hlt => absurd hlt hrange.asymm⟩
  · refine ⟨fun s hreach => ?_, fun schedule run hfair hrun => ?_⟩
    · have hidle := Idle.of_reach hempty hreach
      refine ⟨fun t buffer hfound => ?_, fun hpanicked => ?_, fun _ => hempty⟩
      · rw [hidle.found] at hfound
        cases hfound
      · rw [hidle.panicked] at hpanicked
        cases hpanicked
    · obtain ⟨n, hstays, hdead⟩ := exists_deadlocked hempty hfair hrun
      exact ⟨n, hstays, fun hlt => absurd hempty hlt.ne, fun _ => hdead,
        fun hlt => absurd hempty.symm hlt.ne⟩
  · refine ⟨fun s hreach => ?_, fun schedule run hfair hrun => ?_⟩
    · obtain rfl := eq_mddecode_of_reach hnegative hreach
      refine ⟨fun t buffer hfound => ?_, fun _ => .inr hnegative, fun hdead => ?_⟩
      · cases hfound
      · have hover := hdead.1
        rw [isOver_mddecode hnegative] at hover
        cases hover
    · have hsame (n : ℕ) : run n = fd.mddecode := eq_mddecode_of_reach hnegative (hrun.reach n)
      refine ⟨0, fun m _ => (hsame m).trans (hsame 0).symm, fun hlt => absurd hlt hnegative.asymm,
        fun heq => absurd heq hnegative.ne', fun _ => ?_⟩
      rw [hsame 0]
      exact ⟨decide_eq_true hnegative, rfl⟩

end

instance : Countable TestAct := by
  apply Function.Injective.countable (f := fun
    | TestAct.main => none
    | TestAct.goroutine thread => some thread)
  rintro (_ | _) (_ | _) h
  · rfl
  · cases h
  · cases h
  · rw [Option.some.inj h]

instance : Nonempty TestAct := ⟨.main⟩

/-- A byte that is searched for by the second of two goroutines. The bytes 9 and 13
are what they test. -/
def thirteenTest : MdTest where
  blocksizeInt := 1
  modsizeInt := 2
  threadCount := 2
  startFlag := 0
  endFlag := 0
  byteblock := [13]
  md5 := fun data =>
    if data = [9] then [94, 115, 42, 24, 120, 190, 35, 66, 219, 254, 255, 95, 227, 202, 90, 163]
    else if data = [13] then
      [220, 185, 190, 47, 96, 78, 93, 249, 29, 235, 150, 89, 190, 212, 116, 141]
    else data
  sha1 := fun data =>
    if data = [9] then
      [172, 146, 49, 218, 64, 130, 67, 10, 254, 143, 77, 64, 18, 120, 20, 198, 19, 100, 141, 142]
    else if data = [13] then
      [17, 244, 222, 107, 139, 69, 207, 128, 81, 177, 209, 127, 164, 205, 233, 173, 147, 92, 234,
        65]
    else data

theorem mdtest_outcome_thirteen : ∃ schedule run n, Fair schedule ∧
    Scheduled (TestState.step thirteenTest) Free thirteenTest.mddecode schedule run ∧
    (run n).isOver = true ∧
    ((run n).found ≠ none ↔ ∃ t, thirteenTest.InRange t ∧ thirteenTest.Hits t) := by
  obtain ⟨schedule, run, hfair, hrun⟩ :=
    exists_fair_scheduled (TestState.step thirteenTest) Free thirteenTest.mddecode
  obtain ⟨n, -, hends, -⟩ := (mdtest_outcome thirteenTest).2 schedule run hfair hrun
  have hrange : (thirteenTest.threadStart : ℤ) < thirteenTest.threadEnd := by decide
  exact ⟨schedule, run, n, hfair, hrun, hends hrange⟩

/-! The goroutine that finds the block -/

namespace MdTest

variable (fd : MdTest)

/-- The goroutine that has the block among its candidates. -/
def owner : ℕ :=
  Stride.owner fd.threadCount.toNat
    ((ofBE fd.byteblock -
      (fd.modulusBigIntRemainder + convertFloorBase2 (2 ^ fd.modExp) fd.modulusBigInt)) /
        fd.modulusBigInt)

/-- No other bytes of the size and the remainder of the block have both its
signatures. -/
def Separated : Prop :=
  ∀ data : List UInt8, data.length = fd.blocksizeInt →
    ofBE data % fd.modulusBigInt = fd.modulusBigIntRemainder →
    fd.sameSignatures data = true → data = fd.byteblock

instance (t : ℕ) : Decidable (fd.InRange t) :=
  inferInstanceAs (Decidable (fd.threadStart ≤ t ∧ (t : ℤ) < fd.threadEnd))

variable {fd} {t : ℕ}

theorem exists_value_eq_iff (hmod : 1 ≤ fd.modsizeInt) (ht : (t : ℤ) < fd.threadCount) :
    (∃ i, fd.value t i = ofBE fd.byteblock) ↔ t = fd.owner := by
  obtain ⟨q, hq⟩ : ∃ q, ofBE fd.byteblock = fd.modulusBigIntRemainder +
      convertFloorBase2 (2 ^ fd.modExp) fd.modulusBigInt + q * fd.modulusBigInt :=
    ⟨_, block_eq_floor_add (by omega) le_rfl⟩
  have hpos : 0 < fd.modulusBigInt := pow_pos two_pos _
  have howner : fd.owner = Stride.owner fd.threadCount.toNat q := by
    have hbase : ofBE fd.byteblock -
        (fd.modulusBigIntRemainder + convertFloorBase2 (2 ^ fd.modExp) fd.modulusBigInt) =
          q * fd.modulusBigInt := by
      conv_lhs => rw [hq]
      exact Nat.add_sub_cancel_left ..
    rw [owner, hbase, Nat.mul_div_cancel _ hpos]
  have hvisit (i : ℕ) : fd.value t i = ofBE fd.byteblock ↔
      t = Stride.owner fd.threadCount.toNat q ∧ i = Stride.position fd.threadCount.toNat q := by
    rw [value, hq]
    exact Stride.visit_eq_iff_owner hpos (by omega)
  rw [howner]
  constructor
  · rintro ⟨i, hi⟩
    exact ((hvisit i).mp hi).1
  · intro heq
    exact ⟨_, (hvisit _).mpr ⟨heq, rfl⟩⟩

theorem value_lt (hthreads : 0 < fd.threadCount) {i j : ℕ} (h : j < i) :
    fd.value t j < fd.value t i := by
  have hstep := modulusThreadCount_pos hthreads
  have hmono : fd.value t (j + 1) ≤ fd.value t i := value_mono h
  rw [value_succ] at hmono
  omega

theorem value_mod (t i : ℕ) : fd.value t i % fd.modulusBigInt = fd.modulusBigIntRemainder := by
  obtain ⟨c, hc⟩ := dvd_convertFloorBase2 fd.modExp fd.modsizeInt.toNat
  have hfloor : convertFloorBase2 (2 ^ fd.modExp) fd.modulusBigInt = fd.modulusBigInt * c := hc
  have hsplit : fd.value t i =
      fd.modulusBigIntRemainder + fd.modulusBigInt * (c + t + i * fd.threadCount.toNat) := by
    rw [value, Stride.visit, hfloor]
    ring
  rw [hsplit, Nat.add_mul_mod_self_left]
  exact Nat.mod_mod _ _

/-- The owner finds the block: what it tests before has other signatures. -/
theorem hits_owner (hmod : 1 ≤ fd.modsizeInt) (hthreads : 0 < fd.threadCount)
    (hsize : fd.byteblock.length = fd.blocksizeInt) (hsep : fd.Separated) :
    fd.Hits fd.owner := by
  have howner : (fd.owner : ℤ) < fd.threadCount := by
    have hlt : fd.owner < fd.threadCount.toNat :=
      Stride.owner_lt (Int.pos_iff_toNat_pos.mp hthreads)
    omega
  obtain ⟨i, hi⟩ : ∃ i, fd.value fd.owner i = ofBE fd.byteblock :=
    (exists_value_eq_iff hmod howner).mpr rfl
  have hfit : ofBE fd.byteblock < 256 ^ fd.blocksizeInt := hsize ▸ ofBE_lt fd.byteblock
  refine .inl ⟨i, ⟨.inr ?_, ?_⟩, ?_, fun j hj => ?_⟩
  · exact hi.trans_le (lt_two_pow_logN (ofBE fd.byteblock)).le
  · exact hi.trans_lt hfit
  · rw [bufferAt, hi, ← hsize, toBE_ofBE]
  · by_contra hsame
    have hlt : fd.value fd.owner j < ofBE fd.byteblock := (value_lt hthreads hj).trans_eq hi
    have hvalue : ofBE (fd.bufferAt fd.owner j) = fd.value fd.owner j :=
      ofBE_toBE_of_lt (hlt.trans hfit)
    have hmodulus := @value_mod fd fd.owner j
    have hblock : fd.bufferAt fd.owner j = fd.byteblock :=
      hsep _ (length_toBE _ _) (by rw [hvalue, hmodulus]) (by simpa using hsame)
    rw [hblock] at hvalue
    omega

/-- Another goroutine ends with a block of zeros at the most. -/
theorem Hits.eq_owner (h : fd.Hits t) (hmod : 1 ≤ fd.modsizeInt) (ht : (t : ℤ) < fd.threadCount)
    (hzeros : fd.byteblock ≠ List.replicate fd.blocksizeInt 0) : t = fd.owner := by
  rcases h with ⟨i, ⟨-, hfit⟩, hblock, -⟩ | ⟨-, hreplicate⟩
  · have hvalue : ofBE (fd.bufferAt t i) = fd.value t i := ofBE_toBE_of_lt hfit
    rw [hblock] at hvalue
    exact (exists_value_eq_iff hmod ht).mp ⟨i, hvalue.symm⟩
  · exact absurd hreplicate.symm hzeros

end MdTest

/-- When the signatures tell the block from the others with its remainder,
`mdtest` finds it if the goroutine that owns it is among those that are started.
A block that is not all zeros is found by no other. -/
theorem mdtest_finds {fd : MdTest} (hmod : 1 ≤ fd.modsizeInt)
    (hsize : fd.byteblock.length = fd.blocksizeInt) (hsep : fd.Separated)
    (hrange : fd.threadStart < fd.threadEnd) {schedule : ℕ → TestAct} {run : ℕ → TestState}
    (hfair : Fair schedule)
    (hrun : Scheduled (TestState.step fd) Free fd.mddecode schedule run) :
    ∃ n, (∀ m ≥ n, run m = run n) ∧ (run n).isOver = true ∧
      (fd.InRange fd.owner → ∃ t, (run n).found = some (t, fd.byteblock)) ∧
      (fd.byteblock ≠ List.replicate fd.blocksizeInt 0 →
        (run n).found = if fd.InRange fd.owner then some (fd.owner, fd.byteblock) else none) := by
  have hthreads := MdTest.threadCount_pos hrange
  obtain ⟨n, hinv, hover, hstays⟩ := exists_isOver hrange hfair hrun
  have hfound (hfound : (run n).found ≠ none) :
      ∃ t, fd.InRange t ∧ fd.Hits t ∧ (run n).found = some (t, fd.byteblock) := by
    obtain ⟨⟨t, buf⟩, heq⟩ := Option.ne_none_iff_exists'.mp hfound
    obtain ⟨ht, hits, rfl⟩ := hinv.found t buf heq
    exact ⟨t, ht, hits, heq⟩
  have hfinds (howner : fd.InRange fd.owner) : (run n).found ≠ none :=
    (hinv.found_iff hover).mpr ⟨_, howner, MdTest.hits_owner hmod hthreads hsize hsep⟩
  refine ⟨n, hstays, hover, fun howner => ?_, fun hzeros => ?_⟩
  · obtain ⟨t, -, -, heq⟩ := hfound (hfinds howner)
    exact ⟨t, heq⟩
  · have howned {t : ℕ} (ht : fd.InRange t) (hits : fd.Hits t) : t = fd.owner :=
      hits.eq_owner hmod (ht.2.trans_le fd.threadEnd_le) hzeros
    split_ifs with howner
    · obtain ⟨t, ht, hits, heq⟩ := hfound (hfinds howner)
      rw [heq, howned ht hits]
    · by_contra hne
      obtain ⟨t, ht, hits, -⟩ := hfound hne
      rw [howned ht hits] at ht
      exact howner ht

theorem separated_thirteenTest : thirteenTest.Separated := by
  intro data hlength _ hsame
  have hmd5 : thirteenTest.md5 data = thirteenTest.md5 [13] := (of_decide_eq_true hsame).1
  by_contra hne
  change ¬ data = [13] at hne
  have hlong : (thirteenTest.md5 data).length = 16 := by
    rw [hmd5]
    rfl
  by_cases hnine : data = [9]
  · rw [hnine] at hmd5
    exact absurd hmd5 (by decide)
  · have hdata : thirteenTest.md5 data = data := by
      rw [thirteenTest]
      dsimp only
      rw [if_neg hnine, if_neg hne]
    rw [hdata, hlength] at hlong
    exact absurd hlong (by decide)

theorem mdtest_finds_thirteen : ∃ schedule run n, Fair schedule ∧
    Scheduled (TestState.step thirteenTest) Free thirteenTest.mddecode schedule run ∧
    (run n).isOver = true ∧ (run n).found = some (1, [13]) := by
  obtain ⟨schedule, run, hfair, hrun⟩ :=
    exists_fair_scheduled (TestState.step thirteenTest) Free thirteenTest.mddecode
  obtain ⟨n, -, hover, -, hfound⟩ := @mdtest_finds thirteenTest (by decide) rfl
    separated_thirteenTest (by decide) _ _ hfair hrun
  exact ⟨schedule, run, n, hfair, hrun, hover, hfound (by decide)⟩

end Mdencode.Go
