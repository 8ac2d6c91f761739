import Mdencode.Go.MdTest

/-! What `mdtest` reports. Main counts the goroutines that have found nothing,
and a match is sent before its goroutine is counted, so main gives up only when
there is no match; and a goroutine panics only after the match of another. -/

namespace Mdencode.Go

open Mdencode.Bytes Mdencode.Transition Mdencode.Channel

/-! What a step does -/

namespace TestState

/-- The steps of a goroutine. -/
inductive GoroutineMoves (fd : MdTest) (s : TestState) (t : ℕ) : TestState → Prop
  | start (hpc : s.scans t = .start) : GoroutineMoves fd s t (s.move t (fd.begin t))
  | loop (v : ℕ) (buf : List UInt8) (hpc : s.scans t = .loop v buf) :
      GoroutineMoves fd s t (s.move t (fd.pass v buf))
  | panic (hpc : (∃ buf, s.scans t = .sendMatch buf) ∨ s.scans t = .sendNotFound)
      (hclosed : s.c.closed = true) : GoroutineMoves fd s t { s with panicked := true }
  | sendMatch (buf : List UInt8) (hpc : s.scans t = .sendMatch buf) (hopen : s.c.closed = false) :
      GoroutineMoves fd s t { s.move t .sendNotFound with
        c := { s.c with queue := s.c.queue ++ [.matched t buf] } }
  | sendNotFound (hpc : s.scans t = .sendNotFound) (hopen : s.c.closed = false) :
      GoroutineMoves fd s t { s.move t .done with
        c := { s.c with queue := s.c.queue ++ [.notFound] } }

/-- The steps of main. -/
inductive MainMoves (fd : MdTest) (s : TestState) : TestState → Prop
  | go (t : ℕ) (hpc : s.main = .go t) (hlt : (t : ℤ) < fd.threadEnd) :
      MainMoves fd s { s.move t .start with main := .go (t + 1) }
  | started (t : ℕ) (hpc : s.main = .go t) (hge : fd.threadEnd ≤ t) :
      MainMoves fd s { s with main := .receive }
  | ended (hpc : s.main = .receive) (hqueue : s.c.queue = []) (hclosed : s.c.closed = true) :
      MainMoves fd s { s with main := .returned }
  | received (resp : Response) (queue : List Response) (hpc : s.main = .receive)
      (hqueue : s.c.queue = resp :: queue) :
      MainMoves fd s { s with c := { s.c with queue }, main := .response resp }
  | found (t : ℕ) (buf : List UInt8) (hpc : s.main = .response (.matched t buf)) :
      MainMoves fd s { s with found := some (t, buf), main := .closeFound }
  | last (hpc : s.main = .response .notFound) (hcl : s.cl = fd.count) :
      MainMoves fd s { s with main := .closeLast }
  | counted (hpc : s.main = .response .notFound) (hcl : s.cl ≠ fd.count) :
      MainMoves fd s { s with cl := s.cl + 1, main := .receive }
  | closedTwice (hpc : s.main = .closeFound ∨ s.main = .closeLast) (hclosed : s.c.closed = true) :
      MainMoves fd s { s with panicked := true }
  | closeFound (hpc : s.main = .closeFound) (hopen : s.c.closed = false) :
      MainMoves fd s { s with c := { s.c with closed := true }, main := .returned }
  | closeLast (hpc : s.main = .closeLast) (hopen : s.c.closed = false) :
      MainMoves fd s { s with c := { s.c with closed := true }, main := .receive }
  | exit (hpc : s.main = .returned) : MainMoves fd s { s with main := .exited }

theorem goroutineMoves_of_step {fd : MdTest} {s s' : TestState} {t : ℕ}
    (h : s.goroutineStep fd t = some s') : GoroutineMoves fd s t s' := by
  cases hpc : s.scans t with
  | init | done =>
    simp only [goroutineStep, hpc] at h
    cases h
  | start =>
    simp only [goroutineStep, hpc] at h
    obtain rfl := Option.some.inj h
    exact .start hpc
  | loop v buf =>
    simp only [goroutineStep, hpc] at h
    obtain rfl := Option.some.inj h
    exact .loop v buf hpc
  | sendMatch buf =>
    simp only [goroutineStep, hpc, sendStep] at h
    cases hsend : s.c.send (.matched t buf) with
    | blocked => simp [hsend] at h
    | panic =>
      simp only [hsend] at h
      obtain rfl := Option.some.inj h
      exact .panic (.inl ⟨buf, hpc⟩) (Chan.send_eq_panic hsend)
    | sent c =>
      simp only [hsend] at h
      obtain ⟨hopen, rfl⟩ := Chan.send_eq_sent hsend
      obtain rfl := Option.some.inj h
      exact .sendMatch buf hpc hopen
  | sendNotFound =>
    simp only [goroutineStep, hpc, sendStep] at h
    cases hsend : s.c.send .notFound with
    | blocked => simp [hsend] at h
    | panic =>
      simp only [hsend] at h
      obtain rfl := Option.some.inj h
      exact .panic (.inr hpc) (Chan.send_eq_panic hsend)
    | sent c =>
      simp only [hsend] at h
      obtain ⟨hopen, rfl⟩ := Chan.send_eq_sent hsend
      obtain rfl := Option.some.inj h
      exact .sendNotFound hpc hopen

theorem closeStep_cases {s s' : TestState} {main : TestMain} (h : s.closeStep main = some s') :
    (s.c.closed = true ∧ s' = { s with panicked := true }) ∨
      (s.c.closed = false ∧ s' = { s with c := { s.c with closed := true }, main }) := by
  rw [closeStep, Chan.close] at h
  cases hclosed : s.c.closed with
  | true =>
    simp only [hclosed, if_true] at h
    exact .inl ⟨rfl, (Option.some.inj h).symm⟩
  | false =>
    simp only [hclosed, Bool.false_eq_true, if_false] at h
    exact .inr ⟨rfl, (Option.some.inj h).symm⟩

theorem mainMoves_of_step {fd : MdTest} {s s' : TestState} (h : s.mainStep fd = some s') :
    MainMoves fd s s' := by
  cases hpc : s.main with
  | go t =>
    simp only [mainStep, hpc] at h
    split_ifs at h with hlt
    · obtain rfl := Option.some.inj h
      exact .go t hpc hlt
    · obtain rfl := Option.some.inj h
      exact .started t hpc (not_lt.mp hlt)
  | receive =>
    simp only [mainStep, hpc] at h
    cases hreceive : s.c.receive with
    | blocked => simp [hreceive] at h
    | ended =>
      simp only [hreceive] at h
      obtain ⟨hqueue, hclosed⟩ := Chan.receive_eq_ended hreceive
      obtain rfl := Option.some.inj h
      exact .ended hpc hqueue hclosed
    | received resp c =>
      simp only [hreceive] at h
      obtain ⟨hqueue, hc⟩ := Chan.receive_eq_received hreceive
      obtain rfl := Option.some.inj h
      rw [hc]
      exact .received resp c.queue hpc hqueue
  | response resp =>
    cases resp with
    | matched t buf =>
      simp only [mainStep, hpc] at h
      obtain rfl := Option.some.inj h
      exact .found t buf hpc
    | notFound =>
      simp only [mainStep, hpc] at h
      split_ifs at h with hcl
      · obtain rfl := Option.some.inj h
        exact .last hpc hcl
      · obtain rfl := Option.some.inj h
        exact .counted hpc hcl
  | closeFound =>
    have hclose : s.closeStep .returned = some s' := by
      rw [mainStep, hpc] at h
      exact h
    rcases closeStep_cases hclose with ⟨hclosed, rfl⟩ | ⟨hopen, rfl⟩
    · exact .closedTwice (.inl hpc) hclosed
    · exact .closeFound hpc hopen
  | closeLast =>
    have hclose : s.closeStep .receive = some s' := by
      rw [mainStep, hpc] at h
      exact h
    rcases closeStep_cases hclose with ⟨hclosed, rfl⟩ | ⟨hopen, rfl⟩
    · exact .closedTwice (.inr hpc) hclosed
    · exact .closeLast hpc hopen
  | returned =>
    simp only [mainStep, hpc] at h
    obtain rfl := Option.some.inj h
    exact .exit hpc
  | exited =>
    simp only [mainStep, hpc] at h
    cases h

theorem moves_of_step {fd : MdTest} {s s' : TestState} {a : TestAct} (h : s.step fd a = some s') :
    s.isOver = false ∧ (s.MainMoves fd s' ∨ ∃ t, s.GoroutineMoves fd t s') := by
  unfold step at h
  split_ifs at h with hover
  refine ⟨by simpa using hover, ?_⟩
  cases a with
  | main => exact .inl (mainMoves_of_step h)
  | goroutine t => exact .inr ⟨t, goroutineMoves_of_step h⟩

end TestState

/-! The invariant -/

namespace MdTest

variable (fd : MdTest)

/-- The goroutines that are started. -/
def InRange (t : ℕ) : Prop := fd.threadStart ≤ t ∧ (t : ℤ) < fd.threadEnd

def goroutines : Finset ℕ := Finset.Ico fd.threadStart fd.threadEnd.toNat

/-- A report of a match is true. -/
def Truthful : Response → Prop
  | .notFound => True
  | .matched t buf => fd.InRange t ∧ fd.Hits t ∧ buf = fd.byteblock

def ScanFacts (t : ℕ) : TestPc → Prop
  | .loop v buf => ∃ i, fd.LoopAt t i v buf
  | .sendMatch buf => fd.Hits t ∧ buf = fd.byteblock
  | _ => True

end MdTest

/-- The `go` statement of the goroutine is still to come. -/
def TestMain.before : TestMain → ℕ → Prop
  | .go k, t => k ≤ t
  | _, _ => False

/-- The messages without a find that main has taken out of the channel. -/
def TestState.taken (s : TestState) : ℕ :=
  match s.main with
  | .receive => if s.c.closed then s.cl else s.cl - 1
  | .response (.matched _ _) | .go _ => s.cl - 1
  | _ => s.cl

def TestState.doneCount (fd : MdTest) (s : TestState) : ℕ :=
  (fd.goroutines.filter fun t => s.scans t = .done).card

/-- The match of a goroutine is in the channel, or main has got some match. -/
def TestState.Announced (s : TestState) (t : ℕ) : Prop :=
  s.found ≠ none ∨ (∃ u buf, s.main = .response (.matched u buf)) ∨
    ∃ buf, Response.matched t buf ∈ s.c.queue

/-- What is known of main's place. -/
structure MainFacts (fd : MdTest) (s : TestState) : Prop where
  cl : 1 ≤ s.cl ∧ s.cl ≤ fd.count
  going : ∀ t, s.main = .go t → fd.threadStart ≤ t ∧ (t : ℤ) ≤ fd.threadEnd
  looking : s.found = none ∨ s.main = .closeFound ∨ s.main = .returned ∨ s.main = .exited
  closing : s.main = .closeFound → s.found ≠ none
  counted : s.main = .closeLast ∨ s.c.closed = true → s.found ≠ none ∨ s.cl = fd.count
  opened : s.c.closed = true → s.main = .receive ∨ s.main = .returned ∨ s.main = .exited
  ended : s.main = .returned ∨ s.main = .exited → s.c.closed = true

structure TestInv (fd : MdTest) (s : TestState) : Prop where
  scan : ∀ t, fd.ScanFacts t (s.scans t)
  fresh : ∀ t, s.scans t = .init ↔ ¬ fd.InRange t ∨ s.main.before t
  cap : s.c.cap = fd.count
  main : MainFacts fd s
  queue : ∀ resp ∈ s.c.queue, fd.Truthful resp
  response : ∀ resp, s.main = .response resp → fd.Truthful resp
  found : ∀ t buf, s.found = some (t, buf) → fd.Truthful (.matched t buf)
  tally : s.found = none →
    Counted Response.isNotFound s.taken (s.doneCount fd) fd.count s.c.queue
  announced : ∀ t, s.scans t = .sendNotFound ∨ s.scans t = .done → fd.Hits t → s.Announced t
  panicked : s.panicked = true → s.found ≠ none

section
variable {fd : MdTest} {s s' : TestState} {t : ℕ}

@[simp] theorem TestState.move_self (s : TestState) (t : ℕ) (pc : TestPc) :
    (s.move t pc).scans t = pc := by
  simp [TestState.move]

theorem TestState.move_ne {u : ℕ} (h : u ≠ t) (s : TestState) (pc : TestPc) :
    (s.move t pc).scans u = s.scans u := by
  simp [TestState.move, h]

/-! Counting the goroutines that are through -/

theorem MdTest.mem_goroutines : t ∈ fd.goroutines ↔ fd.InRange t := by
  rw [MdTest.goroutines, Finset.mem_Ico, MdTest.InRange]
  omega

theorem MdTest.card_goroutines (fd : MdTest) : fd.goroutines.card = fd.count := by
  rw [MdTest.goroutines, Nat.card_Ico, MdTest.count]
  omega

theorem TestState.doneCount_lt (hrange : fd.InRange t) (hpc : s.scans t ≠ .done) :
    s.doneCount fd < fd.count := by
  have hmem : t ∈ fd.goroutines := MdTest.mem_goroutines.mpr hrange
  have hlt := Finset.card_lt_card
    ((Finset.filter_ssubset (p := fun u => s.scans u = .done)).mpr ⟨t, hmem, hpc⟩)
  rwa [MdTest.card_goroutines] at hlt

theorem TestState.doneCount_move (hold : s.scans t ≠ .done) {pc : TestPc} (hnew : pc ≠ .done) :
    (s.move t pc).doneCount fd = s.doneCount fd := by
  have hsame : ∀ u, (s.move t pc).scans u = .done ↔ s.scans u = .done := by
    intro u
    by_cases hu : u = t
    · subst hu
      rw [TestState.move_self]
      exact iff_of_false hnew hold
    · rw [TestState.move_ne hu]
  simp only [TestState.doneCount, hsame]

theorem TestState.doneCount_move_done (hrange : fd.InRange t) (hold : s.scans t ≠ .done) :
    (s.move t .done).doneCount fd = s.doneCount fd + 1 := by
  have hmem : t ∈ fd.goroutines := MdTest.mem_goroutines.mpr hrange
  have hinsert : fd.goroutines.filter (fun u => (s.move t .done).scans u = .done) =
      insert t (fd.goroutines.filter fun u => s.scans u = .done) := by
    ext u
    by_cases hu : u = t
    · subst hu
      simp [hmem, TestState.move_self]
    · simp [hu, TestState.move_ne hu]
  rw [TestState.doneCount, hinsert, Finset.card_insert_of_notMem (by simp [hold])]
  rfl

/-! The invariant holds at first -/

theorem TestInv.initial (hrange : fd.threadStart < fd.threadEnd) : TestInv fd fd.mddecode := by
  have hcount : 1 ≤ fd.count := by
    rw [MdTest.count]
    omega
  have hdone : fd.goroutines.filter (fun _ => TestPc.init = TestPc.done) = ∅ := by simp
  refine ⟨fun t => trivial, fun t => iff_of_true rfl ?_, rfl, ?_, fun resp h => ?_,
    fun resp h => ?_, fun t buf h => ?_, fun _ => ?_, fun t h => ?_, fun h => ?_⟩
  · by_cases ht : fd.InRange t
    · exact .inr ht.1
    · exact .inl ht
  · refine ⟨⟨le_rfl, hcount⟩, fun t ht => ?_, .inl rfl, fun h => ?_, fun h => ?_, fun h => ?_,
      fun h => ?_⟩
    · obtain rfl := TestMain.go.inj ht
      exact ⟨le_rfl, hrange.le⟩
    · cases h
    · rcases h with h | h <;> cases h
    · cases h
    · rcases h with h | h <;> cases h
  · cases h
  · cases h
  · cases h
  · change Counted _ _ (fd.goroutines.filter fun _ => TestPc.init = TestPc.done).card _ _
    rw [hdone]
    exact Counted.start _ _
  · rcases h with h | h <;> cases h
  · exact absurd (of_decide_eq_true h) (not_lt.mpr hrange.le)

/-! A step of a goroutine -/

theorem TestInv.inRange (h : TestInv fd s) (hpc : s.scans t ≠ .init) : fd.InRange t := by
  by_contra hout
  exact hpc ((h.fresh t).mpr (.inl hout))

/-- When main has closed the channel without a find everybody is through. -/
theorem TestInv.all_done (h : TestInv fd s) (hnone : s.found = none)
    (hclosed : s.c.closed = true) : s.c.queue = [] ∧ s.doneCount fd = fd.count := by
  have hcl : s.cl = fd.count := (h.main.counted (.inr hclosed)).resolve_left fun h => h hnone
  have htaken : s.taken = s.cl := by
    rcases h.main.opened hclosed with hpc | hpc | hpc <;> simp [TestState.taken, hpc, hclosed]
  exact (h.tally hnone).all_received (by omega)

/-- A pass of a scan changes nothing else. -/
theorem TestInv.moved (h : TestInv fd s) {pc : TestPc} (hinit : s.scans t ≠ .init)
    (hdone : s.scans t ≠ .done) (hscan : fd.ScanFacts t pc) (hpc : pc ≠ .init ∧ pc ≠ .done)
    (hmiss : pc = .sendNotFound → ¬ fd.Hits t) : TestInv fd (s.move t pc) where
  scan u := by
    by_cases hu : u = t
    · subst hu
      rwa [TestState.move_self]
    · rw [TestState.move_ne hu]
      exact h.scan u
  fresh u := by
    by_cases hu : u = t
    · subst hu
      rw [TestState.move_self]
      exact iff_of_false hpc.1 fun hbefore => hinit ((h.fresh u).mpr hbefore)
    · rw [TestState.move_ne hu]
      exact h.fresh u
  cap := h.cap
  main := ⟨h.main.cl, h.main.going, h.main.looking, h.main.closing, h.main.counted, h.main.opened,
    h.main.ended⟩
  queue := h.queue
  response := h.response
  found := h.found
  tally hnone := by
    rw [TestState.doneCount_move hdone hpc.2]
    exact h.tally hnone
  announced u hu hits := by
    by_cases heq : u = t
    · subst heq
      rw [TestState.move_self] at hu
      exact absurd hits (hmiss (hu.resolve_right hpc.2))
    · rw [TestState.move_ne heq] at hu
      exact h.announced u hu hits
  panicked := h.panicked

/-- A report is one more message, true if its sender found the block. -/
theorem TestInv.sent (h : TestInv fd s) {resp : Response} {pc : TestPc}
    (hinit : s.scans t ≠ .init) (hscan : fd.ScanFacts t pc) (hpc : pc ≠ .init)
    (htrue : fd.Truthful resp)
    (htally : s.found = none → Counted Response.isNotFound s.taken ((s.move t pc).doneCount fd)
      fd.count (s.c.queue ++ [resp]))
    (hannounced : pc = .sendNotFound ∨ pc = .done → fd.Hits t →
      s.Announced t ∨ ∃ buf, resp = .matched t buf) :
    TestInv fd { s.move t pc with c := { s.c with queue := s.c.queue ++ [resp] } } where
  scan u := by
    by_cases hu : u = t
    · subst hu
      dsimp only
      rwa [TestState.move_self]
    · dsimp only
      rw [TestState.move_ne hu]
      exact h.scan u
  fresh u := by
    by_cases hu : u = t
    · subst hu
      dsimp only
      rw [TestState.move_self]
      exact iff_of_false hpc fun hbefore => hinit ((h.fresh u).mpr hbefore)
    · dsimp only
      rw [TestState.move_ne hu]
      exact h.fresh u
  cap := h.cap
  main := ⟨h.main.cl, h.main.going, h.main.looking, h.main.closing, h.main.counted, h.main.opened,
    h.main.ended⟩
  queue m hm := by
    rcases List.mem_append.mp hm with hm | hm
    · exact h.queue m hm
    · rw [List.mem_singleton.mp hm]
      exact htrue
  response := h.response
  found := h.found
  tally := htally
  announced u hu hits := by
    have hold (hu : s.Announced u) : TestState.Announced
        { s.move t pc with c := { s.c with queue := s.c.queue ++ [resp] } } u := by
      rcases hu with hfound | hmain | ⟨buf, hmem⟩
      · exact .inl hfound
      · exact .inr (.inl hmain)
      · exact .inr (.inr ⟨buf, List.mem_append_left _ hmem⟩)
    by_cases heq : u = t
    · subst heq
      dsimp only at hu
      rw [TestState.move_self] at hu
      rcases hannounced hu hits with hu | ⟨buf, rfl⟩
      · exact hold hu
      · exact .inr (.inr ⟨buf, by simp⟩)
    · dsimp only at hu
      rw [TestState.move_ne heq] at hu
      exact hold (h.announced u hu hits)
  panicked := h.panicked

theorem TestInv.goroutine (h : TestInv fd s) (hmove : s.GoroutineMoves fd t s') :
    TestInv fd s' := by
  have hscan := h.scan t
  cases hmove with
  | start hpc =>
    refine h.moved (by simp [hpc]) (by simp [hpc]) ?_ ?_ ?_
    · rw [MdTest.begin_eq]
      exact ⟨0, MdTest.loopAt_zero t⟩
    · rw [MdTest.begin_eq]
      exact ⟨by simp, by simp⟩
    · rw [MdTest.begin_eq]
      exact fun h => by cases h
  | loop v buf hpc =>
    rw [hpc] at hscan
    obtain ⟨i, hloop⟩ := hscan
    refine h.moved (by simp [hpc]) (by simp [hpc]) ?_ ?_ ?_
    · rcases hloop.pass with ⟨v', buf', hpass, hnext, -⟩ | ⟨hpass, hits⟩ | ⟨hpass, -⟩ <;> rw [hpass]
      · exact ⟨i + 1, hnext⟩
      · exact ⟨hits, rfl⟩
      · trivial
    · rcases hloop.pass with ⟨v', buf', hpass, -⟩ | ⟨hpass, -⟩ | ⟨hpass, -⟩ <;> rw [hpass] <;>
        exact ⟨by simp, by simp⟩
    · intro hsend
      rcases hloop.pass with ⟨v', buf', hpass, -⟩ | ⟨hpass, -⟩ | ⟨-, hmiss⟩
      · rw [hpass] at hsend
        cases hsend
      · rw [hpass] at hsend
        cases hsend
      · exact hmiss
  | panic hpc hclosed =>
    refine { h with main := ?_, panicked := fun _ hnone => ?_ }
    · exact ⟨h.main.cl, h.main.going, h.main.looking, h.main.closing, h.main.counted,
        h.main.opened, h.main.ended⟩
    · have hpc : s.scans t ≠ .init ∧ s.scans t ≠ .done := by
        rcases hpc with ⟨buf, hpc⟩ | hpc <;> rw [hpc] <;> exact ⟨by simp, by simp⟩
      have hlt := TestState.doneCount_lt (h.inRange hpc.1) hpc.2
      have hall := (h.all_done hnone hclosed).2
      omega
  | sendMatch buf hpc hopen =>
    rw [hpc] at hscan
    have hinit : s.scans t ≠ .init := by simp [hpc]
    have hdone : s.scans t ≠ .done := by simp [hpc]
    have hrange := h.inRange hinit
    refine h.sent hinit trivial (fun h => by cases h) ⟨hrange, hscan⟩ (fun hnone => ?_)
      fun _ _ => .inr ⟨buf, rfl⟩
    rw [TestState.doneCount_move hdone fun h => by cases h]
    exact (h.tally hnone).send_word (TestState.doneCount_lt hrange hdone) rfl
  | sendNotFound hpc hopen =>
    have hinit : s.scans t ≠ .init := by simp [hpc]
    have hdone : s.scans t ≠ .done := by simp [hpc]
    have hrange := h.inRange hinit
    refine h.sent hinit trivial (fun h => by cases h) trivial (fun hnone => ?_)
      fun _ hits => .inl (h.announced t (.inl hpc) hits)
    rw [TestState.doneCount_move_done hrange hdone]
    exact (h.tally hnone).send_last (TestState.doneCount_lt hrange hdone) rfl

/-! A step of main -/

/-- Main before it has found anything is not past its loop. -/
theorem MainFacts.found_eq_none (h : MainFacts fd s) (hpc : s.main ≠ .closeFound)
    (hreturned : s.main ≠ .returned) (hexited : s.main ≠ .exited) : s.found = none := by
  rcases h.looking with hnone | hmain | hmain | hmain
  · exact hnone
  · exact absurd hmain hpc
  · exact absurd hmain hreturned
  · exact absurd hmain hexited

theorem MainFacts.not_closed (h : MainFacts fd s) (hpc : s.main ≠ .receive)
    (hreturned : s.main ≠ .returned) (hexited : s.main ≠ .exited) : s.c.closed = false := by
  by_contra hclosed
  rcases h.opened (by simpa using hclosed) with hmain | hmain | hmain
  · exact hpc hmain
  · exact hreturned hmain
  · exact hexited hmain

/-- Main goes on without touching a message. -/
theorem TestInv.relocated (h : TestInv fd s) (main : TestMain) (cl : ℕ) (closed : Bool)
    (hbefore : ∀ t, fd.InRange t → (main.before t ↔ s.main.before t))
    (hmain : MainFacts fd { s with main, cl, c := { s.c with closed } })
    (hresponse : ∀ resp, main ≠ .response resp)
    (hmatched : ∀ t buf, s.main ≠ .response (.matched t buf))
    (htaken : s.found = none →
      TestState.taken { s with main, cl, c := { s.c with closed } } = s.taken) :
    TestInv fd { s with main, cl, c := { s.c with closed } } where
  scan := h.scan
  fresh t := by
    rw [h.fresh t]
    by_cases ht : fd.InRange t
    · exact or_congr_right (hbefore t ht).symm
    · exact iff_of_true (.inl ht) (.inl ht)
  cap := h.cap
  main := hmain
  queue := h.queue
  response resp hresp := absurd hresp (hresponse resp)
  found := h.found
  tally hnone := by
    rw [htaken hnone]
    exact h.tally hnone
  announced t ht hits := by
    rcases h.announced t ht hits with hfound | ⟨u, buf, hu⟩ | hmem
    · exact .inl hfound
    · exact absurd hu (hmatched u buf)
    · exact .inr (.inr hmem)
  panicked := h.panicked

theorem TestInv.main_go (h : TestInv fd s) (hpc : s.main = .go t) (hlt : (t : ℤ) < fd.threadEnd) :
    TestInv fd { s.move t .start with main := .go (t + 1) } := by
  have hge := (h.main.going t hpc).1
  have hinit : s.scans t = .init := (h.fresh t).mpr (.inr (by rw [hpc]; exact le_rfl))
  have hdone : s.scans t ≠ .done := by simp [hinit]
  have hopen : ¬ s.c.closed = true := by
    simp [h.main.not_closed (by simp [hpc]) (by simp [hpc]) (by simp [hpc])]
  have hnone := h.main.found_eq_none (by simp [hpc]) (by simp [hpc]) (by simp [hpc])
  refine ⟨fun u => ?_, fun u => ?_, h.cap, ?_, h.queue, fun resp hresp => ?_, h.found, fun _ => ?_,
    fun u hu hits => ?_, h.panicked⟩
  · by_cases hu : u = t
    · subst hu
      dsimp only
      rw [TestState.move_self]
      trivial
    · dsimp only
      rw [TestState.move_ne hu]
      exact h.scan u
  · by_cases hu : u = t
    · subst hu
      dsimp only
      rw [TestState.move_self]
      refine iff_of_false (by simp) ?_
      rintro (hout | hbefore)
      · exact hout ⟨hge, hlt⟩
      · exact absurd hbefore (by simp [TestMain.before])
    · dsimp only
      rw [TestState.move_ne hu, h.fresh u, hpc]
      have : t ≤ u ↔ t + 1 ≤ u := by omega
      exact or_congr_right this
  · refine ⟨h.main.cl, fun u hu => ?_, .inl hnone, fun hc => ?_, fun hc => ?_, fun hc => ?_,
      fun hc => ?_⟩
    · obtain rfl := TestMain.go.inj hu
      exact ⟨by omega, hlt⟩
    · cases hc
    · rcases hc with hc | hc
      · cases hc
      · exact absurd hc hopen
    · exact absurd hc hopen
    · rcases hc with hc | hc <;> cases hc
  · cases hresp
  · have htally := h.tally hnone
    rw [TestState.taken, hpc] at htally
    have hmoved : (s.move t .start).doneCount fd = s.doneCount fd :=
      TestState.doneCount_move hdone fun h => by cases h
    rw [← hmoved] at htally
    exact htally
  · by_cases heq : u = t
    · subst heq
      dsimp only at hu
      rw [TestState.move_self] at hu
      rcases hu with hu | hu <;> cases hu
    · dsimp only at hu
      rw [TestState.move_ne heq] at hu
      rcases h.announced u hu hits with hfound | ⟨v, buf, hv⟩ | hmem
      · exact .inl hfound
      · rw [hpc] at hv
        cases hv
      · exact .inr (.inr hmem)

theorem TestInv.main_received (h : TestInv fd s) {resp : Response} {queue : List Response}
    (hpc : s.main = .receive) (hqueue : s.c.queue = resp :: queue) :
    TestInv fd { s with c := { s.c with queue }, main := .response resp } := by
  have hnone := h.main.found_eq_none (by simp [hpc]) (by simp [hpc]) (by simp [hpc])
  have hclosed : s.c.closed = false := by
    by_contra hclosed
    have := (h.all_done hnone (by simpa using hclosed)).1
    rw [hqueue] at this
    cases this
  have htally := h.tally hnone
  have hcl := h.main.cl
  rw [TestState.taken, hpc] at htally
  simp only [hclosed, Bool.false_eq_true, if_false] at htally
  rw [hqueue] at htally
  refine ⟨h.scan, fun t => ?_, h.cap, ?_, fun m hm => ?_, fun m hm => ?_, h.found, fun _ => ?_,
    fun t ht hits => ?_, h.panicked⟩
  · rw [h.fresh t, hpc]
    exact Iff.rfl
  · refine ⟨hcl, fun t ht => ?_, .inl hnone, fun hc => ?_, fun hc => ?_, fun hc => ?_, fun hc => ?_⟩
    · cases ht
    · cases hc
    · rcases hc with hc | hc
      · cases hc
      · exact absurd (hc : s.c.closed = true) (by simp [hclosed])
    · exact absurd (hc : s.c.closed = true) (by simp [hclosed])
    · rcases hc with hc | hc <;> cases hc
  · exact h.queue m (by rw [hqueue]; exact List.mem_cons_of_mem _ hm)
  · obtain rfl := TestMain.response.inj hm
    exact h.queue resp (by rw [hqueue]; exact List.mem_cons_self)
  · cases resp with
    | notFound =>
      have hlast := htally.receive_last rfl
      rwa [Nat.sub_add_cancel hcl.1] at hlast
    | matched u buf => exact htally.receive_word rfl
  · rcases h.announced t ht hits with hfound | ⟨u, buf, hu⟩ | ⟨buf, hmem⟩
    · exact .inl hfound
    · rw [hpc] at hu
      cases hu
    · rw [hqueue] at hmem
      rcases List.mem_cons.mp hmem with rfl | hmem
      · exact .inr (.inl ⟨t, buf, rfl⟩)
      · exact .inr (.inr ⟨buf, hmem⟩)

theorem TestInv.main_found (h : TestInv fd s) {buf : List UInt8}
    (hpc : s.main = .response (.matched t buf)) :
    TestInv fd { s with found := some (t, buf), main := .closeFound } := by
  have hclosed := h.main.not_closed (by simp [hpc]) (by simp [hpc]) (by simp [hpc])
  refine ⟨h.scan, fun u => ?_, h.cap, ?_, h.queue, fun resp hresp => ?_, fun u other hu => ?_,
    fun hnone => ?_, fun u _ _ => .inl (by simp), fun _ => by simp⟩
  · rw [h.fresh u, hpc]
    exact Iff.rfl
  · refine ⟨h.main.cl, fun t ht => ?_, .inr (.inl rfl), fun _ => by simp, fun _ => .inl (by simp),
      fun hc => ?_, fun hc => ?_⟩
    · cases ht
    · exact absurd (hc : s.c.closed = true) (by simp [hclosed])
    · rcases hc with hc | hc <;> cases hc
  · cases hresp
  · obtain ⟨rfl, rfl⟩ := Prod.mk.inj (Option.some.inj hu)
    exact h.response _ hpc
  · cases hnone

theorem TestInv.mainMoves (h : TestInv fd s) (hmove : s.MainMoves fd s') : TestInv fd s' := by
  cases hmove with
  | go t hpc hlt => exact h.main_go hpc hlt
  | started t hpc hge =>
    have hclosed := h.main.not_closed (by simp [hpc]) (by simp [hpc]) (by simp [hpc])
    have hnone := h.main.found_eq_none (by simp [hpc]) (by simp [hpc]) (by simp [hpc])
    refine h.relocated .receive s.cl s.c.closed (fun u hu => ?_) ?_ (by simp) (by simp [hpc]) ?_
    · rw [hpc]
      refine iff_of_false id fun hbefore => ?_
      have hle : t ≤ u := hbefore
      have hlt := hu.2
      omega
    · exact ⟨h.main.cl, by simp, .inl hnone, by simp, by simp [hclosed], by simp [hclosed], by simp⟩
    · intro _
      simp [TestState.taken, hpc, hclosed]
  | ended hpc hqueue hclosed =>
    have hnone := h.main.found_eq_none (by simp [hpc]) (by simp [hpc]) (by simp [hpc])
    refine h.relocated .returned s.cl s.c.closed (fun u hu => ?_) ?_ (by simp) (by simp [hpc]) ?_
    · rw [hpc]
      exact Iff.rfl
    · exact ⟨h.main.cl, by simp, .inl hnone, by simp, fun _ => h.main.counted (.inr hclosed),
        by simp, by simp [hclosed]⟩
    · intro _
      simp [TestState.taken, hpc, hclosed]
  | received resp queue hpc hqueue => exact h.main_received hpc hqueue
  | found t buf hpc => exact h.main_found hpc
  | last hpc hcl =>
    have hclosed := h.main.not_closed (by simp [hpc]) (by simp [hpc]) (by simp [hpc])
    have hnone := h.main.found_eq_none (by simp [hpc]) (by simp [hpc]) (by simp [hpc])
    refine h.relocated .closeLast s.cl s.c.closed (fun u hu => ?_) ?_ (by simp) (by simp [hpc]) ?_
    · rw [hpc]
      exact Iff.rfl
    · exact ⟨h.main.cl, by simp, .inl hnone, by simp, fun _ => .inr hcl, by simp [hclosed],
        by simp⟩
    · intro _
      simp [TestState.taken, hpc]
  | counted hpc hcl =>
    have hclosed := h.main.not_closed (by simp [hpc]) (by simp [hpc]) (by simp [hpc])
    have hnone := h.main.found_eq_none (by simp [hpc]) (by simp [hpc]) (by simp [hpc])
    have hle := h.main.cl
    refine h.relocated .receive (s.cl + 1) s.c.closed (fun u hu => ?_) ?_ (by simp) (by simp [hpc])
      ?_
    · rw [hpc]
      exact Iff.rfl
    · exact ⟨⟨by simp, by dsimp only; omega⟩, by simp, .inl hnone, by simp, by simp [hclosed],
        by simp [hclosed], by simp⟩
    · intro _
      simp [TestState.taken, hpc, hclosed]
  | closedTwice hpc hclosed =>
    rcases h.main.opened hclosed with hmain | hmain | hmain <;> rcases hpc with hpc | hpc <;>
      rw [hmain] at hpc <;> cases hpc
  | closeFound hpc hopen =>
    have hfound := h.main.closing hpc
    refine h.relocated .returned s.cl true (fun u hu => ?_) ?_ (by simp) (by simp [hpc]) ?_
    · rw [hpc]
      exact Iff.rfl
    · exact ⟨h.main.cl, by simp, .inr (.inr (.inl rfl)), by simp, fun _ => .inl hfound, by simp,
        by simp⟩
    · exact fun hnone => absurd hnone hfound
  | closeLast hpc hopen =>
    have hnone := h.main.found_eq_none (by simp [hpc]) (by simp [hpc]) (by simp [hpc])
    refine h.relocated .receive s.cl true (fun u hu => ?_) ?_ (by simp) (by simp [hpc]) ?_
    · rw [hpc]
      exact Iff.rfl
    · exact ⟨h.main.cl, by simp, .inl hnone, by simp, fun _ => h.main.counted (.inl hpc), by simp,
        by simp⟩
    · intro _
      simp [TestState.taken, hpc]
  | exit hpc =>
    have hclosed := h.main.ended (.inl hpc)
    refine h.relocated .exited s.cl s.c.closed (fun u hu => ?_) ?_ (by simp) (by simp [hpc]) ?_
    · rw [hpc]
      exact Iff.rfl
    · exact ⟨h.main.cl, by simp, .inr (.inr (.inr rfl)), by simp,
        fun _ => h.main.counted (.inr hclosed), by simp, by simp [hclosed]⟩
    · intro _
      simp [TestState.taken, hpc]

theorem TestInv.step (h : TestInv fd s) {a : TestAct} (hstep : s.step fd a = some s') :
    TestInv fd s' := by
  obtain ⟨-, hmove | ⟨t, hmove⟩⟩ := TestState.moves_of_step hstep
  · exact h.mainMoves hmove
  · exact h.goroutine hmove

end

end Mdencode.Go
