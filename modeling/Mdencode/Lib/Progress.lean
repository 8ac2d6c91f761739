import Mathlib.Data.Prod.Lex
import Mathlib.Data.Countable.Basic
import Mdencode.Lib.Transition

/-! Runs under a schedule, and why they come to rest. A system in which every
step that changes the state lowers a measure stops changing under each schedule
that gives every action its turn again and again. -/

namespace Mdencode.Transition

variable {σ α β : Type*} {step : σ → α → Option σ} {ok : σ → α → Prop} {s₀ s s' : σ}
  {schedule : ℕ → α} {run : ℕ → σ}

/-- A run in which an action that is not allowed or not enabled is passed over. -/
structure Scheduled (step : σ → α → Option σ) (ok : σ → α → Prop) (s₀ : σ) (schedule : ℕ → α)
    (run : ℕ → σ) : Prop where
  start : run 0 = s₀
  turn : ∀ n, (ok (run n) (schedule n) ∧ step (run n) (schedule n) = some (run (n + 1))) ∨
    ((ok (run n) (schedule n) → step (run n) (schedule n) = none) ∧ run (n + 1) = run n)

/-- Every action gets its turn again and again. -/
def Fair (schedule : ℕ → α) : Prop := ∀ a n, ∃ m ≥ n, schedule m = a

/-- No action that is allowed changes the state. -/
def AtRest (step : σ → α → Option σ) (ok : σ → α → Prop) (s : σ) : Prop :=
  ∀ a s', ok s a → step s a = some s' → s' = s

/-! There are such runs and schedules -/

open Classical in
theorem exists_scheduled (step : σ → α → Option σ) (ok : σ → α → Prop) (s₀ : σ)
    (schedule : ℕ → α) : ∃ run, Scheduled step ok s₀ schedule run := by
  refine ⟨fun n => n.rec s₀ fun n s =>
    if ok s (schedule n) then (step s (schedule n)).getD s else s, rfl, fun n => ?_⟩
  dsimp only
  split_ifs with hok
  · cases hstep : step _ (schedule n) with
    | none => exact .inr ⟨fun _ => rfl, rfl⟩
    | some s' => exact .inl ⟨hok, rfl⟩
  · exact .inr ⟨fun h => absurd h hok, rfl⟩

theorem exists_fair (α : Type*) [Countable α] [Nonempty α] : ∃ schedule : ℕ → α, Fair schedule := by
  obtain ⟨values, hvalues⟩ := exists_surjective_nat α
  refine ⟨fun n => values n.unpair.1, fun a n => ?_⟩
  obtain ⟨k, rfl⟩ := hvalues a
  refine ⟨Nat.pair k n, Nat.right_le_pair _ _, ?_⟩
  dsimp only
  rw [Nat.unpair_pair]

/-- Something runs under a fair schedule. -/
theorem exists_fair_scheduled [Countable α] [Nonempty α] (step : σ → α → Option σ)
    (ok : σ → α → Prop) (s₀ : σ) :
    ∃ schedule run, Fair schedule ∧ Scheduled step ok s₀ schedule run := by
  obtain ⟨schedule, hfair⟩ := exists_fair α
  obtain ⟨run, hrun⟩ := exists_scheduled step ok s₀ schedule
  exact ⟨schedule, run, hfair, hrun⟩

/-! Runs under a schedule are runs -/

theorem Scheduled.reach (h : Scheduled step ok s₀ schedule run) (n : ℕ) :
    Reach step ok s₀ (run n) := by
  induction n with
  | zero =>
    rw [h.start]
    exact .start
  | succ n ih =>
    rcases h.turn n with ⟨hok, hstep⟩ | ⟨-, hsame⟩
    · exact ih.next _ hok hstep
    · rw [hsame]
      exact ih

theorem Scheduled.atRest (h : Scheduled step ok s₀ schedule run) {n : ℕ}
    (hrest : AtRest step ok (run n)) {m : ℕ} (hm : n ≤ m) : run m = run n := by
  induction m, hm using Nat.le_induction with
  | base => rfl
  | succ m _ ih =>
    rcases h.turn m with ⟨hok, hstep⟩ | ⟨-, hsame⟩
    · rw [ih] at hok hstep
      exact hrest _ _ hok hstep
    · exact hsame.trans ih

/-! A measure that every change lowers -/

/-- In the states that satisfy `inv`, a step changes nothing or lowers the measure. -/
structure Descends [LT β] (step : σ → α → Option σ) (ok : σ → α → Prop) (inv : σ → Prop)
    (measure : σ → β) : Prop where
  keeps : ∀ s a s', inv s → ok s a → step s a = some s' → inv s'
  lowers : ∀ s a s', inv s → ok s a → step s a = some s' → s' = s ∨ measure s' < measure s

section
variable [Preorder β] {inv : σ → Prop} {measure : σ → β}

theorem Descends.holds (h : Descends step ok inv measure) (hinv : inv s₀)
    (hrun : Scheduled step ok s₀ schedule run) (n : ℕ) : inv (run n) :=
  (hrun.reach n).invariant hinv h.keeps

/-- Between two points of a run nothing has changed or the measure has gone down. -/
theorem Descends.between (h : Descends step ok inv measure) (hinv : inv s₀)
    (hrun : Scheduled step ok s₀ schedule run) {n m : ℕ} (hm : n ≤ m) :
    run m = run n ∨ measure (run m) < measure (run n) := by
  induction m, hm using Nat.le_induction with
  | base => exact .inl rfl
  | succ m _ ih =>
    have hturn : run (m + 1) = run m ∨ measure (run (m + 1)) < measure (run m) := by
      rcases hrun.turn m with ⟨hok, hstep⟩ | ⟨-, hsame⟩
      · exact h.lowers _ _ _ (h.holds hinv hrun m) hok hstep
      · exact .inl hsame
    rcases hturn with hsame | hlt
    · rw [hsame]
      exact ih
    · rcases ih with hsame | hlt'
      · exact .inr (hsame ▸ hlt)
      · exact .inr (hlt.trans hlt')

/-- Short of rest some action lowers the measure, and its turn comes. -/
theorem Descends.exists_lower (h : Descends step ok inv measure) (hinv : inv s₀)
    (hrun : Scheduled step ok s₀ schedule run) (hfair : Fair schedule) {n : ℕ}
    (hmoving : ¬ AtRest step ok (run n)) : ∃ m, measure (run m) < measure (run n) := by
  unfold AtRest at hmoving
  push Not at hmoving
  obtain ⟨a, s', hok, hstep, hne⟩ := hmoving
  obtain ⟨m, hm, rfl⟩ := hfair a n
  rcases h.between hinv hrun hm with hsame | hlt
  · refine ⟨m + 1, ?_⟩
    rw [← hsame] at hok hstep hne ⊢
    have hnext : run (m + 1) = s' := by
      rcases hrun.turn m with ⟨-, hturn⟩ | ⟨hnone, -⟩
      · exact Option.some.inj (hturn.symm.trans hstep)
      · rw [hnone hok] at hstep
        cases hstep
    rw [hnext]
    exact (h.lowers _ _ _ (h.holds hinv hrun m) hok hstep).resolve_left hne
  · exact ⟨m, hlt⟩

/-- Under a fair schedule every run comes to rest. -/
theorem Descends.exists_atRest [WellFoundedLT β] (h : Descends step ok inv measure)
    (hinv : inv s₀) (hrun : Scheduled step ok s₀ schedule run) (hfair : Fair schedule) :
    ∃ n, AtRest step ok (run n) := by
  obtain ⟨-, ⟨n, rfl⟩, hmin⟩ := wellFounded_lt.has_min (Set.range fun n => measure (run n))
    ⟨_, Set.mem_range_self 0⟩
  refine ⟨n, ?_⟩
  by_contra hmoving
  obtain ⟨m, hlt⟩ := h.exists_lower hinv hrun hfair hmoving
  exact hmin _ (Set.mem_range_self m) hlt

end

end Mdencode.Transition
