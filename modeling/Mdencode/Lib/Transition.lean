import Mathlib.Tactic

/-! Runs of a deterministic step function that takes one action at a time.
`Reach step ok s₀` holds of the states some run reaches from `s₀` when every
step of the run meets the side condition `ok`. -/

namespace Mdencode.Transition

variable {σ α : Type*} {step : σ → α → Option σ} {ok : σ → α → Prop} {s₀ s s' : σ}

inductive Reach (step : σ → α → Option σ) (ok : σ → α → Prop) (s₀ : σ) : σ → Prop
  | start : Reach step ok s₀ s₀
  | next {s s' : σ} (a : α) : Reach step ok s₀ s → ok s a → step s a = some s' →
      Reach step ok s₀ s'

/-- A run with no condition on its steps. -/
abbrev Free (_ : σ) (_ : α) : Prop := True

/-- The state after a list of actions, when each of them is enabled in turn. -/
def exec (step : σ → α → Option σ) (s : σ) : List α → Option σ
  | [] => some s
  | a :: rest => (step s a).bind fun s' => exec step s' rest

@[simp] theorem exec_nil : exec step s [] = some s := rfl

theorem exec_cons (a : α) (rest : List α) :
    exec step s (a :: rest) = (step s a).bind fun s' => exec step s' rest := rfl

theorem exec_append (as bs : List α) :
    exec step s (as ++ bs) = (exec step s as).bind fun s' => exec step s' bs := by
  induction as generalizing s with
  | nil => rfl
  | cons a as ih =>
    rw [List.cons_append, exec_cons, exec_cons, Option.bind_assoc]
    congr 1
    funext s'
    exact ih

/-- What holds at the start and is kept by every allowed step holds throughout. -/
theorem Reach.invariant {P : σ → Prop} (h : Reach step ok s₀ s) (start : P s₀)
    (keeps : ∀ s a s', P s → ok s a → step s a = some s' → P s') : P s := by
  induction h with
  | start => exact start
  | next a _ ha hs ih => exact keeps _ a _ ih ha hs

theorem Reach.trans {s₁ : σ} (h : Reach step ok s₀ s₁) (h' : Reach step ok s₁ s) :
    Reach step ok s₀ s := by
  induction h' with
  | start => exact h
  | next a _ ha hs ih => exact ih.next a ha hs

theorem Reach.mono {ok' : σ → α → Prop} (h : Reach step ok s₀ s)
    (hok : ∀ s a, ok s a → ok' s a) : Reach step ok' s₀ s := by
  induction h with
  | start => exact .start
  | next a _ ha hs ih => exact ih.next a (hok _ a ha) hs

theorem Reach.of_exec (as : List α) (h : exec step s as = some s') : Reach step Free s s' := by
  induction as generalizing s with
  | nil => obtain rfl : s = s' := by simpa using h
           exact .start
  | cons a as ih =>
    rw [exec_cons, Option.bind_eq_some_iff] at h
    obtain ⟨s₁, h₁, h₂⟩ := h
    exact (Reach.start.next a trivial h₁).trans (ih h₂)

/-- A run whose steps are checked as they are taken. -/
theorem Reach.of_exec_checked [∀ s a, Decidable (ok s a)] (as : List α)
    (h : exec (fun s a => if ok s a then step s a else none) s as = some s') :
    Reach step ok s s' := by
  induction as generalizing s with
  | nil => obtain rfl : s = s' := by simpa using h
           exact .start
  | cons a as ih =>
    rw [exec_cons, Option.bind_eq_some_iff] at h
    obtain ⟨s₁, h₁, h₂⟩ := h
    split_ifs at h₁ with hok
    exact (Reach.start.next a hok h₁).trans (ih h₂)

end Mdencode.Transition
