import Mdencode.Cpp.UnzipThreads

/-! The mutex of one round and the threads that report to it. As long as only
threads of the round report, its counters say what they reported. -/

namespace Mdencode.Cpp

open Mdencode.Bytes Mdencode.Transition

section
variable {ρ : Type} {compare : ρ → List UInt8 → Bool}

/-- The threads of the round that have reported passing their ceiling. -/
def passedThreads (T : ℕ) (acts : ℕ → Option Activation) : Finset ℕ :=
  (Finset.range T).filter fun t => (acts t).any fun act => act.pc.passedCeiling

theorem mem_passedThreads {T t : ℕ} {acts : ℕ → Option Activation} :
    t ∈ passedThreads T acts ↔
      t < T ∧ ∃ act, acts t = some act ∧ act.pc.passedCeiling = true := by
  rw [passedThreads, Finset.mem_filter, Finset.mem_range, Option.any_eq_true]

theorem Pc.hasMatched.not_passedCeiling {pc : Pc} {buf : List UInt8} (h : pc.hasMatched buf) :
    pc.passedCeiling = false := by
  unfold Pc.hasMatched at h
  split at h <;> first | rfl | exact h.elim

/-- Fewer than `T` threads have passed their ceiling while one has matched. -/
theorem card_passedThreads_lt {T t : ℕ} {acts : ℕ → Option Activation} (ht : t < T)
    (h : t ∉ passedThreads T acts) : (passedThreads T acts).card < T := by
  have hsub : passedThreads T acts ⊂ Finset.range T :=
    (Finset.ssubset_iff_of_subset (Finset.filter_subset _ _)).mpr ⟨t, Finset.mem_range.mpr ht, h⟩
  exact (Finset.card_lt_card hsub).trans_eq (Finset.card_range T)

/-- The mutex counts what the round's threads have reported. -/
structure Ledger (T : ℕ) (acts : ℕ → Option Activation) (mutex : MdMutex) : Prop where
  threadCount : mutex.threadCount = T
  notFound : mutex.notFound = (passedThreads T acts).card
  notfound : mutex.isMatched = .notfound → mutex.notFound = T
  last : mutex.isMatched = .found → mutex.lastThread < T ∧
    ∃ act buf, acts mutex.lastThread = some act ∧ act.pc.hasMatched buf
  found : ∀ t < T, ∀ act buf, acts t = some act → act.pc.hasMatched buf →
    mutex.isMatched = .found

/-- A step that reports nothing leaves what the thread has reported. -/
theorem decodeStep_reported (compare : ρ → List UInt8 → Bool) (ms : Modscan ρ) {act : Activation}
    (hmatch : ∀ buf, act.pc ≠ .setMatched buf) (hceil : act.pc ≠ .incNotFound) :
    (ms.decodeStep compare act).2.pc.passedCeiling = act.pc.passedCeiling ∧
      ∀ buf, (ms.decodeStep compare act).2.pc.hasMatched buf ↔ act.pc.hasMatched buf := by
  unfold Modscan.decodeStep
  cases hpc : act.pc with
  | head => dsimp only; split_ifs <;> simp [Pc.passedCeiling, Pc.hasMatched]
  | test => dsimp only; split_ifs <;> simp [Pc.passedCeiling, Pc.hasMatched]
  | advance => simp [Pc.passedCeiling, Pc.hasMatched]
  | setMatched buf => exact absurd hpc (hmatch buf)
  | incNotFound => exact absurd hpc hceil
  | setStopped => simp [Pc.passedCeiling, Pc.hasMatched]
  | exit outcome => cases outcome <;> simp [Pc.passedCeiling, Pc.hasMatched]
  | done outcome => simp [hpc]

theorem Ledger.start (T : ℕ) (mutex : MdMutex) (h : mutex.threadCount = T) :
    Ledger T (fun _ => none) mutex.resetMatched := by
  refine ⟨h, ?_, ?_, ?_, ?_⟩ <;> simp [MdMutex.resetMatched, passedThreads]

variable {T t : ℕ} {acts : ℕ → Option Activation} {mutex : MdMutex} {act act' : Activation}

theorem passedThreads_update
    (h : act'.pc.passedCeiling = true ↔ ∃ act, acts t = some act ∧ act.pc.passedCeiling = true) :
    passedThreads T (Function.update acts t (some act')) = passedThreads T acts := by
  ext u
  rw [mem_passedThreads, mem_passedThreads]
  rcases eq_or_ne u t with rfl | hu
  · simp only [Function.update_self, Option.some.injEq, exists_eq_left', h]
  · rw [Function.update_of_ne hu]

/-- Thread `t` starts, or goes on without a report. -/
theorem Ledger.quiet (h : Ledger T acts mutex)
    (hpassed : act'.pc.passedCeiling = true ↔
      ∃ act, acts t = some act ∧ act.pc.passedCeiling = true)
    (hmatched : ∀ buf, act'.pc.hasMatched buf ↔
      ∃ act, acts t = some act ∧ act.pc.hasMatched buf) :
    Ledger T (Function.update acts t (some act')) mutex := by
  refine ⟨h.threadCount, (passedThreads_update hpassed).symm ▸ h.notFound, h.notfound,
    fun hfound => ?_, fun u hu act buf hact hbuf => ?_⟩
  · obtain ⟨hlt, act, buf, hact, hbuf⟩ := h.last hfound
    refine ⟨hlt, ?_⟩
    rcases eq_or_ne mutex.lastThread t with hu | hu
    · refine ⟨act', buf, by rw [hu, Function.update_self], ?_⟩
      exact (hmatched buf).mpr ⟨act, hu ▸ hact, hbuf⟩
    · exact ⟨act, buf, by rw [Function.update_of_ne hu]; exact hact, hbuf⟩
  · rcases eq_or_ne u t with rfl | hne
    · rw [Function.update_self, Option.some.injEq] at hact
      subst hact
      obtain ⟨act, hact, hbuf⟩ := (hmatched buf).mp hbuf
      exact h.found u hu act buf hact hbuf
    · rw [Function.update_of_ne hne] at hact
      exact h.found u hu act buf hact hbuf

/-- Thread `t` reports a match. -/
theorem Ledger.setMatched (h : Ledger T acts mutex) (ht : t < T) {buf : List UInt8}
    (hact : acts t = some act) (hpc : act.pc = .setMatched buf)
    (hpc' : act'.pc = .exit (.matched buf)) :
    Ledger T (Function.update acts t (some act')) (mutex.setMatched t) := by
  have hpassed : act'.pc.passedCeiling = true ↔
      ∃ act, acts t = some act ∧ act.pc.passedCeiling = true := by
    simp [hact, hpc, hpc', Pc.passedCeiling]
  refine ⟨h.threadCount, (passedThreads_update hpassed).symm ▸ h.notFound, ?_, fun _ => ?_, ?_⟩
  · intro hnot
    cases hnot
  · exact ⟨ht, act', buf, Function.update_self .., by simp [hpc', Pc.hasMatched]⟩
  · intros
    rfl

/-- Thread `t` reports that it passed its ceiling. -/
theorem Ledger.incNotFound (h : Ledger T acts mutex) (ht : t < T)
    (hact : acts t = some act) (hpc : act.pc = .incNotFound) (hpc' : act'.pc = .setStopped) :
    Ledger T (Function.update acts t (some act')) mutex.incNotFound := by
  set acts' := Function.update acts t (some act') with hacts'
  have hfresh : t ∉ passedThreads T acts := by
    rw [mem_passedThreads]
    simp [hact, hpc, Pc.passedCeiling]
  have hset : passedThreads T acts' = insert t (passedThreads T acts) := by
    ext u
    rw [Finset.mem_insert, mem_passedThreads, mem_passedThreads]
    rcases eq_or_ne u t with rfl | hu
    · simp [hacts', ht, hpc', Pc.passedCeiling]
    · simp [hacts', hu]
  have hcard : mutex.notFound + 1 = (passedThreads T acts').card := by
    rw [hset, Finset.card_insert_of_notMem hfresh, h.notFound]
  have hkept {u : ℕ} {act₁ : Activation} {buf : List UInt8} (hact₁ : acts u = some act₁)
      (hbuf : act₁.pc.hasMatched buf) : acts' u = some act₁ := by
    rw [hacts', Function.update_of_ne, hact₁]
    rintro rfl
    rw [hact, Option.some.injEq] at hact₁
    subst hact₁
    simp [hpc, Pc.hasMatched] at hbuf
  -- a thread that matched is not among those that passed their ceiling
  have hroom {u : ℕ} (hu : u < T) {act₁ : Activation} {buf : List UInt8}
      (hact₁ : acts' u = some act₁) (hbuf : act₁.pc.hasMatched buf) :
      mutex.notFound + 1 ≠ mutex.threadCount := by
    have hout : u ∉ passedThreads T acts' := by
      rw [mem_passedThreads]
      simp [hact₁, hbuf.not_passedCeiling]
    have := card_passedThreads_lt hu hout
    rw [hcard, h.threadCount]
    omega
  refine ⟨h.threadCount, hcard, ?_, ?_, ?_⟩
  · intro hnot
    by_contra hne
    have hne' : mutex.notFound + 1 ≠ mutex.threadCount := fun heq => hne (heq.trans h.threadCount)
    rw [MdMutex.incNotFound] at hnot
    simp only [hne', if_false] at hnot
    have hfull := h.notfound hnot
    have := card_passedThreads_lt ht hfresh
    rw [← h.notFound] at this
    omega
  · intro hfound
    rw [MdMutex.incNotFound] at hfound
    dsimp only at hfound
    split_ifs at hfound
    obtain ⟨hlt, act₁, buf, hact₁, hbuf⟩ := h.last hfound
    exact ⟨hlt, act₁, buf, hkept hact₁ hbuf, hbuf⟩
  · intro u hu act₁ buf hact₁ hbuf
    have hne := hroom hu hact₁ hbuf
    rw [MdMutex.incNotFound]
    simp only [hne, if_false]
    refine h.found u hu act₁ buf ?_ hbuf
    rwa [hacts', Function.update_of_ne] at hact₁
    rintro rfl
    rw [Function.update_self, Option.some.injEq] at hact₁
    subst hact₁
    simp [hpc', Pc.hasMatched] at hbuf

theorem mutexStep_eq {pc : Pc} (hmatch : ∀ buf, pc ≠ .setMatched buf) (hceil : pc ≠ .incNotFound)
    (mutex : MdMutex) (t : ℕ) : Modscan.mutexStep mutex t pc = mutex := by
  cases pc with
  | setMatched buf => exact absurd rfl (hmatch buf)
  | incNotFound => exact absurd rfl hceil
  | _ => rfl

/-- Whatever thread `t` does next, the mutex keeps count. -/
theorem Ledger.step (h : Ledger T acts mutex) (ht : t < T) (hact : acts t = some act)
    (ms : Modscan ρ) :
    Ledger T (Function.update acts t (some (ms.decodeStep compare act).2))
      (Modscan.mutexStep mutex t act.pc) := by
  by_cases hmatch : ∃ buf, act.pc = .setMatched buf
  · obtain ⟨buf, hpc⟩ := hmatch
    rw [hpc]
    exact h.setMatched ht hact hpc (by rw [Modscan.decodeStep, hpc])
  · by_cases hceil : act.pc = .incNotFound
    · rw [hceil]
      exact h.incNotFound ht hact hceil (by rw [Modscan.decodeStep, hceil])
    · obtain ⟨hpassed, hmatched⟩ := decodeStep_reported compare ms
        (fun buf hpc => hmatch ⟨buf, hpc⟩) hceil
      rw [mutexStep_eq (fun buf hpc => hmatch ⟨buf, hpc⟩) hceil]
      refine h.quiet ?_ fun buf => ?_
      · simp [hact, hpassed]
      · simp [hact, hmatched]

/-- The matches and the written bytes that a thread has to its name are not taken back. -/
theorem hasMatched_step {ms : Modscan ρ} {buf : List UInt8} (h : act.pc.hasMatched buf) :
    (ms.decodeStep compare act).2.pc.hasMatched buf := by
  have hmatch : ∀ b, act.pc ≠ .setMatched b := by
    intro b hpc
    simp [hpc, Pc.hasMatched] at h
  have hceil : act.pc ≠ .incNotFound := by
    intro hpc
    simp [hpc, Pc.hasMatched] at h
  exact ((decodeStep_reported compare ms hmatch hceil).2 buf).mpr h

theorem mutexStep_ne_searching {pc : Pc} (h : mutex.isMatched ≠ .searching) :
    (Modscan.mutexStep mutex t pc).isMatched ≠ .searching := by
  unfold Modscan.mutexStep
  split
  · simp [MdMutex.setMatched]
  · simp only [MdMutex.incNotFound]
    split_ifs
    · simp
    · exact h
  · exact h

/-- A match that the mutex has counted stays counted. -/
theorem Ledger.found_step (compare : ρ → List UInt8 → Bool) (h : Ledger T acts mutex)
    (ht : t < T) (hact : acts t = some act) (ms : Modscan ρ)
    (hfound : mutex.isMatched = .found) :
    (Modscan.mutexStep mutex t act.pc).isMatched = .found := by
  obtain ⟨hlt, act₁, buf, hact₁, hbuf⟩ := h.last hfound
  have hnext : Ledger T (Function.update acts t (some (ms.decodeStep compare act).2))
      (Modscan.mutexStep mutex t act.pc) := h.step ht hact ms
  rcases eq_or_ne mutex.lastThread t with heq | hne
  · rw [heq, hact, Option.some.injEq] at hact₁
    subst hact₁
    exact hnext.found t ht _ buf (Function.update_self ..) (hasMatched_step hbuf)
  · exact hnext.found _ hlt act₁ buf (by rw [Function.update_of_ne hne, hact₁]) hbuf

end

end Mdencode.Cpp
