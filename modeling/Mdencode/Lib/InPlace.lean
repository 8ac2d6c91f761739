import Mdencode.Lib.Buffer
import Mdencode.Lib.Transition

/-! Loops that read a row from front to back and keep the first occurrence of
each element in front of the same row. A run is its result and the log of its
accesses, which is replayed on checked memory. -/

namespace Mdencode.InPlace

open Mdencode.Transition

variable {α : Type*} {s out row kept : List α} {i : ℕ}

/-! Accesses -/

/-- An access to a place of the row, with the element read or written. -/
inductive Access (α : Type*)
  | read (n : ℕ) (a : α)
  | write (n : ℕ) (a : α)
  deriving DecidableEq

/-- The element a read finds, and where. -/
def Access.found : Access α → Option (α × ℕ)
  | read n a => some (a, n)
  | write _ _ => none

/-- A place is written only when it has been read. -/
def ReadFirst (log : List (Access α)) : Prop :=
  ∀ k n a, log[k]? = some (.write n a) → ∃ b, .read n b ∈ log.take k

variable {log : List (Access α)}

theorem ReadFirst.concat (h : ReadFirst log) {access : Access α}
    (hwrite : ∀ n a, access = .write n a → ∃ b, .read n b ∈ log) :
    ReadFirst (log ++ [access]) := by
  intro k n a hk
  have hlt := (List.getElem?_eq_some_iff.mp hk).1
  rw [List.length_append, List.length_singleton] at hlt
  rw [List.take_append_of_le_length (by omega)]
  rcases Nat.lt_or_eq_of_le (Nat.lt_succ_iff.mp hlt) with hold | rfl
  · rw [List.getElem?_append_left hold] at hk
    exact h k n a hk
  · rw [List.getElem?_concat_length] at hk
    rw [List.take_length]
    exact hwrite n a (Option.some.inj hk)

variable [DecidableEq α]

/-- A read finds this element, and a write is inside the row. -/
def Access.step (row : List α) : Access α → Option (List α)
  | read n a => if Buffer.get row n = some a then some row else none
  | write n a => Buffer.set row n a

/-- The row after the accesses of a log. -/
def replay (log : List (Access α)) (row : List α) : Option (List α) := exec Access.step row log

theorem replay_concat (h : replay log s = some row) (access : Access α) :
    replay (log ++ [access]) s = access.step row := by
  rw [replay] at h ⊢
  rw [exec_append, h, Option.bind_some, exec_cons]
  exact Option.bind_fun_some _

/-! Each element once -/

/-- The elements of a sequence, each once, in the order in which they first occur. -/
structure Deduplicated (s out : List α) : Prop where
  nodup : out.Nodup
  mem_iff : ∀ a, a ∈ out ↔ a ∈ s
  order : out.Pairwise fun a b => s.idxOf a < s.idxOf b

theorem eraseDups_concat (s : List α) (a : α) :
    (s ++ [a]).eraseDups = if a ∈ s then s.eraseDups else s.eraseDups ++ [a] := by
  rw [List.eraseDups_append]
  split_ifs with hmem
  · have hnone : List.removeAll [a] s = [] := by simpa [List.removeAll] using hmem
    rw [hnone, List.eraseDups_nil, List.append_nil]
  · have hself : List.removeAll [a] s = [a] := by simpa [List.removeAll] using hmem
    rw [hself]
    rfl

theorem eraseDups_sublist (s : List α) : s.eraseDups.Sublist s := by
  induction s using List.reverseRecOn with
  | nil => simp
  | append_singleton s a ih =>
    rw [eraseDups_concat]
    split_ifs
    · exact ih.trans (List.sublist_append_left s [a])
    · exact ih.append_right [a]

theorem nodup_eraseDups (s : List α) : s.eraseDups.Nodup := by
  induction s using List.reverseRecOn with
  | nil => simp
  | append_singleton s a ih =>
    rw [eraseDups_concat]
    split_ifs with hmem
    · exact ih
    · exact ih.append (List.nodup_singleton a) (by simpa using hmem)

theorem eraseDups_of_nodup (h : s.Nodup) : s.eraseDups = s := by
  induction s using List.reverseRecOn with
  | nil => rfl
  | append_singleton s a ih =>
    obtain ⟨hs, -, hdisj⟩ := List.nodup_append.mp h
    rw [eraseDups_concat, ih hs, if_neg]
    intro hmem
    exact hdisj a hmem a (List.mem_singleton_self a) rfl

theorem eraseDups_order (s : List α) :
    s.eraseDups.Pairwise fun a b => s.idxOf a < s.idxOf b := by
  induction s using List.reverseRecOn with
  | nil => simp
  | append_singleton s a ih =>
    have hold {b : α} (hb : b ∈ s.eraseDups) : (s ++ [a]).idxOf b = s.idxOf b :=
      List.idxOf_append_of_mem (List.mem_eraseDups.mp hb)
    have hkept : s.eraseDups.Pairwise fun b c => (s ++ [a]).idxOf b < (s ++ [a]).idxOf c := by
      apply ih.imp_of_mem
      intro b c hb hc hlt
      rwa [hold hb, hold hc]
    rw [eraseDups_concat]
    split_ifs with hmem
    · exact hkept
    · apply List.pairwise_append.mpr
      refine ⟨hkept, List.pairwise_singleton _ a, fun b hb c hc => ?_⟩
      obtain rfl := List.mem_singleton.mp hc
      rw [hold hb, List.idxOf_append_of_notMem hmem]
      have := List.idxOf_lt_length_of_mem (List.mem_eraseDups.mp hb)
      omega

theorem deduplicated_eraseDups (s : List α) : Deduplicated s s.eraseDups :=
  ⟨nodup_eraseDups s, fun _ => List.mem_eraseDups, eraseDups_order s⟩

/-- There is only one such sequence. -/
theorem Deduplicated.eq_eraseDups (h : Deduplicated s out) : out = s.eraseDups := by
  have : Std.Irrefl fun a b : α => s.idxOf a < s.idxOf b := ⟨fun a => lt_irrefl (s.idxOf a)⟩
  apply List.Pairwise.eq_of_mem_iff h.order (eraseDups_order s)
  intro a
  rw [h.mem_iff, List.mem_eraseDups]

/-! Runs -/

/-- `log` goes from the row `s` to `row` and has read the first `i` elements of `s`. -/
structure Logged (s : List α) (i : ℕ) (row : List α) (log : List (Access α)) : Prop where
  replays : replay log s = some row
  reads : log.filterMap Access.found = (s.take i).zipIdx
  readFirst : ReadFirst log

theorem Logged.start (s : List α) : Logged s 0 s [] where
  replays := rfl
  reads := by simp
  readFirst := by
    intro k n a hk
    simp at hk

theorem Logged.read (h : Logged s i row log) (hi : i < s.length) (hrow : row[i]? = some s[i]) :
    Logged s (i + 1) row (log ++ [.read i s[i]]) where
  replays := by
    rw [replay_concat h.replays]
    exact if_pos hrow
  reads := by
    have hlen : (s.take i).length = i := List.length_take_of_le hi.le
    rw [List.filterMap_append, h.reads, List.take_succ_eq_append_getElem hi, List.zipIdx_append,
      hlen, Nat.zero_add]
    rfl
  readFirst := by
    apply h.readFirst.concat
    intro n a heq
    cases heq

theorem Logged.exists_read (h : Logged s i row log) {n : ℕ} (hn : n < i) (hlen : n < s.length) :
    ∃ a, .read n a ∈ log := by
  have hmem : (s[n], n) ∈ log.filterMap Access.found := by
    rw [h.reads, List.mk_mem_zipIdx_iff_getElem?, List.getElem?_take_of_lt hn,
      List.getElem?_eq_getElem hlen]
  obtain ⟨access, haccess, hfound⟩ := List.mem_filterMap.mp hmem
  cases access with
  | read m a =>
    obtain ⟨-, rfl⟩ := Prod.mk.inj (Option.some.inj hfound)
    exact ⟨a, haccess⟩
  | write m a => cases hfound

theorem Logged.write (h : Logged s i row log) {n : ℕ} (hn : n < i) (hlen : n < s.length)
    (hrow : n < row.length) (a : α) : Logged s i (row.set n a) (log ++ [.write n a]) where
  replays := by
    rw [replay_concat h.replays]
    exact Buffer.set_of_lt hrow
  reads := by
    rw [List.filterMap_append, h.reads]
    exact List.append_nil _
  readFirst := by
    apply h.readFirst.concat
    intro m b heq
    obtain ⟨rfl, -⟩ := Access.write.inj heq
    exact h.exists_read hn hlen

/-! The loop -/

/-- After `i` passes the row is what was kept, what is left over of the elements
that were read, and what has not been read. -/
structure Progress (s : List α) (i : ℕ) (row kept : List α) (log : List (Access α)) : Prop where
  kept_eq : kept = (s.take i).eraseDups
  regions : ∃ gap, kept.length + gap.length = i ∧ row = kept ++ gap ++ s.drop i
  logged : Logged s i row log

/-- A run that starts from the row `s` and returns `out`, the front of the row. -/
structure DedupRun (s : List α) (log : List (Access α)) (out : List α) : Prop where
  deduplicated : Deduplicated s out
  reads : log.filterMap Access.found = s.zipIdx
  readFirst : ReadFirst log
  replays : ∃ rest, replay log s = some (out ++ rest)

namespace Progress

theorem start (s : List α) : Progress s 0 s [] [] where
  kept_eq := rfl
  regions := ⟨[], rfl, rfl⟩
  logged := .start s

/-- What a pass reads has not been written over. -/
theorem getElem?_row (h : Progress s i row kept log) (hi : i < s.length) :
    row[i]? = some s[i] := by
  obtain ⟨gap, hlen, rfl⟩ := h.regions
  rw [List.getElem?_append_right (by simp; omega), List.length_append, hlen, Nat.sub_self,
    List.getElem?_drop, Nat.add_zero, List.getElem?_eq_getElem hi]

theorem getD_row (h : Progress s i row kept log) (hi : i < s.length) (d : α) :
    row.getD i d = s[i] := by
  rw [List.getD_eq_getElem?_getD, h.getElem?_row hi, Option.getD_some]

theorem kept_eq_succ (h : Progress s i row kept log) (hi : i < s.length) :
    (s.take (i + 1)).eraseDups = if s[i] ∈ kept then kept else kept ++ [s[i]] := by
  rw [List.take_succ_eq_append_getElem hi, eraseDups_concat, h.kept_eq]
  exact if_congr List.mem_eraseDups.symm rfl rfl

theorem skip (h : Progress s i row kept log) (hi : i < s.length) (hmem : s[i] ∈ kept) :
    Progress s (i + 1) row kept (log ++ [.read i s[i]]) where
  kept_eq := by rw [h.kept_eq_succ hi, if_pos hmem]
  regions := by
    obtain ⟨gap, hlen, hrow⟩ := h.regions
    refine ⟨gap ++ [s[i]], by simp; omega, ?_⟩
    rw [hrow, List.drop_eq_getElem_cons hi]
    simp
  logged := h.logged.read hi (h.getElem?_row hi)

/-- The first place after what was kept is at most the one just read. -/
theorem keep (h : Progress s i row kept log) (hi : i < s.length) (hmem : s[i] ∉ kept) :
    Progress s (i + 1) (row.set kept.length s[i]) (kept ++ [s[i]])
      (log ++ [.read i s[i], .write kept.length s[i]]) where
  kept_eq := by rw [h.kept_eq_succ hi, if_neg hmem]
  regions := by
    obtain ⟨gap, hlen, hrow⟩ := h.regions
    have hne : gap ++ [s[i]] ≠ [] := List.append_ne_nil_of_right_ne_nil _ (List.cons_ne_nil _ _)
    obtain ⟨stale, gap', hgap⟩ := List.exists_cons_of_ne_nil hne
    have hgaplen : gap.length = gap'.length := by simpa using congrArg List.length hgap
    refine ⟨gap', by simp; omega, ?_⟩
    have hsplit : row = kept ++ stale :: (gap' ++ s.drop (i + 1)) := by
      rw [hrow, List.drop_eq_getElem_cons hi, ← List.cons_append, ← hgap]
      simp
    rw [hsplit, List.set_append_right _ _ le_rfl, Nat.sub_self, List.set_cons_zero]
    simp
  logged := by
    obtain ⟨gap, hlen, hrow⟩ := h.regions
    have hplace : kept.length < row.length := by
      rw [hrow]
      simp
      omega
    have hread := h.logged.read hi (h.getElem?_row hi)
    have hwrite := hread.write (show kept.length < i + 1 by omega) (by omega) hplace s[i]
    rwa [List.append_assoc] at hwrite

/-- When every element has been read, the loop returns what it kept. -/
theorem run (h : Progress s s.length row kept log) : DedupRun s log (row.take kept.length) := by
  have hkept : kept = s.eraseDups := by rw [h.kept_eq, List.take_length]
  obtain ⟨gap, -, hrow⟩ := h.regions
  have htake : row.take kept.length = kept := by
    rw [hrow, List.append_assoc, List.take_left]
  rw [htake]
  exact {
    deduplicated := hkept ▸ deduplicated_eraseDups s
    reads := by rw [h.logged.reads, List.take_length]
    readFirst := h.logged.readFirst
    replays := ⟨gap ++ s.drop s.length, by rw [h.logged.replays, hrow, List.append_assoc]⟩ }

end Progress

end Mdencode.InPlace
