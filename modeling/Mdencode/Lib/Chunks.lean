import Mathlib.Tactic
import Mathlib.Data.List.Count

/-! A string read through a buffer of `n` places, by the two usual loops: until
a read comes up short, and until a read yields nothing. Both give pieces that
put together are the string, so they tell strings apart. -/

namespace Mdencode.Chunks

variable {α : Type*}

/-- Reads until one is shorter than the buffer, which may be empty. -/
def untilShort (n : ℕ) (s : List α) : List (List α) :=
  if _h : 0 < n ∧ n ≤ s.length then s.take n :: untilShort n (s.drop n) else [s]
termination_by s.length
decreasing_by
  rw [List.length_drop]
  omega

/-- Reads until one yields nothing. -/
def untilEmpty (n : ℕ) (s : List α) : List (List α) :=
  if _h : 0 < n ∧ s ≠ [] then s.take n :: untilEmpty n (s.drop n) else []
termination_by s.length
decreasing_by
  have := List.length_pos_iff.mpr _h.2
  rw [List.length_drop]
  omega

variable {n : ℕ}

theorem untilShort_of_lt {s : List α} (h : s.length < n) : untilShort n s = [s] := by
  rw [untilShort, dif_neg (by omega)]

theorem untilShort_append (hn : 0 < n) {chunk : List α} (hlen : chunk.length = n) (s : List α) :
    untilShort n (chunk ++ s) = chunk :: untilShort n s := by
  rw [untilShort, dif_pos ⟨hn, by rw [List.length_append]; omega⟩, ← hlen, List.take_left,
    List.drop_left]

theorem flatten_untilShort (n : ℕ) (s : List α) : (untilShort n s).flatten = s := by
  fun_induction untilShort n s with
  | case1 s h ih => rw [List.flatten_cons, ih, List.take_append_drop]
  | case2 s h => simp

theorem flatten_untilEmpty (hn : 0 < n) (s : List α) : (untilEmpty n s).flatten = s := by
  fun_induction untilEmpty n s with
  | case1 s h ih => rw [List.flatten_cons, ih, List.take_append_drop]
  | case2 s h =>
    by_contra hne
    exact h ⟨hn, fun hnil => hne (by rw [hnil]; rfl)⟩

theorem untilShort_injective (n : ℕ) : Function.Injective (untilShort (α := α) n) :=
  fun s t h => by rw [← flatten_untilShort n s, h, flatten_untilShort]

theorem untilEmpty_injective (hn : 0 < n) : Function.Injective (untilEmpty (α := α) n) :=
  fun s t h => by rw [← flatten_untilEmpty hn s, h, flatten_untilEmpty hn]

/-- The first slices of `n` places put together. -/
theorem flatten_slices (n : ℕ) (s : List α) (count : ℕ) :
    ((List.range count).map fun i => (s.drop (i * n)).take n).flatten = s.take (count * n) := by
  induction count with
  | zero => simp
  | succ count ih =>
    rw [List.range_succ, List.map_append, List.flatten_append, ih, Nat.succ_mul, List.take_add]
    simp

/-! Sums of values of the pieces -/

section Sums

variable {β : Type*}

/-- A sum of values that wraps at `m`, piece by piece. -/
def wrappedSum (m : ℕ) (value : β → ℕ) (pieces : List β) : ℕ :=
  pieces.foldl (fun sum piece => (sum + value piece) % m) 0

theorem wrappedSum_eq (m : ℕ) (value : β → ℕ) (pieces : List β) :
    wrappedSum m value pieces = (pieces.map value).sum % m := by
  induction pieces using List.reverseRecOn with
  | nil => simp [wrappedSum]
  | append_singleton pieces piece ih =>
    rw [wrappedSum] at ih ⊢
    rw [List.foldl_append, ih, List.map_append, List.sum_append]
    simp

theorem wrappedSum_lt {m : ℕ} (hm : 0 < m) (value : β → ℕ) (pieces : List β) :
    wrappedSum m value pieces < m := by
  rw [wrappedSum_eq]
  exact Nat.mod_lt _ hm

theorem wrappedSum_mod (m : ℕ) (value : β → ℕ) (pieces : List β) :
    wrappedSum m (fun piece => value piece % m) pieces = wrappedSum m value pieces := by
  unfold wrappedSum
  simp only [Nat.add_mod_mod]

variable [DecidableEq β]

/-- Every piece occurs equally often in both, up to multiples of `m`. -/
def SameCounts (m : ℕ) (p q : List β) : Prop :=
  ∀ piece, p.count piece % m = q.count piece % m

theorem sameCounts_of_perm (m : ℕ) {p q : List β} (h : p.Perm q) : SameCounts m p q :=
  fun piece => by rw [h.count_eq]

theorem sum_indicator (piece : β) (pieces : List β) :
    (pieces.map fun other => if other = piece then 1 else 0).sum = pieces.count piece := by
  induction pieces with
  | nil => rfl
  | cons other pieces ih =>
    rw [List.map_cons, List.sum_cons, ih, List.count_cons]
    simp only [beq_iff_eq]
    omega

theorem sum_map_eq_count (value : β → ℕ) {pieces : List β} {s : Finset β}
    (hs : ∀ piece ∈ pieces, piece ∈ s) :
    (pieces.map value).sum = ∑ piece ∈ s, pieces.count piece * value piece := by
  rw [Finset.sum_list_map_count pieces value]
  simp only [smul_eq_mul]
  have hsub : pieces.toFinset ⊆ s := fun piece h => hs piece (List.mem_toFinset.mp h)
  have hrest : ∀ piece ∈ s, piece ∉ pieces.toFinset → pieces.count piece * value piece = 0 := by
    intro piece _ h
    rw [List.mem_toFinset] at h
    rw [List.count_eq_zero_of_not_mem h, Nat.zero_mul]
  exact Finset.sum_subset hsub hrest

/-- Sums that agree for every choice of values have seen every piece equally
often, up to multiples of `m`. -/
theorem wrappedSum_eq_iff {m : ℕ} (p q : List β) :
    (∀ value, wrappedSum m value p = wrappedSum m value q) ↔ SameCounts m p q := by
  constructor
  · intro h piece
    have hvalue := h fun other => if other = piece then 1 else 0
    rwa [wrappedSum_eq, wrappedSum_eq, sum_indicator, sum_indicator] at hvalue
  · intro h value
    have hp : ∀ piece ∈ p, piece ∈ (p ++ q).toFinset := fun piece hmem => by simp [hmem]
    have hq : ∀ piece ∈ q, piece ∈ (p ++ q).toFinset := fun piece hmem => by simp [hmem]
    rw [wrappedSum_eq, wrappedSum_eq, sum_map_eq_count value hp, sum_map_eq_count value hq]
    calc
      (∑ piece ∈ (p ++ q).toFinset, p.count piece * value piece) % m =
          (∑ piece ∈ (p ++ q).toFinset, p.count piece * value piece % m) % m :=
        Finset.sum_nat_mod _ _ _
      _ = (∑ piece ∈ (p ++ q).toFinset, q.count piece * value piece % m) % m := by
        refine congrArg (· % m) (Finset.sum_congr rfl fun piece _ => ?_)
        rw [Nat.mul_mod, h piece, ← Nat.mul_mod]
      _ = (∑ piece ∈ (p ++ q).toFinset, q.count piece * value piece) % m :=
        (Finset.sum_nat_mod _ _ _).symm

end Sums

end Mdencode.Chunks
