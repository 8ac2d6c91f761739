import Mathlib.Tactic
import Mathlib.Data.Nat.Sqrt

/-! A number moved by a step that grows by one each time, up or down. What goes
below zero comes back as its magnitude, so a number that moves down is
reflected and in the end repeats. The length of the longest run of different
numbers is `downLimit`. -/

namespace Mdencode.GrowingStep

def triangle : ℕ → ℕ
  | 0 => 0
  | n + 1 => triangle n + (n + 1)

theorem two_mul_triangle (n : ℕ) : 2 * triangle n = n * (n + 1) := by
  induction n with
  | zero => rfl
  | succ n ih =>
    rw [triangle, Nat.mul_add, ih]
    ring

theorem triangle_strictMono : StrictMono triangle :=
  strictMono_nat_of_lt_succ fun n => by
    rw [triangle]
    omega

theorem triangle_le {m n : ℕ} (h : m ≤ n) : triangle m ≤ triangle n :=
  triangle_strictMono.monotone h

/-- The number of full steps that fit below `k`. -/
def root (k : ℕ) : ℕ := (Nat.sqrt (8 * k + 1) - 1) / 2

theorem triangle_root_le (k : ℕ) : triangle (root k) ≤ k := by
  have hsqrt := Nat.sqrt_le' (8 * k + 1)
  have htri := two_mul_triangle (root k)
  have hroot : 2 * root k + 1 ≤ Nat.sqrt (8 * k + 1) := by
    have hpos : 0 < Nat.sqrt (8 * k + 1) := Nat.sqrt_pos.mpr (by omega)
    unfold root
    omega
  have hsq : (2 * root k + 1) ^ 2 ≤ 8 * k + 1 := (Nat.pow_le_pow_left hroot 2).trans hsqrt
  nlinarith

theorem lt_triangle_root (k : ℕ) : k < triangle (root k + 1) := by
  have hsqrt := Nat.lt_succ_sqrt' (8 * k + 1)
  have htri := two_mul_triangle (root k + 1)
  have hroot : Nat.sqrt (8 * k + 1) + 1 ≤ 2 * (root k + 1) + 1 := by
    unfold root
    omega
  have hsq : 8 * k + 1 < (2 * (root k + 1) + 1) ^ 2 :=
    hsqrt.trans_le (Nat.pow_le_pow_left hroot 2)
  nlinarith

/-! Moving up -/

def up (k n : ℕ) : ℕ := k + triangle n

@[simp] theorem up_zero (k : ℕ) : up k 0 = k := rfl

theorem up_succ (k n : ℕ) : up k (n + 1) = up k n + (n + 1) := by
  rw [up, up, triangle, Nat.add_assoc]

theorem up_strictMono (k : ℕ) : StrictMono (up k) := fun _ _ h =>
  Nat.add_lt_add_left (triangle_strictMono h) k

/-! Moving down -/

def down (k : ℕ) : ℕ → ℕ
  | 0 => k
  | n + 1 => ((down k n : ℤ) - (n + 1)).natAbs

@[simp] theorem down_zero (k : ℕ) : down k 0 = k := rfl

theorem down_succ (k n : ℕ) : down k (n + 1) = ((down k n : ℤ) - (n + 1 : ℕ)).natAbs := rfl

/-- The longest run of different numbers from `triangle q + r`. -/
def limitFrom (q r : ℕ) : ℕ :=
  if q + 1 ≤ 2 * r then 4 * r - (q + 1)
  else if 1 ≤ r then min (3 * q + 2 - 4 * r) (q + 4 * r - 1)
  else if q ≤ 1 then q + 2
  else 3 * q - 3

def downLimit (k : ℕ) : ℕ := limitFrom (root k) (k - triangle (root k))

section
variable {q r : ℕ}

/-- The steps before zero is passed. -/
theorem down_of_le {i : ℕ} (hi : i ≤ q) :
    down (triangle q + r) i + triangle i = triangle q + r := by
  induction i with
  | zero => rfl
  | succ i ih =>
    have hprev := ih (by omega)
    have hle := triangle_le hi
    rw [triangle] at hle ⊢
    rw [down]
    omega

/-- From there on the numbers of each second step form a row going up. -/
theorem down_after (hr : r ≤ q) (m : ℕ) :
    down (triangle q + r) (q + 1 + 2 * m) = q + 1 - r + m ∧
      down (triangle q + r) (q + 2 + 2 * m) = r + 1 + m := by
  induction m with
  | zero =>
    have hlast := down_of_le (r := r) (le_refl q)
    have hfirst : down (triangle q + r) (q + 1) = q + 1 - r := by
      rw [down]
      omega
    refine ⟨hfirst, ?_⟩
    rw [Nat.mul_zero, Nat.add_zero, show q + 2 = q + 1 + 1 by omega, down, hfirst]
    omega
  | succ m ih =>
    have hnext : down (triangle q + r) (q + 1 + 2 * (m + 1)) = q + 1 - r + (m + 1) := by
      rw [show q + 1 + 2 * (m + 1) = q + 2 + 2 * m + 1 by omega, down, ih.2]
      omega
    refine ⟨hnext, ?_⟩
    rw [show q + 2 + 2 * (m + 1) = q + 1 + 2 * (m + 1) + 1 by omega, down, hnext]
    omega

/-- How far an earlier number is above the last one before zero is passed. -/
theorem triangle_gap {i : ℕ} (hi : i ≤ q) :
    i = q ∨ i + 1 = q ∧ triangle q = triangle i + q ∨
      i + 2 ≤ q ∧ triangle i + (2 * q - 1) ≤ triangle q := by
  rcases Nat.lt_or_ge (i + 1) q with h | h
  · obtain ⟨p, rfl⟩ := Nat.exists_eq_add_of_le' (show 2 ≤ q by omega)
    have hle := triangle_le (show i ≤ p by omega)
    refine .inr (.inr ⟨h, ?_⟩)
    rw [triangle, triangle]
    omega
  · rcases Nat.lt_or_ge i q with h' | h'
    · obtain rfl : i + 1 = q := by omega
      exact .inr (.inl ⟨rfl, rfl⟩)
    · exact .inl (by omega)

theorem exists_after {i : ℕ} (hi : q < i) :
    ∃ m, i = q + 1 + 2 * m ∨ i = q + 2 + 2 * m := by
  rcases Nat.even_or_odd' (i - (q + 1)) with ⟨m, hm | hm⟩
  · exact ⟨m, .inl (by omega)⟩
  · exact ⟨m, .inr (by omega)⟩

/-- Below the limit no number comes twice. -/
theorem down_ne (hr : r ≤ q) {i j : ℕ} (hij : i < j) (hj : j < limitFrom q r) :
    down (triangle q + r) i ≠ down (triangle q + r) j := by
  unfold limitFrom at hj
  rcases Nat.lt_or_ge q j with hafter | hbefore
  · obtain ⟨m, hm⟩ := exists_after hafter
    obtain ⟨hrow, hrow'⟩ := down_after hr m
    rcases Nat.lt_or_ge q i with hi | hi
    · -- both behind zero
      obtain ⟨m', hm'⟩ := exists_after hi
      obtain ⟨hrow₁, hrow₁'⟩ := down_after hr m'
      rcases hm with rfl | rfl <;> rcases hm' with rfl | rfl
      · rw [hrow₁, hrow]
        omega
      · rw [hrow₁', hrow]
        split_ifs at hj <;> omega
      · rw [hrow₁, hrow']
        split_ifs at hj <;> omega
      · rw [hrow₁', hrow']
        omega
    · -- one on each side
      have hdown := down_of_le (r := r) hi
      have hgap := triangle_gap hi
      rcases hm with rfl | rfl
      · rw [hrow]
        split_ifs at hj <;> rcases hgap with rfl | ⟨rfl, hgap⟩ | ⟨hi', hgap⟩ <;> omega
      · rw [hrow']
        split_ifs at hj <;> rcases hgap with rfl | ⟨rfl, hgap⟩ | ⟨hi', hgap⟩ <;> omega
  · have hdown := down_of_le (r := r) (hij.le.trans hbefore)
    have hdown' := down_of_le (r := r) hbefore
    have := triangle_strictMono hij
    omega

/-- The number at the limit has come before. -/
theorem down_limit (hr : r ≤ q) :
    ∃ i < limitFrom q r, down (triangle q + r) i = down (triangle q + r) (limitFrom q r) := by
  have hlast := down_of_le (r := r) (le_refl q)
  unfold limitFrom
  split_ifs with h₁ h₂ h₃
  · -- the row of the second kind starts below the last number before zero
    refine ⟨q, by omega, ?_⟩
    rw [show 4 * r - (q + 1) = q + 1 + 2 * (2 * r - (q + 1)) by omega, (down_after hr _).1]
    omega
  · rcases Nat.le_total (3 * q + 2 - 4 * r) (q + 4 * r - 1) with h | h
    · rw [min_eq_left h]
      refine ⟨q + 1, by omega, ?_⟩
      have hfirst := (down_after hr 0).1
      rw [show 3 * q + 2 - 4 * r = q + 2 + 2 * (q - 2 * r) by omega, (down_after hr _).2]
      rw [Nat.mul_zero, Nat.add_zero] at hfirst
      omega
    · rw [min_eq_right h]
      obtain ⟨p, rfl⟩ := Nat.exists_eq_add_of_le' (show 1 ≤ q by omega)
      have hdown := down_of_le (r := r) (show p ≤ p + 1 by omega)
      refine ⟨p, by omega, ?_⟩
      rw [show p + 1 + 4 * r - 1 = p + 1 + 1 + 2 * (2 * r - 1) by omega, (down_after hr _).1]
      rw [triangle] at hdown
      rw [triangle] at *
      omega
  · obtain rfl : r = 0 := by omega
    interval_cases q
    · exact ⟨1, by norm_num, rfl⟩
    · exact ⟨0, by norm_num, rfl⟩
  · obtain rfl : r = 0 := by omega
    obtain ⟨p, rfl⟩ := Nat.exists_eq_add_of_le' (show 2 ≤ q by omega)
    have hdown := down_of_le (r := 0) (show p ≤ p + 2 by omega)
    refine ⟨p, by omega, ?_⟩
    rw [show 3 * (p + 2) - 3 = p + 2 + 1 + 2 * p by omega, (down_after (Nat.zero_le _) _).1]
    simp only [triangle] at hdown ⊢
    omega

end

/-- A run of numbers moving down is without repetition up to the limit. -/
theorem down_injective_iff (k n : ℕ) :
    (∀ i j, i < j → j < n → down k i ≠ down k j) ↔ n ≤ downLimit k := by
  have hle := triangle_root_le k
  have hlt := lt_triangle_root k
  rw [triangle] at hlt
  have hk : triangle (root k) + (k - triangle (root k)) = k := by omega
  have hr : k - triangle (root k) ≤ root k := by omega
  constructor
  · intro h
    by_contra hn
    obtain ⟨i, hi, heq⟩ := down_limit hr
    rw [hk] at heq
    exact h i _ hi (by unfold downLimit at hn; omega) heq
  · intro hn i j hij hj
    have := down_ne hr hij (hj.trans_le hn)
    rwa [hk] at this

/-- The numbers of a run are not greater than its start or its length. -/
theorem down_le (k n : ℕ) : down k n ≤ max k n := by
  induction n with
  | zero => exact le_max_left _ _
  | succ n ih =>
    rw [down]
    omega

end Mdencode.GrowingStep
