import Mathlib.Tactic

/-! Splitting a residue class among `T` workers. From a common base, worker
`t` visits `base + t * m`, `base + t * m + m * T`, and so on. Every element of
the class at or above the base is visited by exactly one worker, at a position
that can be computed. -/

namespace Mdencode.Stride

/-- The `i`-th element worker `t` of `T` visits. -/
def visit (base m T t i : ℕ) : ℕ := base + t * m + i * (m * T)

/-- The worker that visits the `q`-th element of the class above the base. -/
def owner (T q : ℕ) : ℕ := q % T

/-- The position at which its owner visits the `q`-th element. -/
def position (T q : ℕ) : ℕ := q / T

variable {base m T t q i : ℕ}

theorem owner_lt (hT : 0 < T) : owner T q < T := Nat.mod_lt _ hT

theorem visit_eq_iff (hm : 0 < m) : visit base m T t i = base + q * m ↔ t + i * T = q := by
  have hsplit : visit base m T t i = base + (t + i * T) * m := by rw [visit]; ring
  rw [hsplit, Nat.add_left_cancel_iff, Nat.mul_left_inj hm.ne']

/-- Worker `t` meets the `q`-th element exactly at `position T q`, and only if
it is the owner. -/
theorem visit_eq_iff_owner (hm : 0 < m) (ht : t < T) :
    visit base m T t i = base + q * m ↔ t = owner T q ∧ i = position T q := by
  rw [visit_eq_iff hm, owner, position]
  constructor
  · rintro rfl
    have hT : 0 < T := by omega
    rw [Nat.add_mul_mod_self_right, Nat.add_mul_div_right _ _ hT, Nat.mod_eq_of_lt ht,
      Nat.div_eq_of_lt ht]
    simp
  · rintro ⟨rfl, rfl⟩
    rw [Nat.mul_comm]
    exact Nat.mod_add_div q T

theorem visit_owner (hm : 0 < m) (hT : 0 < T) :
    visit base m T (owner T q) (position T q) = base + q * m :=
  (visit_eq_iff_owner hm (owner_lt hT)).mpr ⟨rfl, rfl⟩

theorem visit_mono {j : ℕ} (h : i ≤ j) : visit base m T t i ≤ visit base m T t j :=
  Nat.add_le_add_left (Nat.mul_le_mul_right _ h) _

/-- One and only one worker visits a given element of the class. -/
theorem existsUnique_visit (base q : ℕ) (hm : 0 < m) (hT : 0 < T) :
    ∃! t, t < T ∧ ∃ i, visit base m T t i = base + q * m := by
  refine ⟨owner T q, ⟨owner_lt hT, position T q, visit_owner hm hT⟩, ?_⟩
  rintro t ⟨ht, i, hi⟩
  exact ((visit_eq_iff_owner hm ht).mp hi).1

/-- Rounded down to a multiple of one worker's step, a number is as when it is
rounded to a multiple of `m` only if the workers divide the quotient. -/
theorem floor_mul_eq_iff (floor m T : ℕ) :
    floor / (m * T) * (m * T) = floor / m * m ↔ T ∣ floor / m := by
  rcases Nat.eq_zero_or_pos m with rfl | hm
  · simp
  · have hquotient : floor / (m * T) = floor / m / T := (Nat.div_div_eq_div_mul _ _ _).symm
    have hproduct : floor / m / T * (m * T) = floor / m / T * T * m := by ring
    rw [hquotient, hproduct, Nat.mul_left_inj hm.ne', Nat.dvd_iff_div_mul_eq]

end Mdencode.Stride
