import Mathlib.Tactic

/-! Arrays whose accesses are checked: a read or a write out of bounds stops the
run. The two loops move a row of places up and fill the places in front of it. -/

namespace Mdencode.Buffer

variable {α : Type*}

def get (buf : List α) (n : ℕ) : Option α := buf[n]?

def set (buf : List α) (n : ℕ) (a : α) : Option (List α) :=
  if n < buf.length then some (buf.set n a) else none

/-- `for (n = top; n >= 0; n--) buf[n + diff] = buf[n];` -/
def moveUp (diff : ℕ) : ℕ → List α → Option (List α)
  | 0, buf => (get buf 0).bind fun a => set buf diff a
  | top + 1, buf =>
    (get buf (top + 1)).bind fun a => (set buf (top + 1 + diff) a).bind fun buf =>
      moveUp diff top buf

/-- `for (n = 0; n < count; n++) buf[n] = a;` -/
def fill (a : α) : ℕ → List α → Option (List α)
  | 0, buf => some buf
  | count + 1, buf => (fill a count buf).bind fun buf => set buf count a

variable {buf out : List α} {n diff top count : ℕ} {a : α}

theorem get_of_lt (h : n < buf.length) : get buf n = some buf[n] := List.getElem?_eq_getElem h

theorem set_of_lt (h : n < buf.length) : set buf n a = some (buf.set n a) := if_pos h

theorem set_of_le (h : buf.length ≤ n) : set buf n a = none := if_neg (by omega)

theorem eq_of_set (h : set buf n a = some out) : out = buf.set n a := by
  unfold set at h
  split_ifs at h
  exact (Option.some.inj h).symm

/-- The first write of the loop is the highest. -/
theorem moveUp_of_le (h : buf.length ≤ top + diff) : moveUp diff top buf = none := by
  cases top with
  | zero =>
    rw [moveUp]
    refine Option.bind_eq_none_iff.mpr fun a _ => set_of_le ?_
    omega
  | succ top =>
    rw [moveUp]
    apply Option.bind_eq_none_iff.mpr
    intro a _
    rw [set_of_le h, Option.bind_none]

theorem exists_moveUp (h : top + diff < buf.length) :
    ∃ out, moveUp diff top buf = some out ∧ out.length = buf.length := by
  induction top generalizing buf with
  | zero =>
    rw [moveUp, get_of_lt (by omega), Option.bind_some, set_of_lt (by omega)]
    exact ⟨_, rfl, List.length_set⟩
  | succ top ih =>
    rw [moveUp, get_of_lt (by omega), Option.bind_some, set_of_lt h, Option.bind_some]
    have hrest : top + diff < (buf.set (top + 1 + diff) buf[top + 1]).length := by
      rw [List.length_set]
      omega
    obtain ⟨out, hout, hlen⟩ := ih hrest
    exact ⟨out, hout, hlen.trans List.length_set⟩

theorem exists_fill (h : count ≤ buf.length) :
    ∃ out, fill a count buf = some out ∧ out.length = buf.length := by
  induction count with
  | zero => exact ⟨buf, rfl, rfl⟩
  | succ count ih =>
    obtain ⟨out, hout, hlen⟩ := ih (by omega)
    rw [fill, hout, Option.bind_some, set_of_lt (by omega)]
    exact ⟨_, rfl, List.length_set.trans hlen⟩

end Mdencode.Buffer
