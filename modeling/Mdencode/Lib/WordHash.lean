import Mathlib.Data.Nat.ModEq
import Mdencode.Lib.Bytes
import Mdencode.Lib.Chunks

/-! Hashes that take a buffer word by word. A step that loses neither the state
nor the word tells apart any two buffers that differ in one word: the states
part there and do not meet again. -/

namespace Mdencode.WordHash

open Mdencode.Bytes Mdencode.Chunks

/-! Functions of machine words that can be undone -/

section
variable {w : ℕ}

/-- Each bit of the result comes from bits further up. -/
def FromAbove (f : BitVec w → BitVec w) : Prop :=
  ∀ x y i, (∀ j, i < j → x.getLsbD j = y.getLsbD j) → (f x).getLsbD i = (f y).getLsbD i

theorem fromAbove_ushiftRight {k : ℕ} (hk : 0 < k) :
    FromAbove fun x : BitVec w => x >>> k := by
  intro x y i h
  rw [BitVec.getLsbD_ushiftRight, BitVec.getLsbD_ushiftRight]
  exact h _ (by omega)

theorem FromAbove.xor {f g : BitVec w → BitVec w} (hf : FromAbove f) (hg : FromAbove g) :
    FromAbove fun x => f x ^^^ g x := by
  intro x y i h
  rw [BitVec.getLsbD_xor, BitVec.getLsbD_xor, hf x y i h, hg x y i h]

/-- The highest bit is plain to see, and each one gives the next away. -/
theorem FromAbove.injective {f : BitVec w → BitVec w} (h : FromAbove f) :
    Function.Injective fun x => x ^^^ f x := by
  intro x y hxy
  have hbit : ∀ n i, w ≤ i + n → x.getLsbD i = y.getLsbD i := by
    intro n
    induction n with
    | zero => exact fun i hi => by rw [BitVec.getLsbD_of_ge x i hi, BitVec.getLsbD_of_ge y i hi]
    | succ n ih =>
      intro i hi
      have hf : (f x).getLsbD i = (f y).getLsbD i := h x y i fun j hj => ih j (by omega)
      have hi' := congrArg (BitVec.getLsbD · i) hxy
      simp only [BitVec.getLsbD_xor, hf] at hi'
      exact Bool.xor_left_inj.mp hi'
  exact BitVec.eq_of_getLsbD_eq fun i _ => hbit w i (by omega)

theorem mul_injective {m : BitVec w} (hm : Odd m.toNat) :
    Function.Injective fun x : BitVec w => x * m := by
  intro x y h
  have hnat := congrArg BitVec.toNat h
  simp only [BitVec.toNat_mul] at hnat
  have hcop : (2 ^ w).gcd m.toNat = 1 := Nat.Coprime.pow_left w (Nat.coprime_two_left.mpr hm)
  have hmod := Nat.ModEq.cancel_right_of_coprime hcop hnat
  rw [Nat.ModEq, Nat.mod_eq_of_lt x.isLt, Nat.mod_eq_of_lt y.isLt] at hmod
  exact BitVec.eq_of_toNat_eq hmod

end

/-! States that part and do not meet again -/

section
variable {σ ω β : Type*} {apart : σ → σ → Prop} {step : σ → ω → σ}

/-- Different words part a state, and one word keeps states apart. -/
structure KeepsApart (apart : σ → σ → Prop) (step : σ → ω → σ) : Prop where
  word : ∀ {s x y}, x ≠ y → apart (step s x) (step s y)
  state : ∀ {s t} x, apart s t → apart (step s x) (step t x)

theorem KeepsApart.of_injective (hword : ∀ s, Function.Injective (step s))
    (hstate : ∀ x, Function.Injective fun s => step s x) : KeepsApart (· ≠ ·) step where
  word hxy := (hword _).ne hxy
  state x hst := (hstate x).ne hst

theorem KeepsApart.foldl (h : KeepsApart apart step) {s t : σ} (hst : apart s t) (words : List ω) :
    apart (words.foldl step s) (words.foldl step t) := by
  induction words generalizing s t with
  | nil => exact hst
  | cons x words ih => exact ih (h.state x hst)

theorem KeepsApart.foldl_word (h : KeepsApart apart step) (s : σ) (before after : List ω) {x y : ω}
    (hxy : x ≠ y) :
    apart ((before ++ x :: after).foldl step s) ((before ++ y :: after).foldl step s) := by
  rw [List.foldl_append, List.foldl_append, List.foldl_cons, List.foldl_cons]
  exact h.foldl (h.word hxy) after

end

/-! Buffers -/

section
variable {β : Type*}

/-- No change goes unnoticed that stays within one word of `n` bytes; the last
word may be short. -/
def Notices (n : ℕ) (hash : List UInt8 → β) : Prop :=
  ∀ before x y after, n ∣ before.length → x.length = y.length → x.length ≤ n →
    (x.length < n → after = []) → hash (before ++ x ++ after) = hash (before ++ y ++ after) → x = y

/-- Buffers of one word are told apart. -/
theorem Notices.short {n : ℕ} {hash : List UInt8 → β} (h : Notices n hash) {x y : List UInt8}
    (hlen : x.length = y.length) (hle : x.length ≤ n) (heq : hash x = hash y) : x = y :=
  h [] x y [] (dvd_zero n) hlen hle (fun _ => rfl) (by simpa using heq)

theorem Notices.comp {γ : Type*} {n : ℕ} {hash : List UInt8 → β} (h : Notices n hash) {f : β → γ}
    (hf : Function.Injective f) : Notices n fun buf => f (hash buf) :=
  fun before x y after hbefore hlen hle hafter heq =>
    h before x y after hbefore hlen hle hafter (hf heq)

theorem untilEmpty_nil (n : ℕ) : untilEmpty n ([] : List UInt8) = [] := by
  rw [untilEmpty, dif_neg (by simp)]

theorem untilEmpty_cons {n : ℕ} (hn : 0 < n) {buf : List UInt8} (hbuf : buf ≠ []) :
    untilEmpty n buf = buf.take n :: untilEmpty n (buf.drop n) := by
  rw [untilEmpty, dif_pos ⟨hn, hbuf⟩]

theorem untilEmpty_drop {n : ℕ} (hn : 0 < n) {buf : List UInt8} {k : ℕ} (hk : k < buf.length) :
    untilEmpty n (buf.drop k) = (buf.drop k).take n :: untilEmpty n (buf.drop (k + n)) := by
  have hne : buf.drop k ≠ [] := by
    rw [← List.length_pos_iff, List.length_drop]
    omega
  rw [untilEmpty_cons hn hne, List.drop_drop]

theorem untilEmpty_append {n : ℕ} (hn : 0 < n) {before : List UInt8} (hbefore : n ∣ before.length)
    (rest : List UInt8) :
    untilEmpty n (before ++ rest) = untilEmpty n before ++ untilEmpty n rest := by
  obtain ⟨count, hcount⟩ := hbefore
  induction count generalizing before with
  | zero =>
    obtain rfl := List.length_eq_zero_iff.mp hcount
    rw [untilEmpty_nil]
    rfl
  | succ count ih =>
    have hlen : n ≤ before.length := by
      rw [hcount, Nat.mul_succ]
      omega
    have hne : before ≠ [] := fun hnil => by
      rw [hnil, List.length_nil] at hlen
      omega
    rw [untilEmpty_cons hn (List.append_ne_nil_of_left_ne_nil hne rest), untilEmpty_cons hn hne,
      List.take_append_of_le_length hlen, List.drop_append_of_le_length hlen, List.cons_append]
    rw [ih]
    rw [List.length_drop, hcount, Nat.mul_succ, Nat.add_sub_cancel]

theorem untilEmpty_word {n : ℕ} (hn : 0 < n) {x after : List UInt8} (hx : x ≠ [])
    (hle : x.length ≤ n) (hafter : x.length < n → after = []) :
    untilEmpty n (x ++ after) = x :: untilEmpty n after := by
  have hne := List.append_ne_nil_of_left_ne_nil hx after
  rcases hle.lt_or_eq with hlt | heq
  · obtain rfl := hafter hlt
    rw [untilEmpty_cons hn hne, List.append_nil, List.take_of_length_le hle,
      List.drop_of_length_le hle]
  · rw [untilEmpty_cons hn hne, ← heq, List.take_left, List.drop_left]

/-- A hash that goes through the words of a buffer notices a change to one. -/
theorem KeepsApart.notices {σ ω : Type*} {apart : σ → σ → Prop} {step : σ → ω → σ} {n : ℕ}
    (h : KeepsApart apart step) (hn : 0 < n) (init : ℕ → σ) {word : List UInt8 → ω}
    (hword : ∀ x y, x.length = y.length → x.length ≤ n → word x = word y → x = y)
    (finish : ℕ → σ → β) (hfinish : ∀ len s t, apart s t → finish len s ≠ finish len t)
    {hash : List UInt8 → β} (hhash : ∀ buf, hash buf =
      finish buf.length (((untilEmpty n buf).map word).foldl step (init buf.length))) :
    Notices n hash := by
  intro before x y after hbefore hlen hle hafter heq
  by_contra hxy
  have hx : x ≠ [] := fun hnil => hxy (by
    rw [hnil, List.length_nil] at hlen
    rw [hnil, List.length_eq_zero_iff.mp hlen.symm])
  have hy : y ≠ [] := fun hnil => hx (by
    rw [hnil, List.length_nil] at hlen
    exact List.length_eq_zero_iff.mp hlen)
  have hsplit (z : List UInt8) (hz : z ≠ []) (hzx : z.length = x.length) :
      ((untilEmpty n (before ++ z ++ after)).map word) =
        (untilEmpty n before).map word ++ word z :: (untilEmpty n after).map word := by
    rw [List.append_assoc, untilEmpty_append hn hbefore,
      untilEmpty_word hn hz (hzx ▸ hle) (fun hlt => hafter (hzx ▸ hlt)), List.map_append,
      List.map_cons]
  have hlength : (before ++ y ++ after).length = (before ++ x ++ after).length := by
    simp [hlen]
  rw [hhash, hhash, hsplit x hx rfl, hsplit y hy hlen.symm, hlength] at heq
  exact hfinish _ _ _ (h.foldl_word _ _ _ fun hw => hxy (hword x y hlen hle hw)) heq

end

/-! Sums over the reads of a file -/

theorem untilShort_prefix {n : ℕ} (hn : 0 < n) (count : ℕ) (file : List UInt8)
    (hcount : count * n ≤ file.length) :
    ∃ reads : List (List UInt8), ∀ rest,
      untilShort n (file.take (count * n) ++ rest) = reads ++ untilShort n rest := by
  induction count generalizing file with
  | zero => exact ⟨[], fun rest => by simp⟩
  | succ count ih =>
    rw [Nat.succ_mul] at hcount
    obtain ⟨reads, hreads⟩ := ih (file.drop n) (by rw [List.length_drop]; omega)
    refine ⟨file.take n :: reads, fun rest => ?_⟩
    have hsplit : file.take ((count + 1) * n) = file.take n ++ (file.drop n).take (count * n) := by
      rw [Nat.succ_mul, Nat.add_comm, List.take_add]
    rw [hsplit, List.append_assoc, untilShort_append hn (by rw [List.length_take]; omega), hreads,
      List.cons_append]

/-- The first read begins with what is no longer than it. -/
theorem untilShort_split {n : ℕ} (hn : 0 < n) (first rest : List UInt8) (hle : first.length ≤ n) :
    ∃ after others, (rest = [] → after = []) ∧
      ∀ other : List UInt8, other.length = first.length →
        untilShort n (other ++ rest) = (other ++ after) :: others := by
  rcases lt_or_ge (first.length + rest.length) n with hlt | hge
  · refine ⟨rest, [], fun h => h, fun other hlen => ?_⟩
    exact untilShort_of_lt (by rw [List.length_append]; omega)
  · refine ⟨rest.take (n - first.length), untilShort n (rest.drop (n - first.length)),
      fun h => by rw [h, List.take_nil], fun other hlen => ?_⟩
    conv_lhs => rw [← List.take_append_drop (n - first.length) rest, ← List.append_assoc]
    exact untilShort_append hn (by rw [List.length_append, List.length_take]; omega) _

/-- A sum over reads that are made of whole words notices what each summand does. -/
theorem Notices.wrappedSum {n size m : ℕ} {value : List UInt8 → ℕ} (h : Notices n value)
    (hsize : 0 < size) (hdvd : n ∣ size) (hlt : ∀ buf, value buf < m) :
    Notices n fun file => Chunks.wrappedSum m value (untilShort size file) := by
  intro before x y after hbefore hlen hle hafter heq
  obtain ⟨reads, hreads⟩ := untilShort_prefix hsize (before.length / size) before
    (Nat.div_mul_le_self _ _)
  set start := before.drop (before.length / size * size) with hstart
  have hsplit : before = before.take (before.length / size * size) ++ start :=
    (List.take_append_drop _ _).symm
  have hlength : start.length = before.length % size := by
    rw [hstart, List.length_drop, Nat.mul_comm, ← Nat.mod_eq_sub_mul_div]
  have hword : n ∣ start.length := hlength ▸ (Nat.dvd_mod_iff hdvd).mpr hbefore
  have hroom : start.length + n ≤ size := by
    have hmod : start.length < size := hlength ▸ Nat.mod_lt _ hsize
    obtain ⟨a, ha⟩ := hword
    obtain ⟨b, hb⟩ := hdvd
    rw [ha, hb] at hmod ⊢
    rw [← Nat.mul_succ]
    exact Nat.mul_le_mul_left n (Nat.lt_of_mul_lt_mul_left hmod)
  obtain ⟨next, others, hnext, hothers⟩ := untilShort_split hsize (start ++ x) after
    (by rw [List.length_append]; omega)
  have hsum (z : List UInt8) (hz : z.length = x.length) :
      untilShort size (before ++ z ++ after) = reads ++ (start ++ z ++ next) :: others := by
    rw [hsplit, List.append_assoc, List.append_assoc, hreads, ← List.append_assoc start]
    rw [hothers (start ++ z) (by simp [hz])]
  dsimp only at heq
  rw [hsum x rfl, hsum y hlen.symm, wrappedSum_eq, wrappedSum_eq] at heq
  simp only [List.map_append, List.map_cons, List.sum_append, List.sum_cons] at heq
  have hvalue : value (start ++ x ++ next) ≡ value (start ++ y ++ next) [MOD m] :=
    Nat.ModEq.add_right_cancel' _ (Nat.ModEq.add_left_cancel' _ heq)
  exact h start x y next hword hlen hle (fun hshort => hnext (hafter hshort))
    (hvalue.eq_of_lt_of_lt (hlt _) (hlt _))

/-! Registers that move on by a byte -/

section
variable {σ : Type*} {agree : ℕ → σ → σ → Prop} {step : σ → UInt8 → σ} {width : ℕ}

/-- A register of `width` bytes that a step moves on by one, adding an entry of
a table. `agree k` says that the `k` bytes that are moved out last are equal. -/
structure ShiftRegister (width : ℕ) (agree : ℕ → σ → σ → Prop) (step : σ → UInt8 → σ) : Prop where
  full : ∀ {s t}, agree width s t ↔ s = t
  mono : ∀ {k l s t}, k ≤ l → agree l s t → agree k s t
  back : ∀ {k s t x y}, k < width → agree (k + 1) (step s x) (step t y) → agree k s t
  state : ∀ {s t} x, step s x = step t x → s = t
  byte : ∀ {s x y}, agree 1 (step s x) (step s y) → x = y

/-- What two runs agree on at the end they agreed on before, but for a byte a step. -/
theorem ShiftRegister.agree_of_foldl (h : ShiftRegister width agree step) {xs ys : List UInt8}
    (hlen : xs.length = ys.length) {k : ℕ} (hk : k + xs.length ≤ width) {s t : σ}
    (hagree : agree (k + xs.length) (xs.foldl step s) (ys.foldl step t)) : agree k s t := by
  induction xs generalizing ys s t k with
  | nil =>
    obtain rfl := List.length_eq_zero_iff.mp hlen.symm
    exact hagree
  | cons x xs ih =>
    cases ys with
    | nil => simp at hlen
    | cons y ys =>
      rw [List.length_cons, ← Nat.add_assoc, Nat.add_right_comm] at hk hagree
      exact h.back (by omega) (ih (by simpa using hlen) hk hagree)

/-- As many bytes as the register holds can be told from what it is in the end. -/
theorem ShiftRegister.foldl_injective (h : ShiftRegister width agree step) {xs ys : List UInt8}
    (hlen : xs.length = ys.length) (hle : xs.length ≤ width) {s : σ}
    (heq : xs.foldl step s = ys.foldl step s) : xs = ys := by
  induction xs generalizing ys s with
  | nil => exact (List.length_eq_zero_iff.mp hlen.symm).symm
  | cons x xs ih =>
    cases ys with
    | nil => simp at hlen
    | cons y ys =>
      have hlen' : xs.length = ys.length := by simpa using hlen
      rw [List.length_cons] at hle
      have hbyte : agree 1 (step s x) (step s y) :=
        h.agree_of_foldl hlen' (by omega) (h.mono (by omega) (h.full.mpr heq))
      obtain rfl := h.byte hbyte
      rw [ih hlen' (by omega) heq]

theorem ShiftRegister.foldl_state (h : ShiftRegister width agree step) (xs : List UInt8) {s t : σ}
    (heq : xs.foldl step s = xs.foldl step t) : s = t := by
  induction xs generalizing s t with
  | nil => exact heq
  | cons x xs ih => exact h.state x (ih heq)

theorem ShiftRegister.notices (h : ShiftRegister width agree step) (s : σ) :
    Notices width fun buf => buf.foldl step s := by
  intro before x y after _ hlen hle _ heq
  simp only [List.foldl_append] at heq
  exact h.foldl_injective hlen hle (h.foldl_state after heq)

end

end Mdencode.WordHash
