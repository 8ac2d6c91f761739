import Mdencode.Lib.Stream

/-! A memory of named cells, each a row of bytes, and the lists of spans a
program writes out and reads back. Reading back what was written copies the
spans and leaves the rest alone. -/

namespace Mdencode

abbrev Memory (ι : Type*) := ι → ℕ → UInt8

/-- The first `length` bytes of a cell. -/
structure Span (ι : Type*) where
  cell : ι
  length : ℕ
  deriving DecidableEq

namespace Memory

variable {ι : Type*}

def fetch (m : Memory ι) (span : Span ι) : List UInt8 :=
  (List.range span.length).map (m span.cell)

def dump (m : Memory ι) (spans : List (Span ι)) : List UInt8 := spans.flatMap m.fetch

def Covers (spans : List (Span ι)) (c : ι) (k : ℕ) : Prop :=
  ∃ span ∈ spans, span.cell = c ∧ k < span.length

variable (m src dst : Memory ι) (spans : List (Span ι))

@[simp] theorem length_fetch (span : Span ι) : (m.fetch span).length = span.length := by
  simp [fetch]

theorem length_dump : (m.dump spans).length = (spans.map Span.length).sum := by
  simp [dump, List.length_flatMap]

theorem fetch_congr {span : Span ι} (h : ∀ k < span.length, src span.cell k = dst span.cell k) :
    src.fetch span = dst.fetch span := by
  refine List.map_congr_left fun k hk => h k (List.mem_range.mp hk)

theorem dump_congr (h : ∀ span ∈ spans, ∀ k < span.length, src span.cell k = dst span.cell k) :
    src.dump spans = dst.dump spans :=
  List.flatMap_congr fun span hspan => fetch_congr src dst (h span hspan)

theorem take_fetch (c : ι) {n length : ℕ} (h : n ≤ length) :
    (m.fetch ⟨c, length⟩).take n = m.fetch ⟨c, n⟩ := by
  rw [fetch, fetch, ← List.map_take, List.take_range, Nat.min_eq_left h]

theorem getD_fetch (span : Span ι) (k : ℕ) (d : UInt8) :
    (m.fetch span).getD k d = if k < span.length then m span.cell k else d := by
  rw [fetch, List.getD_eq_getElem?_getD]
  split_ifs with h
  · simp [h]
  · rw [List.getElem?_eq_none (by simpa using h), Option.getD_none]

@[simp] theorem covers_nil (c : ι) (k : ℕ) : ¬ Covers ([] : List (Span ι)) c k := by
  simp [Covers]

@[simp] theorem covers_cons (span : Span ι) (c : ι) (k : ℕ) :
    Covers (span :: spans) c k ↔ span.cell = c ∧ k < span.length ∨ Covers spans c k := by
  simp [Covers]

variable [DecidableEq ι]

instance (spans : List (Span ι)) (c : ι) (k : ℕ) : Decidable (Covers spans c k) :=
  inferInstanceAs (Decidable (∃ span ∈ spans, span.cell = c ∧ k < span.length))

def store (m : Memory ι) (cell : ι) (bytes : List UInt8) : Memory ι := fun c k =>
  if c = cell then bytes.getD k (m c k) else m c k

theorem fetch_store (cell : ι) (bytes : List UInt8) :
    (m.store cell bytes).fetch ⟨cell, bytes.length⟩ = bytes := by
  apply List.ext_getElem (by simp)
  intro k _ hk
  simp [fetch, store, hk]

theorem fetch_store_of_ne {cell : ι} {span : Span ι} (h : span.cell ≠ cell) (bytes : List UInt8) :
    (m.store cell bytes).fetch span = m.fetch span :=
  fetch_congr _ _ fun _ _ => if_neg h

/-- One read a span, in order. -/
def load (m : Memory ι) : List (Span ι) → IStream → Memory ι × IStream
  | [], s => (m, s)
  | span :: spans, s =>
    let (bytes, s) := s.read (m.fetch span)
    load (m.store span.cell bytes) spans s

/-- Whatever the stream holds, only the cells of the spans are written. -/
theorem load_of_not_mem {c : ι} (h : ∀ span ∈ spans, span.cell ≠ c) (s : IStream) :
    (m.load spans s).1 c = m c := by
  induction spans generalizing m s with
  | nil => rfl
  | cons span spans ih =>
    rw [load]
    dsimp only
    rw [ih _ fun other hmem => h other (List.mem_cons_of_mem _ hmem)]
    funext k
    exact if_neg (h span List.mem_cons_self).symm

/-- `src` on the spans, `dst` elsewhere. -/
def overlay (spans : List (Span ι)) (src dst : Memory ι) : Memory ι := fun c k =>
  if Covers spans c k then src c k else dst c k

theorem fetch_overlay {span : Span ι} (h : span ∈ spans) :
    (overlay spans src dst).fetch span = src.fetch span :=
  fetch_congr _ _ fun _ hk => if_pos ⟨span, h, rfl, hk⟩

theorem overlay_nil : overlay [] src dst = dst := by
  funext c k
  exact if_neg (covers_nil c k)

theorem store_fetch (span : Span ι) :
    dst.store span.cell (src.fetch span) = overlay [span] src dst := by
  funext c k
  rw [store, overlay]
  rcases eq_or_ne c span.cell with rfl | hc
  · rw [if_pos rfl, getD_fetch]
    simp
  · rw [if_neg hc, if_neg]
    simp [Ne.symm hc]

theorem overlay_cons (span : Span ι) :
    overlay spans src (overlay [span] src dst) = overlay (span :: spans) src dst := by
  funext c k
  simp only [overlay, covers_cons, covers_nil, or_false]
  split_ifs <;> first | rfl | tauto

/-- What was written out is read back into the same spans. -/
theorem load_dump (rest : List UInt8) :
    dst.load spans (IStream.ofBytes (src.dump spans ++ rest)) =
      (overlay spans src dst, IStream.ofBytes rest) := by
  induction spans generalizing dst with
  | nil => rw [load, overlay_nil, dump, List.flatMap_nil, List.nil_append]
  | cons span spans ih =>
    have hsplit : src.dump (span :: spans) ++ rest =
        src.fetch span ++ (src.dump spans ++ rest) := by
      simp [dump]
    rw [load, hsplit, IStream.read_append (by simp)]
    dsimp only
    rw [store_fetch, ih, overlay_cons]

end Memory

end Mdencode
