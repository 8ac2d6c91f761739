import Mathlib.Tactic

/-! Fields put together with a delimiter between them and taken apart again by
repeated reads up to the delimiter. The last read yields no field when nothing
is left, so a trailing delimiter is not followed by an empty field. -/

namespace Mdencode.Separated

variable {α : Type*}

def join (delim : α) : List (List α) → List α
  | [] => []
  | [field] => field
  | field :: rest => field ++ delim :: join delim rest

theorem length_join_le (delim : α) (parts : List (List α)) :
    (join delim parts).length ≤ (parts.map List.length).sum + parts.length := by
  induction parts with
  | nil => simp [join]
  | cons field rest ih =>
    cases rest with
    | nil => simp [join]
    | cons next rest =>
      rw [join, List.length_append, List.length_cons]
      · simp only [List.map_cons, List.sum_cons, List.length_cons] at ih ⊢
        omega
      · simp

theorem intercalate_cons (sep first : List α) (rest : List (List α)) :
    sep.intercalate (first :: rest) = first ++ rest.flatMap (sep ++ ·) := by
  induction rest generalizing first with
  | nil => simp
  | cons next rest ih => rw [List.intercalate_cons_cons, ih, List.flatMap_cons, List.append_assoc,
      List.append_assoc]

/-- The first delimiter ends what stands before it. -/
theorem append_cons_inj {delim : α} {xs ys r s : List α} (hxs : delim ∉ xs) (hys : delim ∉ ys)
    (h : xs ++ delim :: r = ys ++ delim :: s) : xs = ys ∧ r = s := by
  induction xs generalizing ys with
  | nil =>
    cases ys with
    | nil => exact ⟨rfl, (List.cons.inj h).2⟩
    | cons y ys => exact absurd (List.cons.inj h).1 (List.ne_of_not_mem_cons hys)
  | cons x xs ih =>
    cases ys with
    | nil => exact absurd (List.cons.inj h).1.symm (List.ne_of_not_mem_cons hxs)
    | cons y ys =>
      obtain ⟨rfl, htail⟩ := List.cons.inj h
      obtain ⟨rfl, hrest⟩ :=
        ih (List.not_mem_of_not_mem_cons hxs) (List.not_mem_of_not_mem_cons hys)
        htail
      exact ⟨rfl, hrest⟩

/-- Pieces that can each be told from what follows are told from a stop behind
the last one. -/
theorem flatMap_append_inj {β : Type*} {f : β → List α} {good : β → Prop} {stop : List α → Prop}
    (hcancel : ∀ a b, good a → good b → ∀ r s, f a ++ r = f b ++ s → a = b ∧ r = s)
    (hstop : ∀ a, good a → ∀ r, ¬ stop (f a ++ r)) {xs ys : List β} (hxs : ∀ a ∈ xs, good a)
    (hys : ∀ a ∈ ys, good a) {r s : List α} (hr : stop r) (hs : stop s)
    (h : xs.flatMap f ++ r = ys.flatMap f ++ s) : xs = ys ∧ r = s := by
  induction xs generalizing ys with
  | nil =>
    cases ys with
    | nil => exact ⟨rfl, h⟩
    | cons b ys =>
      rw [List.flatMap_nil, List.nil_append, List.flatMap_cons, List.append_assoc] at h
      exact absurd (h ▸ hr) (hstop b (hys b List.mem_cons_self) _)
  | cons a xs ih =>
    have ha := hxs a List.mem_cons_self
    cases ys with
    | nil =>
      rw [List.flatMap_nil, List.nil_append, List.flatMap_cons, List.append_assoc] at h
      exact absurd (h ▸ hs) (hstop a ha _)
    | cons b ys =>
      rw [List.flatMap_cons, List.flatMap_cons, List.append_assoc, List.append_assoc] at h
      obtain ⟨rfl, hrest⟩ := hcancel a b ha (hys b List.mem_cons_self) _ _ h
      obtain ⟨rfl, hend⟩ := ih (fun c hmem => hxs c (List.mem_cons_of_mem _ hmem))
        (fun c hmem => hys c (List.mem_cons_of_mem _ hmem)) hrest
      exact ⟨rfl, hend⟩

theorem map_append_inj {β : Type*} {f : β → α} {good : β → Prop} {stop : List α → Prop}
    (hinj : ∀ a b, good a → good b → f a = f b → a = b)
    (hstop : ∀ a, good a → ∀ r, ¬ stop (f a :: r)) {xs ys : List β} (hxs : ∀ a ∈ xs, good a)
    (hys : ∀ a ∈ ys, good a) {r s : List α} (hr : stop r) (hs : stop s)
    (h : xs.map f ++ r = ys.map f ++ s) : xs = ys ∧ r = s := by
  rw [List.map_eq_flatMap, List.map_eq_flatMap] at h
  refine flatMap_append_inj (fun a b ha hb r s heq => ?_) hstop hxs hys hr hs h
  obtain ⟨hab, hrest⟩ := List.cons.inj heq
  exact ⟨hinj a b ha hb hab, hrest⟩

theorem map_inj {β : Type*} {f : β → α} {good : β → Prop}
    (hinj : ∀ a b, good a → good b → f a = f b → a = b) {xs ys : List β} (hxs : ∀ a ∈ xs, good a)
    (hys : ∀ a ∈ ys, good a) (h : xs.map f = ys.map f) : xs = ys := by
  have hstop (a : β) (_ : good a) (r : List α) : ¬ [] = f a :: r := by simp
  rw [← List.append_nil (xs.map f), ← List.append_nil (ys.map f)] at h
  exact (map_append_inj hinj hstop hxs hys rfl rfl h).1

variable [DecidableEq α]

theorem notMem_of_mem_splitOn {delim : α} {xs part : List α} (h : part ∈ xs.splitOn delim) :
    delim ∉ part := by
  induction xs generalizing part with
  | nil =>
    rw [List.splitOn_nil, List.mem_singleton] at h
    simp [h]
  | cons x xs ih =>
    rw [List.splitOn_cons_eq_if_modifyHead] at h
    split_ifs at h with hx
    · rcases List.mem_cons.mp h with rfl | h
      · simp
      · exact ih h
    · cases hsplit : xs.splitOn delim with
      | nil => exact absurd hsplit (List.splitOn_ne_nil delim xs)
      | cons head tail =>
        rw [hsplit, List.modifyHead_cons] at h
        rw [hsplit] at ih
        rcases List.mem_cons.mp h with rfl | h
        · have hhead := ih List.mem_cons_self
          have hne : delim ≠ x := by
            rintro rfl
            simp at hx
          exact List.not_mem_cons_of_ne_of_not_mem hne hhead
        · exact ih (List.mem_cons_of_mem _ h)

/-- The fields that reading up to `delim` again and again yields. -/
def fields (delim : α) : List α → List (List α)
  | [] => []
  | c :: rest =>
    if c = delim then [] :: fields delim rest
    else
      match fields delim rest with
      | [] => [[c]]
      | field :: others => (c :: field) :: others

variable {delim : α}

theorem fields_append_delim {field : List α} (h : delim ∉ field) (rest : List α) :
    fields delim (field ++ delim :: rest) = field :: fields delim rest := by
  induction field with
  | nil => simp [fields]
  | cons c field ih =>
    obtain ⟨hc, hfield⟩ := not_or.mp fun hmem => h (List.mem_cons.mpr hmem)
    rw [List.cons_append, fields, if_neg (Ne.symm hc), ih hfield]

theorem fields_eq_singleton {field : List α} (h : delim ∉ field) (hne : field ≠ []) :
    fields delim field = [field] := by
  induction field with
  | nil => exact absurd rfl hne
  | cons c field ih =>
    obtain ⟨hc, hfield⟩ := not_or.mp fun hmem => h (List.mem_cons.mpr hmem)
    rw [fields, if_neg (Ne.symm hc)]
    rcases eq_or_ne field [] with rfl | hne'
    · rfl
    · rw [ih hfield hne']

/-- Non-empty fields without the delimiter come back as they went in. -/
theorem fields_join {parts : List (List α)} (h : ∀ field ∈ parts, delim ∉ field ∧ field ≠ []) :
    fields delim (join delim parts) = parts := by
  induction parts with
  | nil => rfl
  | cons field rest ih =>
    obtain ⟨hfield, hne⟩ := h field List.mem_cons_self
    have hrest := ih fun f hf => h f (List.mem_cons_of_mem _ hf)
    cases rest with
    | nil => exact fields_eq_singleton hfield hne
    | cons next rest => rw [join, fields_append_delim hfield, hrest]; simp

end Mdencode.Separated
