import Mathlib.Data.List.Basic

/-!
# Lines

A text cut behind each separator.  All lines but the last one end with the
separator, and no line has it inside.
-/

namespace I18nZh
namespace Lines

variable {α : Type*}

/-- What the lines of a text look like: the last one may be without a separator. -/
inductive Cut (sep : α) : List (List α) → Prop
  | nil : Cut sep []
  | rest {l : List α} (hne : l ≠ []) (h : sep ∉ l) : Cut sep [l]
  | line {l : List α} {ls : List (List α)} (h : sep ∉ l) (hls : Cut sep ls) :
      Cut sep ((l ++ [sep]) :: ls)

/-- Every line ends with a separator. -/
def Closed (sep : α) (ls : List (List α)) : Prop := ∀ l ∈ ls, ∃ m, sep ∉ m ∧ l = m ++ [sep]

theorem Closed.of_append {sep : α} {as bs : List (List α)} (h : Closed sep (as ++ bs)) :
    Closed sep as ∧ Closed sep bs := by
  constructor
  · intro l hl
    exact h l (List.mem_append_left bs hl)
  · intro l hl
    exact h l (List.mem_append_right as hl)

theorem Cut.of_append {sep : α} : ∀ {as bs : List (List α)}, Cut sep (as ++ bs) → Cut sep bs := by
  intro as
  induction as with
  | nil => intro bs h; exact h
  | cons a as ih =>
    intro bs h
    rw [List.cons_append] at h
    generalize hls : as ++ bs = ls at h
    cases h with
    | rest _ _ =>
      rw [(List.append_eq_nil_iff.mp hls).2]
      exact Cut.nil
    | line _ hrest =>
      rw [← hls] at hrest
      exact ih hrest

/-- Only the last line can be without a separator. -/
theorem Cut.closed_of_append {sep : α} : ∀ {as bs : List (List α)}, Cut sep (as ++ bs) →
    bs ≠ [] → Closed sep as := by
  intro as
  induction as with
  | nil =>
    intro bs _ _ l hl
    cases hl
  | cons a as ih =>
    intro bs h hne
    rw [List.cons_append] at h
    generalize hls : as ++ bs = ls at h
    cases h with
    | rest _ _ => exact absurd (List.append_eq_nil_iff.mp hls).2 hne
    | @line m _ hm hrest =>
      rw [← hls] at hrest
      intro l hl
      rcases List.mem_cons.mp hl with rfl | hl
      · exact ⟨m, hm, rfl⟩
      · exact ih hrest hne l hl

theorem Cut.append_left {sep : α} : ∀ {as bs : List (List α)}, Cut sep (as ++ bs) →
    Cut sep as := by
  intro as
  induction as with
  | nil =>
    intro bs _
    exact Cut.nil
  | cons a as ih =>
    intro bs h
    rw [List.cons_append] at h
    generalize hls : as ++ bs = ls at h
    cases h with
    | rest hne h =>
      rw [(List.append_eq_nil_iff.mp hls).1]
      exact Cut.rest hne h
    | line h hrest =>
      rw [← hls] at hrest
      exact Cut.line h (ih hrest)

theorem Cut.sep_not_mem {sep : α} {ls : List (List α)} (h : Cut sep ls) :
    ∀ l ∈ ls, sep ∉ l.dropLast := by
  induction h with
  | nil =>
    intro l hl
    cases hl
  | rest _ h =>
    intro l hl hmem
    rw [List.mem_singleton.mp hl] at hmem
    exact h (List.dropLast_subset _ hmem)
  | line h _ ih =>
    intro l hl
    rcases List.mem_cons.mp hl with rfl | hl
    · rw [List.dropLast_concat]
      exact h
    · exact ih l hl

section

variable [DecidableEq α] (sep : α)

/-- The lines of a text with their separators. -/
def keepLines : List α → List (List α)
  | [] => []
  | x :: xs =>
    if x = sep then [x] :: keepLines xs
    else
      match keepLines xs with
      | [] => [[x]]
      | l :: ls => (x :: l) :: ls

theorem keepLines_cut (t : List α) : Cut sep (keepLines sep t) := by
  induction t with
  | nil => exact Cut.nil
  | cons x xs ih =>
    rw [keepLines]
    by_cases hx : x = sep
    · rw [if_pos hx, hx]
      exact Cut.line List.not_mem_nil ih
    · rw [if_neg hx]
      generalize keepLines sep xs = ls at ih
      cases ih with
      | nil => exact Cut.rest (List.cons_ne_nil x []) (by simpa using Ne.symm hx)
      | rest hne h => exact Cut.rest (List.cons_ne_nil _ _) (by simpa [Ne.symm hx] using h)
      | @line l ls h hls =>
        have hline : sep ∉ x :: l := by simpa [Ne.symm hx] using h
        exact Cut.line hline hls

/-- A line in front is the first one. -/
theorem keepLines_line {l : List α} (h : sep ∉ l) (t : List α) :
    keepLines sep (l ++ sep :: t) = (l ++ [sep]) :: keepLines sep t := by
  induction l with
  | nil => rw [List.nil_append, keepLines, if_pos rfl, List.nil_append]
  | cons x xs ih =>
    rw [List.mem_cons, not_or] at h
    rw [List.cons_append, keepLines, if_neg (Ne.symm h.1), ih h.2]
    rfl

/-- Closed lines in front are the first ones. -/
theorem keepLines_flatMap (ls : List (List α)) (h : ∀ l ∈ ls, sep ∉ l) (t : List α) :
    keepLines sep (ls.flatMap (· ++ [sep]) ++ t) = ls.map (· ++ [sep]) ++ keepLines sep t := by
  induction ls with
  | nil => rfl
  | cons l ls ih =>
    have hrest := ih fun m hm => h m (List.mem_cons_of_mem l hm)
    rw [List.flatMap_cons, List.append_assoc, List.append_assoc, List.singleton_append,
      keepLines_line sep (h l List.mem_cons_self), hrest, List.map_cons, List.cons_append]

/-- What is cut is the text of its lines. -/
theorem Cut.keepLines_flatten {ls : List (List α)} (h : Cut sep ls) :
    keepLines sep ls.flatten = ls := by
  have hrest : ∀ {l : List α}, l ≠ [] → sep ∉ l → keepLines sep l = [l] := by
    intro l
    induction l with
    | nil =>
      intro hne _
      exact absurd rfl hne
    | cons x xs ih =>
      intro _ hmem
      rw [List.mem_cons, not_or] at hmem
      rw [keepLines, if_neg (Ne.symm hmem.1)]
      cases xs with
      | nil => rfl
      | cons y ys => rw [ih (List.cons_ne_nil y ys) hmem.2]
  induction h with
  | nil => rfl
  | rest hne h =>
    rw [List.flatten_cons, List.flatten_nil, List.append_nil]
    exact hrest hne h
  | line h _ ih =>
    rw [List.flatten_cons, List.append_assoc, List.singleton_append, keepLines_line sep h, ih]

theorem keepLines_concat (t : List α) : ∃ l ls,
    keepLines sep (t ++ [sep]) = (l ++ [sep]) :: ls ∧ sep ∉ l ∧ Closed sep ls := by
  induction t with
  | nil =>
    refine ⟨[], [], ?_, List.not_mem_nil, ?_⟩
    · rw [List.nil_append, keepLines, if_pos rfl, keepLines]
    · intro l hl
      cases hl
  | cons x xs ih =>
    obtain ⟨l, ls, heq, hl, hclosed⟩ := ih
    rw [List.cons_append, keepLines, heq]
    by_cases hx : x = sep
    · refine ⟨[], (l ++ [sep]) :: ls, by rw [if_pos hx, hx, List.nil_append], List.not_mem_nil, ?_⟩
      intro m hm
      rcases List.mem_cons.mp hm with rfl | hm
      · exact ⟨l, hl, rfl⟩
      · exact hclosed m hm
    · exact ⟨x :: l, ls, by rw [if_neg hx]; rfl, by simp [Ne.symm hx, hl], hclosed⟩

/-- A text that ends with a separator has closed lines. -/
theorem keepLines_closed (t : List α) : Closed sep (keepLines sep (t ++ [sep])) := by
  obtain ⟨l, ls, heq, hl, hclosed⟩ := keepLines_concat sep t
  rw [heq]
  intro m hm
  rcases List.mem_cons.mp hm with rfl | hm
  · exact ⟨l, hl, rfl⟩
  · exact hclosed m hm

end

end Lines
end I18nZh
