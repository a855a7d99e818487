import I18nZh.Lib.Replace
import I18nZh.Po.Merge

/-!
# Escaping a string for a PO file

`escapePoString` and `unEscapePoString`, and the string a msgid in a PO file stands
for.
-/

namespace I18nZh
namespace Xml2po

open Po (Text text)
open Replace

def escapePoString (s : Text) : Text :=
  replace (text "\t") (text "\\t") (replace (text "\n") (text "\\n")
    (replace (text "\"") (text "\\\"") (replace (text "\\") (text "\\\\") s)))

def unEscapePoString (s : Text) : Text :=
  replace (text "\\\\") (text "\\") (replace (text "\\\"") (text "\"") s)

/-- The string that stands for one character. -/
def escapeChar (c : Char) : Text :=
  if c = '\\' then ['\\', '\\'] else if c = '"' then ['\\', '"']
  else if c = '\n' then ['\\', 'n'] else if c = '\t' then ['\\', 't'] else [c]

/-- The four replacements do not meet. -/
theorem escapePoString_eq (s : Text) : escapePoString s = s.flatMap escapeChar := by
  have htab : text "\t" = ['\t'] := rfl
  have hline : text "\n" = ['\n'] := rfl
  have hquote : text "\"" = ['"'] := rfl
  have hslash : text "\\" = ['\\'] := rfl
  rw [escapePoString, htab, hline, hquote, hslash, replace_singleton, replace_singleton,
    replace_singleton, replace_singleton, List.flatMap_assoc, List.flatMap_assoc,
    List.flatMap_assoc]
  apply List.flatMap_congr
  intro c _
  unfold escapeChar
  by_cases h₁ : c = '\\'
  · subst h₁; rfl
  by_cases h₂ : c = '"'
  · subst h₂; rfl
  by_cases h₃ : c = '\n'
  · subst h₃; rfl
  by_cases h₄ : c = '\t'
  · subst h₄; rfl
  simp [h₁, h₂, h₃, h₄]

theorem escapePoString_cons (c : Char) (s : Text) :
    escapePoString (c :: s) = escapeChar c ++ escapePoString s := by
  rw [escapePoString_eq, escapePoString_eq, List.flatMap_cons]

theorem escapeChar_of_ne {c : Char} (h₁ : c ≠ '\\') (h₂ : c ≠ '"') (h₃ : c ≠ '\n')
    (h₄ : c ≠ '\t') : escapeChar c = [c] := by
  rw [escapeChar, if_neg h₁, if_neg h₂, if_neg h₃, if_neg h₄]

/-- What is escaped stands on one line. -/
theorem newline_not_mem_escape (s : Text) : '\n' ∉ escapePoString s := by
  rw [escapePoString_eq, List.mem_flatMap]
  rintro ⟨c, _, hc⟩
  unfold escapeChar at hc
  split_ifs at hc with h₁ h₂ h₃ h₄
  · simp at hc
  · simp at hc
  · simp at hc
  · simp at hc
  · exact h₃ (List.mem_singleton.mp hc).symm

/-! ## The string that is meant -/

/-- What an escaped string in a PO file stands for. -/
def unquote : Text → Text
  | [] => []
  | '\\' :: 'n' :: s => '\n' :: unquote s
  | '\\' :: 't' :: s => '\t' :: unquote s
  | '\\' :: c :: s => c :: unquote s
  | c :: s => c :: unquote s

theorem unquote_cons {c : Char} (h : c ≠ '\\') (s : Text) : unquote (c :: s) = c :: unquote s := by
  rw [unquote]
  · rintro _ rfl; exact absurd rfl h
  · rintro _ rfl; exact absurd rfl h
  · rintro _ _ rfl; exact absurd rfl h

theorem unquote_escapeChar (c : Char) (s : Text) :
    unquote (escapeChar c ++ s) = c :: unquote s := by
  by_cases h₁ : c = '\\'
  · subst h₁; rfl
  by_cases h₂ : c = '"'
  · subst h₂; rfl
  by_cases h₃ : c = '\n'
  · subst h₃; rfl
  by_cases h₄ : c = '\t'
  · subst h₄; rfl
  rw [escapeChar_of_ne h₁ h₂ h₃ h₄]
  exact unquote_cons h₁ s

theorem unquote_escape (s : Text) : unquote (escapePoString s) = s := by
  induction s with
  | nil => rfl
  | cons c s ih => rw [escapePoString_cons, unquote_escapeChar, ih]

/-! ## The way back of the script -/

/-- What `unEscapePoString` makes of an escaped character. -/
def unEscapeChar (c : Char) : Text :=
  if c = '\n' then ['\\', 'n'] else if c = '\t' then ['\\', 't'] else [c]

/-- An escaped string does not begin with a quote. -/
theorem head_escape (s : Text) : (escapePoString s).head? ≠ some '"' := by
  cases s with
  | nil => simp [escapePoString_eq]
  | cons c s =>
    rw [escapePoString_cons]
    unfold escapeChar
    split_ifs with h₁ h₂ h₃ h₄ <;> simp_all

theorem pair_prefix_iff {a b c : Char} {s : Text} :
    [a, b] <+: c :: s ↔ a = c ∧ s.head? = some b := by
  rw [List.cons_prefix_cons]
  apply and_congr_right
  intro _
  cases s with
  | nil => simp
  | cons d s => simp [List.cons_prefix_cons, eq_comm]

section Pair

variable {a b c : Char} {rep s : Text}

/-- An occurrence of two characters is passed by. -/
theorem replace_pair_of_ne (h : c ≠ a) : replace [a, b] rep (c :: s) = c :: replace [a, b] rep s :=
  replace_cons fun hpre => h (pair_prefix_iff.mp hpre).1.symm

theorem replace_pair_of_head (h : s.head? ≠ some b) :
    replace [a, b] rep (c :: s) = c :: replace [a, b] rep s :=
  replace_cons fun hpre => h (pair_prefix_iff.mp hpre).2

end Pair

/-- The first replacement takes the quotes. -/
theorem replace_quote (s : Text) : replace ['\\', '"'] ['"'] (escapePoString s) =
    s.flatMap fun c => if c = '"' then ['"'] else escapeChar c := by
  induction s with
  | nil => rfl
  | cons c s ih =>
    rw [escapePoString_cons, List.flatMap_cons, ← ih]
    by_cases h₁ : c = '\\'
    · subst h₁
      have hfirst : ('\\' :: escapePoString s).head? ≠ some '"' := by simp
      exact (replace_pair_of_head hfirst).trans
        (congrArg _ (replace_pair_of_head (head_escape s)))
    by_cases h₂ : c = '"'
    · subst h₂
      exact replace_pat (by simp) _ _
    by_cases h₃ : c = '\n'
    · subst h₃
      have hfirst : ('n' :: escapePoString s).head? ≠ some '"' := by simp
      exact (replace_pair_of_head hfirst).trans (congrArg _ (replace_pair_of_ne (by decide)))
    by_cases h₄ : c = '\t'
    · subst h₄
      have hfirst : ('t' :: escapePoString s).head? ≠ some '"' := by simp
      exact (replace_pair_of_head hfirst).trans (congrArg _ (replace_pair_of_ne (by decide)))
    rw [if_neg h₂, escapeChar_of_ne h₁ h₂ h₃ h₄]
    exact replace_pair_of_ne h₁

/-- The second one takes the backslashes. -/
theorem unEscape_escape (s : Text) :
    unEscapePoString (escapePoString s) = s.flatMap unEscapeChar := by
  show replace ['\\', '\\'] ['\\'] (replace ['\\', '"'] ['"'] (escapePoString s)) = _
  rw [replace_quote]
  induction s with
  | nil => rfl
  | cons c s ih =>
    rw [List.flatMap_cons, List.flatMap_cons, ← ih]
    by_cases h₁ : c = '\\'
    · subst h₁
      exact replace_pat (by simp) _ _
    by_cases h₂ : c = '"'
    · subst h₂
      exact replace_pair_of_ne (by decide)
    by_cases h₃ : c = '\n'
    · subst h₃
      exact (replace_pair_of_head (by simp [escapeChar])).trans
        (congrArg _ (replace_pair_of_ne (by decide)))
    by_cases h₄ : c = '\t'
    · subst h₄
      exact (replace_pair_of_head (by simp [escapeChar])).trans
        (congrArg _ (replace_pair_of_ne (by decide)))
    rw [if_neg h₂, escapeChar_of_ne h₁ h₂ h₃ h₄, unEscapeChar, if_neg h₃, if_neg h₄]
    exact replace_pair_of_ne h₁

/-- What comes back is on one line and without tabs. -/
theorem mem_unEscapeChar {c d : Char} (h : d ∈ unEscapeChar c) : d ≠ '\n' ∧ d ≠ '\t' := by
  unfold unEscapeChar at h
  split_ifs at h with h₁ h₂
  · rcases List.mem_pair.mp h with rfl | rfl <;> simp
  · rcases List.mem_pair.mp h with rfl | rfl <;> simp
  · rw [List.mem_singleton.mp h]
    exact ⟨h₁, h₂⟩

/-- `escapePoString` keeps strings apart and writes them on one line; `unEscapePoString`
gives back exactly those without line feed and tab. -/
theorem unEscape_escape_iff (s : Text) : unquote (escapePoString s) = s ∧
    '\n' ∉ escapePoString s ∧
    (unEscapePoString (escapePoString s) = s ↔ '\n' ∉ s ∧ '\t' ∉ s) := by
  refine ⟨unquote_escape s, newline_not_mem_escape s, ?_⟩
  rw [unEscape_escape]
  constructor
  · intro h
    rw [← h, List.mem_flatMap, List.mem_flatMap]
    constructor
    · rintro ⟨c, _, hc⟩
      exact (mem_unEscapeChar hc).1 rfl
    · rintro ⟨c, _, hc⟩
      exact (mem_unEscapeChar hc).2 rfl
  · intro h
    have hall : ∀ c ∈ s, unEscapeChar c = [c] := by
      intro c hc
      rw [unEscapeChar, if_neg (ne_of_mem_of_not_mem hc h.1), if_neg (ne_of_mem_of_not_mem hc h.2)]
    rw [List.flatMap_congr hall, List.flatMap_singleton']

end Xml2po
end I18nZh
