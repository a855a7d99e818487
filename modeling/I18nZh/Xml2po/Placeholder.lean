import I18nZh.Xml2po.Pieces

/-!
# Filling in the placeholders

The placeholders are filled in one after the other, each by a replacement in the whole
string.  No number is taken for another one, and nothing that was filled in is changed
later, if no piece looks like the start of a placeholder.
-/

namespace I18nZh
namespace Xml2po

open Po (Text text)
open Replace

/-- What every placeholder begins with. -/
def opening : Text := text "<placeholder-"

theorem opening_starts (k : Nat) : opening <+: placeholder k :=
  ⟨Nat.toDigits 10 k ++ text "/>", (List.append_assoc _ _ _).symm⟩

theorem placeholder_ne (k : Nat) : placeholder k ≠ [] := List.cons_ne_nil _ _

theorem takeWhile_digits (k : Nat) (r : Text) :
    (Nat.toDigits 10 k ++ '/' :: r).takeWhile Char.isDigit = Nat.toDigits 10 k := by
  have hdigits : ∀ c ∈ Nat.toDigits 10 k, c.isDigit := fun c hc =>
    Nat.isDigit_of_mem_toDigits (by decide) (by decide) hc
  rw [List.takeWhile_append_of_pos hdigits, List.takeWhile_cons_of_neg (by decide),
    List.append_nil]

/-- No placeholder begins with another one. -/
theorem placeholder_inj {j k : Nat} (h : placeholder j <+: placeholder k) : j = k := by
  unfold placeholder at h
  rw [List.append_assoc, List.append_assoc, List.prefix_append_right_inj] at h
  obtain ⟨r, hr⟩ := h
  have hdigits := congrArg (List.takeWhile Char.isDigit) hr
  have hclose : text "/>" = ['/', '>'] := rfl
  rw [hclose, List.append_assoc, List.cons_append, takeWhile_digits, takeWhile_digits] at hdigits
  rw [← Nat.ofDigitChars_ten_toDigits (n := j), hdigits, Nat.ofDigitChars_ten_toDigits]

theorem apart_placeholder {j k : Nat} (h : j ≠ k) : Apart (placeholder k) (placeholder j) := by
  have hrest : '<' ∉ text "placeholder-" ++ Nat.toDigits 10 j ++ text "/>" := by
    intro hmem
    rcases List.mem_append.mp hmem with hmem | hmem
    · rcases List.mem_append.mp hmem with hmem | hmem
      · revert hmem
        decide
      · have hdigit := Nat.isDigit_of_mem_toDigits (by decide) (by decide) hmem
        revert hdigit
        decide
    · revert hmem
      decide
  have hapart : Apart (placeholder k) (text "placeholder-" ++ Nat.toDigits 10 j ++ text "/>") :=
    apart_of_not_mem hrest
  exact hapart.cons (fun hpre => h (placeholder_inj hpre))
    fun hpre => h (placeholder_inj hpre).symm

/-! ## Some of the placeholders filled in -/

/-- The piece does not look like a placeholder, nor does what it stands for. -/
def Piece.Clean : Piece → Prop
  | .text _ _ serialized => Apart opening serialized
  | .markup s => Apart opening s
  | .hole element => Apart opening element

/-- The pieces with all placeholders filled in. -/
def Piece.full : Piece → Text
  | .text _ _ serialized => serialized
  | .markup s => s
  | .hole element => element

/-- The pieces behind the hole `k`, with the holes up to `i` filled in. -/
def filled (i : Nat) : Nat → List Piece → Text
  | _, [] => []
  | k, .hole element :: pieces =>
    (if k < i then element else placeholder (k + 1)) ++ filled i (k + 1) pieces
  | k, piece :: pieces => piece.full ++ filled i k pieces

theorem filled_zero : ∀ (k : Nat) (pieces : List Piece), filled 0 k pieces = render k pieces := by
  intro k pieces
  induction pieces generalizing k with
  | nil => rfl
  | cons piece pieces ih =>
    cases piece with
    | text parent content serialized => exact congrArg (serialized ++ ·) (ih k)
    | markup s => exact congrArg (s ++ ·) (ih k)
    | hole element => exact congrArg (placeholder (k + 1) ++ ·) (ih (k + 1))

theorem filled_all {i : Nat} : ∀ {k : Nat} {pieces : List Piece}, k + (holes pieces).length ≤ i →
    filled i k pieces = pieces.flatMap Piece.full := by
  intro k pieces
  induction pieces generalizing k with
  | nil =>
    intro _
    rfl
  | cons piece pieces ih =>
    intro h
    cases piece with
    | text parent content serialized => exact congrArg (serialized ++ ·) (ih h)
    | markup s => exact congrArg (s ++ ·) (ih h)
    | hole element =>
      have hlen : (holes (.hole element :: pieces)).length = (holes pieces).length + 1 := rfl
      rw [filled, if_pos (by omega), ih (by omega), List.flatMap_cons]
      rfl

/-- One turn of the loop fills in one hole. -/
theorem replace_filled {i : Nat} {element : Text} : ∀ {k : Nat} {pieces : List Piece},
    (∀ piece ∈ pieces, piece.Clean) →
    (k ≤ i → ∀ e ∈ (holes pieces)[i - k]?, e = element) →
    replace (placeholder (i + 1)) element (filled i k pieces) = filled (i + 1) k pieces := by
  intro k pieces
  induction pieces generalizing k with
  | nil =>
    intro _ _
    rfl
  | cons piece pieces ih =>
    intro hall hhole
    obtain ⟨hpiece, hclean⟩ := List.forall_mem_cons.mp hall
    cases piece with
    | text parent content serialized =>
      have hapart : Apart opening serialized := hpiece
      show replace _ _ (serialized ++ filled i k pieces) = serialized ++ filled (i + 1) k pieces
      rw [replace_append (hapart.of_longer (opening_starts _)), ih hclean hhole]
    | markup s =>
      have hapart : Apart opening s := hpiece
      show replace _ _ (s ++ filled i k pieces) = s ++ filled (i + 1) k pieces
      rw [replace_append (hapart.of_longer (opening_starts _)), ih hclean hhole]
    | hole e =>
      have hapart : Apart opening e := hpiece
      have hrest : replace (placeholder (i + 1)) element (filled i (k + 1) pieces) =
          filled (i + 1) (k + 1) pieces := by
        apply ih hclean
        intro hk e' he'
        apply hhole (by omega)
        have hsub : i - k = i - (k + 1) + 1 := by omega
        rw [hsub]
        exact he'
      rw [filled, filled]
      rcases Nat.lt_trichotomy k i with hlt | rfl | hgt
      · rw [if_pos hlt, if_pos (by omega), replace_append (hapart.of_longer (opening_starts _)),
          hrest]
      · have he : e = element := hhole (Nat.le_refl k) e (by rw [Nat.sub_self]; rfl)
        rw [if_neg (Nat.lt_irrefl k), if_pos (Nat.lt_succ_self k),
          replace_pat (placeholder_ne _), hrest, he]
      · rw [if_neg (by omega), if_neg (by omega), replace_append (apart_placeholder (by omega)),
          hrest]

/-! ## The loop -/

/-- The element a replacement stands for. -/
def Replacement.element (r : Replacement) : Text :=
  Xml2po.element r.starttag.chars r.translation.chars r.endtag.chars

/-- The placeholders filled in one after the other, from the one behind `i` on. -/
def fillTexts : Nat → List Text → Text → Text
  | _, [], s => s
  | i, element :: elements, s =>
    fillTexts (i + 1) elements (replace (placeholder (i + 1)) element s)

theorem fillPlaceholders_texts : ∀ {myrepl : List Replacement} {i : Nat}
    {translation t : PyString}, fillPlaceholders i myrepl translation = .ok t →
    t.chars = fillTexts i (myrepl.map Replacement.element) translation.chars := by
  intro myrepl
  induction myrepl with
  | nil =>
    intro i translation t h
    cases h
    rfl
  | cons r myrepl ih =>
    intro i translation t h
    rw [fillPlaceholders] at h
    obtain ⟨replacement, hr, h⟩ := exists_of_bind h
    rw [ih h, List.map_cons, fillTexts, Replacement.element, ← tagged_chars hr]

/-- The elements of the pieces, filled in where they are missing. -/
theorem fillTexts_filled {pieces : List Piece} (hclean : ∀ piece ∈ pieces, piece.Clean) :
    ∀ {elements : List Text} {i : Nat}, elements = (holes pieces).drop i →
    fillTexts i elements (filled i 0 pieces) = pieces.flatMap Piece.full := by
  intro elements
  induction elements with
  | nil =>
    intro i hholes
    apply filled_all
    have hlen := congrArg List.length hholes
    simp only [List.length_nil, List.length_drop] at hlen
    omega
  | cons element elements ih =>
    intro i hholes
    have hne : i < (holes pieces).length := by
      have hlen := congrArg List.length hholes
      simp only [List.length_cons, List.length_drop] at hlen
      omega
    rw [List.drop_eq_getElem_cons hne, List.cons.injEq] at hholes
    rw [fillTexts, replace_filled hclean, ih hholes.2]
    intro _ e he
    rw [Nat.sub_zero, List.getElem?_eq_getElem hne] at he
    exact (Option.some.inj he).symm.trans hholes.1.symm

theorem fillPlaceholders_chars {pieces : List Piece} (hclean : ∀ piece ∈ pieces, piece.Clean)
    {myrepl : List Replacement} {i : Nat} {translation t : PyString}
    (h : fillPlaceholders i myrepl translation = .ok t)
    (hholes : myrepl.map Replacement.element = (holes pieces).drop i)
    (hchars : translation.chars = filled i 0 pieces) :
    t.chars = pieces.flatMap Piece.full := by
  rw [fillPlaceholders_texts h, hchars, fillTexts_filled hclean hholes]

end Xml2po
end I18nZh
