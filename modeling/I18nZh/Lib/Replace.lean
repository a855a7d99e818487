import Mathlib.Data.List.Infix

/-!
# Replacing a string in a text

Every occurrence of `pat` is replaced, from the left and without overlaps.  A text
is apart from `pat` if no occurrence begins in it, whatever stands behind it.
-/

namespace I18nZh
namespace Replace

variable {α : Type*}

/-! ## Texts in which nothing is replaced -/

/-- No occurrence of `pat` begins in `s`. -/
def Apart (pat s : List α) : Prop :=
  ∀ t ∈ s.tails, t ≠ [] → ¬ t <+: pat ∧ ¬ pat <+: t

instance [DecidableEq α] (pat s : List α) : Decidable (Apart pat s) :=
  inferInstanceAs (Decidable (∀ t ∈ s.tails, t ≠ [] → ¬ t <+: pat ∧ ¬ pat <+: t))

theorem Apart.no_match {pat s t : List α} (h : Apart pat s) (ht : t <:+ s) (hne : t ≠ [])
    (r : List α) : ¬ pat <+: t ++ r := by
  intro hpre
  obtain ⟨hshort, hlong⟩ := h t ((List.mem_tails t s).mpr ht) hne
  rcases List.prefix_or_prefix_of_prefix hpre (List.prefix_append t r) with hp | hp
  · exact hlong hp
  · exact hshort hp

theorem Apart.suffix {pat s t : List α} (h : Apart pat s) (ht : t <:+ s) : Apart pat t := by
  intro u hu
  exact h u ((List.mem_tails u s).mpr (((List.mem_tails u t).mp hu).trans ht))

theorem apart_nil (pat : List α) : Apart pat [] := by
  intro t ht hne
  exact absurd (List.suffix_nil.mp ((List.mem_tails t []).mp ht)) hne

theorem Apart.cons {pat s : List α} {c : α} (h : Apart pat s) (hshort : ¬ c :: s <+: pat)
    (hlong : ¬ pat <+: c :: s) : Apart pat (c :: s) := by
  intro t ht hne
  rw [List.tails_cons] at ht
  rcases List.mem_cons.mp ht with rfl | ht
  · exact ⟨hshort, hlong⟩
  · exact h t ht hne

theorem Apart.append {pat s t : List α} (hs : Apart pat s) (ht : Apart pat t) :
    Apart pat (s ++ t) := by
  intro u hu hne
  obtain ⟨a, ha⟩ := (List.mem_tails u _).mp hu
  rcases List.append_eq_append_iff.mp ha with ⟨b, hb, rfl⟩ | ⟨b, hb, hu'⟩
  · by_cases hnil : b = []
    · rw [hnil, List.nil_append] at hne ⊢
      exact ht t ((List.mem_tails t t).mpr (List.suffix_refl t)) hne
    · have hsuf : b <:+ s := ⟨a, hb.symm⟩
      refine ⟨?_, hs.no_match hsuf hnil t⟩
      intro hpre
      exact (hs b ((List.mem_tails b s).mpr hsuf) hnil).1 ((List.prefix_append b t).trans hpre)
  · exact ht u ((List.mem_tails u t).mpr ⟨b, hu'.symm⟩) hne

/-- Apart from a string is apart from all that begins with it. -/
theorem Apart.of_longer {pat q s : List α} (h : Apart q s) (hq : q <+: pat) : Apart pat s := by
  intro t ht hne
  obtain ⟨hshort, hlong⟩ := h t ht hne
  refine ⟨?_, fun hpre => hlong (hq.trans hpre)⟩
  intro hpre
  rcases List.prefix_or_prefix_of_prefix hpre hq with hp | hp
  · exact hshort hp
  · exact hlong hp

theorem apart_of_not_mem {c : α} {p s : List α} (h : c ∉ s) : Apart (c :: p) s := by
  intro t ht hne
  obtain ⟨d, t, rfl⟩ := List.exists_cons_of_ne_nil hne
  have hd : d ≠ c := by
    rintro rfl
    exact h (((List.mem_tails _ s).mp ht).subset List.mem_cons_self)
  exact ⟨fun hpre => hd (List.cons_prefix_cons.mp hpre).1,
    fun hpre => hd (List.cons_prefix_cons.mp hpre).1.symm⟩

/-! ## Replacing -/

variable [DecidableEq α]

/-- `skip` elements of an occurrence are still to be passed over. -/
def replaceFrom (pat rep : List α) : Nat → List α → List α
  | _, [] => []
  | skip + 1, _ :: s => replaceFrom pat rep skip s
  | 0, c :: s =>
    if pat.isPrefixOf (c :: s) then rep ++ replaceFrom pat rep (pat.length - 1) s
    else c :: replaceFrom pat rep 0 s

def replace (pat rep s : List α) : List α := replaceFrom pat rep 0 s

theorem replaceFrom_drop (pat rep : List α) : ∀ (skip : Nat) (s : List α),
    replaceFrom pat rep skip s = replace pat rep (s.drop skip) := by
  intro skip
  induction skip with
  | zero => intro s; rfl
  | succ skip ih =>
    intro s
    cases s with
    | nil => rfl
    | cons c s => rw [replaceFrom, ih, List.drop_succ_cons]

@[simp] theorem replace_nil (pat rep : List α) : replace pat rep [] = [] := rfl

theorem replace_cons {pat rep s : List α} {c : α} (h : ¬ pat <+: c :: s) :
    replace pat rep (c :: s) = c :: replace pat rep s := by
  rw [← List.isPrefixOf_iff_prefix] at h
  rw [replace, replaceFrom, if_neg h]
  rfl

theorem replace_pat {pat : List α} (hne : pat ≠ []) (rep s : List α) :
    replace pat rep (pat ++ s) = rep ++ replace pat rep s := by
  cases pat with
  | nil => exact absurd rfl hne
  | cons c p =>
    have hpre : (c :: p).isPrefixOf (c :: (p ++ s)) = true :=
      List.isPrefixOf_iff_prefix.mpr (List.prefix_append (c :: p) s)
    rw [List.cons_append, replace, replaceFrom, if_pos hpre, replaceFrom_drop,
      List.length_cons, Nat.add_sub_cancel, List.drop_left]

/-- A single element is replaced one by one. -/
theorem replace_singleton (c : α) (rep s : List α) :
    replace [c] rep s = s.flatMap fun d => if d = c then rep else [d] := by
  induction s with
  | nil => rfl
  | cons d s ih =>
    rw [List.flatMap_cons]
    by_cases h : d = c
    · have hpat := replace_pat (List.cons_ne_nil c []) rep s
      rw [List.singleton_append] at hpat
      rw [if_pos h, h, hpat, ih]
    · have hno : ¬ [c] <+: d :: s := fun hpre => h (List.cons_prefix_cons.mp hpre).1.symm
      rw [if_neg h, replace_cons hno, ih]
      rfl

theorem mem_replaceFrom {pat rep : List α} {d : α} : ∀ {skip : Nat} {s : List α},
    d ∈ replaceFrom pat rep skip s → d ∈ rep ∨ d ∈ s := by
  intro skip s
  induction s generalizing skip with
  | nil =>
    intro h
    cases skip <;> cases h
  | cons c s ih =>
    have hrest : ∀ {skip : Nat}, d ∈ replaceFrom pat rep skip s → d ∈ rep ∨ d ∈ c :: s :=
      fun h => (ih h).imp_right (List.mem_cons_of_mem c)
    intro h
    cases skip with
    | succ skip => exact hrest h
    | zero =>
      rw [replaceFrom] at h
      split_ifs at h
      · rcases List.mem_append.mp h with h | h
        · exact Or.inl h
        · exact hrest h
      · rcases List.mem_cons.mp h with rfl | h
        · exact Or.inr List.mem_cons_self
        · exact hrest h

/-- What is in the text then was in it before, or is in what was put in. -/
theorem mem_replace {pat rep s : List α} {d : α} (h : d ∈ replace pat rep s) :
    d ∈ rep ∨ d ∈ s := mem_replaceFrom h

theorem replace_append {pat s : List α} (h : Apart pat s) (rep t : List α) :
    replace pat rep (s ++ t) = s ++ replace pat rep t := by
  induction s with
  | nil => rfl
  | cons c s ih =>
    have hno := h.no_match (List.suffix_refl (c :: s)) (List.cons_ne_nil c s) t
    rw [List.cons_append] at hno ⊢
    rw [replace_cons hno, ih (h.suffix (List.suffix_cons c s)), List.cons_append]

end Replace
end I18nZh
