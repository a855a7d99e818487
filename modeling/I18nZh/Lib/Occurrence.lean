import Mathlib.Data.List.Infix
import Mathlib.Algebra.GroupWithZero.Nat
import Mathlib.Algebra.Order.Group.Nat
import Mathlib.Algebra.Order.BigOperators.Group.List
import I18nZh.Lib.Storage

/-!
# Occurrences and string pools

Where a string occurs in a text, and the pool that results when strings are
added one after the other and a string that already occurs is not added again.
`store` is the part of a string that is added, or `none` where it cannot be.
-/

namespace I18nZh
namespace Occurrence

open Storage

variable {α : Type*}

/-- `s` stands in `text` from `p` on. -/
def Occurs (s text : List α) (p : Nat) : Prop :=
  p + s.length ≤ text.length ∧ slice text p s.length = s

theorem Occurs.append {s text : List α} {p : Nat} (h : Occurs s text p) (more : List α) :
    Occurs s (text ++ more) p := by
  constructor
  · have := h.1
    simp only [List.length_append]
    omega
  · rw [slice_append_left h.1]
    exact h.2

theorem occurs_at_end (text s : List α) : Occurs s (text ++ s) text.length := by
  constructor
  · simp
  · have h := slice_append_block text s []
    rwa [List.append_nil] at h

theorem infix_of_occurs {s text : List α} {p : Nat} (h : Occurs s text p) : s <:+: text := by
  rw [← h.2]
  exact (List.take_prefix _ _).isInfix.trans (List.drop_suffix _ _).isInfix

theorem infix_iff_occurs {s text : List α} : s <:+: text ↔ ∃ p, Occurs s text p := by
  constructor
  · intro h
    obtain ⟨a, b, rfl⟩ := h
    exact ⟨a.length, (occurs_at_end a s).append b⟩
  · intro h
    obtain ⟨p, hp⟩ := h
    exact infix_of_occurs hp

/-- Occurrences in a part of a text. -/
theorem occurs_slice_iff {s text : List α} {o n p : Nat} (h : o + n ≤ text.length) :
    Occurs s (slice text o n) p ↔ p + s.length ≤ n ∧ slice text (o + p) s.length = s := by
  rw [Occurs, slice_length_of_le h]
  have hcut (hp : p + s.length ≤ n) :
      slice (slice text o n) p s.length = slice text (o + p) s.length := by
    rw [slice, slice, slice, List.drop_take, List.take_take, List.drop_drop,
      Nat.min_eq_left (by omega)]
  constructor
  · intro hp
    exact ⟨hp.1, by rw [← hcut hp.1]; exact hp.2⟩
  · intro hp
    exact ⟨hp.1, by rw [hcut hp.1]; exact hp.2⟩

/-! ## Pools -/

section Pool

variable [DecidableEq α] (store : List α → Option (List α)) (room : Nat)

def addString (pool s : List α) : Option (List α) :=
  if s <:+: pool then some pool
  else match store s with
    | none => none
    | some d => if pool.length + d.length ≤ room then some (pool ++ d) else none

def packStrings : List α → List (List α) → Option (List α)
  | pool, [] => some pool
  | pool, s :: rest =>
    match addString store room pool s with
    | none => none
    | some pool => packStrings pool rest

variable {store room}

/-- What one addition does: nothing, or it appends the stored part. -/
theorem addString_cases {pool s out : List α} (h : addString store room pool s = some out) :
    (s <:+: pool ∧ out = pool) ∨
    (¬ s <:+: pool ∧ ∃ d, store s = some d ∧ pool.length + d.length ≤ room ∧ out = pool ++ d) := by
  rw [addString] at h
  by_cases hs : s <:+: pool
  · rw [if_pos hs, Option.some.injEq] at h
    exact Or.inl ⟨hs, h.symm⟩
  · rw [if_neg hs] at h
    cases hd : store s with
    | none => simp [hd] at h
    | some d =>
      by_cases hroom : pool.length + d.length ≤ room
      · simp only [hd, if_pos hroom, Option.some.injEq] at h
        exact Or.inr ⟨hs, d, rfl, hroom, h.symm⟩
      · simp [hd, if_neg hroom] at h

theorem addString_prefix {pool s out : List α} (h : addString store room pool s = some out) :
    pool <+: out := by
  rcases addString_cases h with ⟨_, rfl⟩ | ⟨_, d, _, _, rfl⟩
  · exact List.prefix_refl _
  · exact List.prefix_append _ _

/-- The strings that are added, when each is stored as it is. -/
def added : List α → List (List α) → List (List α)
  | _, [] => []
  | pool, s :: rest =>
    if s <:+: pool then added pool rest else s :: added (pool ++ s) rest

theorem added_of_occurs {pool s : List α} (h : s <:+: pool) (rest : List (List α)) :
    added pool (s :: rest) = added pool rest := if_pos h

theorem added_of_not_occurs {pool s : List α} (h : ¬ s <:+: pool) (rest : List (List α)) :
    added pool (s :: rest) = s :: added (pool ++ s) rest := if_neg h

/-- The pool is the concatenation of what is added. -/
theorem packStrings_eq_added {strings : List (List α)} : ∀ {pool out : List α},
    (∀ s ∈ strings, store s = some s) → packStrings store room pool strings = some out →
    out = pool ++ (added pool strings).flatten := by
  induction strings with
  | nil =>
    intro pool out _ h
    rw [packStrings, Option.some.injEq] at h
    rw [← h]
    exact (List.append_nil pool).symm
  | cons s rest ih =>
    intro pool out hstore h
    have hrest : ∀ t ∈ rest, store t = some t := fun t ht => hstore t (List.mem_cons_of_mem s ht)
    rw [packStrings] at h
    cases ha : addString store room pool s with
    | none => simp [ha] at h
    | some mid =>
      simp only [ha] at h
      have hout := ih hrest h
      rcases addString_cases ha with ⟨hin, rfl⟩ | ⟨hno, d, hd, _, rfl⟩
      · rwa [added_of_occurs hin]
      · rw [hstore s List.mem_cons_self, Option.some.injEq] at hd
        subst hd
        rw [added_of_not_occurs hno, List.flatten_cons, ← List.append_assoc]
        exact hout

/-- Strings that are stored as they are can be packed if what is added fits. -/
theorem packStrings_isSome {strings : List (List α)} : ∀ {pool : List α},
    (∀ s ∈ strings, store s = some s) →
    pool.length + (added pool strings).flatten.length ≤ room →
    ∃ out, packStrings store room pool strings = some out := by
  induction strings with
  | nil => exact fun _ _ => ⟨_, rfl⟩
  | cons s rest ih =>
    intro pool hstore hfit
    have hs : store s = some s := hstore s List.mem_cons_self
    have hrest : ∀ t ∈ rest, store t = some t := fun t ht => hstore t (List.mem_cons_of_mem s ht)
    rw [packStrings, addString]
    by_cases hin : s <:+: pool
    · rw [added_of_occurs hin] at hfit
      rw [if_pos hin]
      exact ih hrest hfit
    · rw [added_of_not_occurs hin, List.flatten_cons, List.length_append] at hfit
      rw [if_neg hin, hs]
      simp only
      rw [if_pos (by omega)]
      refine ih hrest ?_
      rw [List.length_append]
      omega

theorem added_sublist (strings : List (List α)) : ∀ pool : List α,
    (added pool strings).Sublist strings := by
  induction strings with
  | nil => exact fun _ => List.Sublist.slnil
  | cons s rest ih =>
    intro pool
    by_cases hin : s <:+: pool
    · rw [added_of_occurs hin]
      exact (ih pool).cons s
    · rw [added_of_not_occurs hin]
      exact (ih (pool ++ s)).cons_cons s

/-- What is added is at most as long as the strings together. -/
theorem added_length_le (pool : List α) (strings : List (List α)) :
    (added pool strings).flatten.length ≤ (strings.map List.length).sum := by
  rw [List.length_flatten]
  exact ((added_sublist strings pool).map List.length).sum_le_sum fun n _ => Nat.zero_le n

theorem not_occurs_of_mem_added {s : List α} {strings : List (List α)} : ∀ {pool : List α},
    s ∈ added pool strings → ¬ s <:+: pool := by
  induction strings with
  | nil =>
    intro pool h
    cases h
  | cons t rest ih =>
    intro pool h
    by_cases hin : t <:+: pool
    · rw [added_of_occurs hin] at h
      exact ih h
    · rw [added_of_not_occurs hin] at h
      rcases List.mem_cons.mp h with rfl | h
      · exact hin
      · exact fun hs => ih h (hs.trans (List.prefix_append pool t).isInfix)

/-! ## Longest first -/

section Sorted

variable {strings : List (List α)}

/-- Longest first, nothing is added that a longer string of the list contains. -/
theorem length_le_of_mem_added : ∀ {pool : List α},
    (strings.Pairwise fun a b => b.length ≤ a.length) →
    ∀ s ∈ added pool strings, ∀ t ∈ strings, s <:+: t → t.length ≤ s.length := by
  induction strings with
  | nil =>
    intro pool _ s hs
    cases hs
  | cons x rest ih =>
    intro pool hsort s hs t ht hst
    rw [List.pairwise_cons] at hsort
    by_cases hin : x <:+: pool
    · rw [added_of_occurs hin] at hs
      rcases List.mem_cons.mp ht with rfl | ht
      · exact absurd (hst.trans hin) (not_occurs_of_mem_added hs)
      · exact ih hsort.2 s hs t ht hst
    · rw [added_of_not_occurs hin] at hs
      rcases List.mem_cons.mp hs with rfl | hs
      · rcases List.mem_cons.mp ht with rfl | ht
        · exact Nat.le_refl _
        · exact hsort.1 t ht
      · rcases List.mem_cons.mp ht with rfl | ht
        · exact absurd (hst.trans (List.suffix_append pool t).isInfix)
            (not_occurs_of_mem_added hs)
        · exact ih hsort.2 s hs t ht hst

/-- Longest first, no string that is added contains another one. -/
theorem added_pairwise : ∀ {pool : List α},
    (strings.Pairwise fun a b => b.length ≤ a.length) →
    (added pool strings).Pairwise fun a b => ¬ a <:+: b ∧ ¬ b <:+: a := by
  induction strings with
  | nil => exact fun _ => List.Pairwise.nil
  | cons x rest ih =>
    intro pool hsort
    rw [List.pairwise_cons] at hsort
    by_cases hin : x <:+: pool
    · rw [added_of_occurs hin]
      exact ih hsort.2
    · rw [added_of_not_occurs hin, List.pairwise_cons]
      refine ⟨fun s hs => ?_, ih hsort.2⟩
      have hsx : ¬ s <:+: x := fun h =>
        not_occurs_of_mem_added hs (h.trans (List.suffix_append pool x).isInfix)
      refine ⟨fun hxs => hsx ?_, hsx⟩
      have hle := hsort.1 s ((added_sublist rest _).subset hs)
      rw [hxs.eq_of_length_le hle]

end Sorted

end Pool

end Occurrence
end I18nZh
