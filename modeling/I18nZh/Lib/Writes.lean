import I18nZh.Lib.Storage

/-!
# Sequences of writes

A store after a list of writes.  A cell that some write covers has a value that
does not depend on the store the writes began with, and a cell that none covers
keeps its value.
-/

namespace I18nZh
namespace Writes

open Storage

variable {α : Type*}

/-- A position and what is written there. -/
abbrev Write (α : Type*) := Nat × List α

def applyWrites (z : α) (c : List α) (ws : List (Write α)) : List α :=
  ws.foldl (fun c w => overwrite z c w.1 w.2) c

def Covers (ws : List (Write α)) (i : Nat) : Prop :=
  ∃ w ∈ ws, w.1 ≤ i ∧ i < w.1 + w.2.length

/-- The end of the furthest write; writing nothing reaches nowhere. -/
def reach : List (Write α) → Nat
  | [] => 0
  | w :: ws => max (if w.2 = [] then 0 else w.1 + w.2.length) (reach ws)

theorem applyWrites_nil (z : α) (c : List α) : applyWrites z c [] = c := rfl

theorem applyWrites_cons (z : α) (c : List α) (w : Write α) (ws : List (Write α)) :
    applyWrites z c (w :: ws) = applyWrites z (overwrite z c w.1 w.2) ws := rfl

theorem applyWrites_append (z : α) (c : List α) (ws vs : List (Write α)) :
    applyWrites z c (ws ++ vs) = applyWrites z (applyWrites z c ws) vs := List.foldl_append

theorem covers_cons {w : Write α} {ws : List (Write α)} {i : Nat} :
    Covers (w :: ws) i ↔ (w.1 ≤ i ∧ i < w.1 + w.2.length) ∨ Covers ws i := by
  unfold Covers
  simp

theorem covers_append {ws vs : List (Write α)} {i : Nat} :
    Covers (ws ++ vs) i ↔ Covers ws i ∨ Covers vs i := by
  unfold Covers
  simp [or_and_right, exists_or]

theorem not_covers_nil (i : Nat) : ¬ Covers ([] : List (Write α)) i := by
  intro h
  obtain ⟨w, hw, _⟩ := h
  cases hw

theorem applyWrites_length (z : α) : ∀ (ws : List (Write α)) (c : List α),
    (applyWrites z c ws).length = max c.length (reach ws) := by
  intro ws
  induction ws with
  | nil => intro c; simp [applyWrites, reach]
  | cons w ws ih =>
    intro c
    rw [applyWrites_cons, ih, overwrite_length, reach]
    split_ifs <;> omega

/-- A cell no write covers is the cell of the initial store. -/
theorem getD_applyWrites_outside (z : α) {i : Nat} : ∀ (ws : List (Write α)) (c : List α),
    ¬ Covers ws i → (applyWrites z c ws).getD i z = c.getD i z := by
  intro ws
  induction ws with
  | nil => intro c _; rfl
  | cons w ws ih =>
    intro c h
    rw [covers_cons, not_or] at h
    rw [applyWrites_cons, ih _ h.2, getD_overwrite, if_neg h.1]

/-- A cell some write covers is the same whatever the initial store. -/
theorem getD_applyWrites_inside (z : α) {i : Nat} : ∀ (ws : List (Write α)) (c d : List α),
    Covers ws i → (applyWrites z c ws).getD i z = (applyWrites z d ws).getD i z := by
  intro ws
  induction ws with
  | nil =>
    intro c d h
    exact absurd h (not_covers_nil i)
  | cons w ws ih =>
    intro c d h
    rw [applyWrites_cons, applyWrites_cons]
    by_cases hw : Covers ws i
    · exact ih _ _ hw
    · rw [covers_cons, or_iff_left hw] at h
      rw [getD_applyWrites_outside z _ _ hw, getD_applyWrites_outside z _ _ hw,
        getD_overwrite, getD_overwrite, if_pos h, if_pos h]

/-- Stores that agree on a cell agree on it after the same writes. -/
theorem getD_applyWrites_congr (z : α) {i : Nat} (ws : List (Write α)) {c d : List α}
    (h : ¬ Covers ws i → c.getD i z = d.getD i z) :
    (applyWrites z c ws).getD i z = (applyWrites z d ws).getD i z := by
  by_cases hw : Covers ws i
  · exact getD_applyWrites_inside z ws c d hw
  · rw [getD_applyWrites_outside z _ _ hw, getD_applyWrites_outside z _ _ hw, h hw]

/-- What no write touches can be read as before. -/
theorem slice_applyWrites_outside (z : α) {q n : Nat} : ∀ (ws : List (Write α)) {c : List α},
    (∀ w ∈ ws, q + n ≤ w.1 ∨ w.1 + w.2.length ≤ q) → q + n ≤ c.length →
    slice (applyWrites z c ws) q n = slice c q n := by
  intro ws
  induction ws with
  | nil => intro c _ _; rfl
  | cons w ws ih =>
    intro c h hc
    have hle : c.length ≤ (overwrite z c w.1 w.2).length := by
      rw [overwrite_length]
      split_ifs <;> omega
    rw [applyWrites_cons, ih (fun v hv => h v (List.mem_cons_of_mem w hv)) (by omega)]
    exact slice_overwrite_outside z (h w List.mem_cons_self) hc

theorem lt_reach_of_covers {ws : List (Write α)} {i : Nat} (h : Covers ws i) : i < reach ws := by
  induction ws with
  | nil => exact absurd h (not_covers_nil i)
  | cons w ws ih =>
    rw [reach]
    rcases covers_cons.mp h with hw | hw
    · have hne : w.2 ≠ [] := by
        intro hnil
        rw [hnil, List.length_nil] at hw
        omega
      rw [if_neg hne]
      omega
    · have := ih hw
      omega

/-- The last cell in reach is covered. -/
theorem covers_of_reach : ∀ {ws : List (Write α)}, 0 < reach ws → Covers ws (reach ws - 1) := by
  intro ws
  induction ws with
  | nil =>
    intro h
    exact absurd h (Nat.lt_irrefl 0)
  | cons w ws ih =>
    intro h
    rw [reach] at h ⊢
    rw [covers_cons]
    by_cases hle : (if w.2 = [] then 0 else w.1 + w.2.length) ≤ reach ws
    · rw [Nat.max_eq_right hle] at h ⊢
      exact Or.inr (ih h)
    · have hne : w.2 ≠ [] := by
        intro hnil
        rw [if_pos hnil] at hle
        omega
      have hpos := List.length_pos_iff.mpr hne
      rw [if_neg hne] at hle
      rw [Nat.max_eq_left (by rw [if_neg hne]; omega), if_neg hne]
      exact Or.inl ⟨by omega, by omega⟩

theorem reach_append (ws vs : List (Write α)) : reach (ws ++ vs) = max (reach ws) (reach vs) := by
  induction ws with
  | nil => rw [List.nil_append, reach, Nat.zero_max]
  | cons w ws ih => rw [List.cons_append, reach, reach, ih, Nat.max_assoc]

theorem reach_le {n : Nat} {ws : List (Write α)} (h : ∀ w ∈ ws, w.1 + w.2.length ≤ n) :
    reach ws ≤ n := by
  induction ws with
  | nil => exact Nat.zero_le n
  | cons w ws ih =>
    have hw := h w List.mem_cons_self
    have hws := ih fun v hv => h v (List.mem_cons_of_mem w hv)
    rw [reach]
    split_ifs <;> omega

theorem le_reach {w : Write α} {ws : List (Write α)} (h : w ∈ ws) (hne : w.2 ≠ []) :
    w.1 + w.2.length ≤ reach ws := by
  have hpos := List.length_pos_iff.mpr hne
  have hlast : Covers ws (w.1 + w.2.length - 1) := ⟨w, h, by omega, by omega⟩
  have := lt_reach_of_covers hlast
  omega

end Writes
end I18nZh
