import Mathlib.Algebra.Order.Group.Nat
import Mathlib.Data.List.Pairwise
import I18nZh.Lib.Storage

/-!
# Aligned layouts

Blocks laid out one after the other, each filled up to a multiple of `k` cells.
The blocks are the data of the elements of a list, and `place` pairs each element
with the position its block begins at.
-/

namespace I18nZh
namespace Layout

open Storage

variable {α β : Type*}

def roundUp (k n : Nat) : Nat := (n + (k - 1)) / k * k

theorem dvd_roundUp (k n : Nat) : k ∣ roundUp k n := ⟨(n + (k - 1)) / k, Nat.mul_comm _ _⟩

theorem roundUp_ge {k : Nat} (hk : 0 < k) (n : Nat) : n ≤ roundUp k n := by
  have h := Nat.div_add_mod' (n + (k - 1)) k
  have hm := Nat.mod_lt (n + (k - 1)) hk
  unfold roundUp
  omega

theorem roundUp_lt {k : Nat} (hk : 0 < k) (n : Nat) : roundUp k n < n + k := by
  have h := Nat.div_mul_le_self (n + (k - 1)) k
  unfold roundUp
  omega

theorem roundUp_add {k s : Nat} (hk : 0 < k) (h : k ∣ s) (n : Nat) :
    roundUp k (s + n) = s + roundUp k n := by
  obtain ⟨q, rfl⟩ := h
  unfold roundUp
  rw [Nat.add_assoc, Nat.mul_add_div hk, Nat.add_mul, Nat.mul_comm q k]

theorem roundUp_of_dvd {k n : Nat} (hk : 0 < k) (h : k ∣ n) : roundUp k n = n := by
  have h0 : roundUp k 0 = 0 := by
    unfold roundUp
    rw [Nat.zero_add, Nat.div_eq_of_lt (by omega), Nat.zero_mul]
  have hadd := roundUp_add hk h 0
  rw [h0] at hadd
  exact hadd

/-- A block and its filling. -/
def padded (z : α) (k : Nat) (d : List α) : List α :=
  d ++ List.replicate (roundUp k d.length - d.length) z

theorem padded_length (z : α) {k : Nat} (hk : 0 < k) (d : List α) :
    (padded z k d).length = roundUp k d.length := by
  have := roundUp_ge hk d.length
  rw [padded, List.length_append, List.length_replicate]
  omega

/-- Of two elements of a list one is in front of the other. -/
theorem pairwise_or {R : α → α → Prop} {xs : List α} (h : xs.Pairwise R) {x y : α}
    (hx : x ∈ xs) (hy : y ∈ xs) (hne : x ≠ y) : R x y ∨ R y x := by
  have hsymm : Std.Symm fun v w => R v w ∨ R w v := by
    constructor
    intro v w hvw
    exact hvw.symm
  have hor : xs.Pairwise fun v w => R v w ∨ R w v := by
    apply h.imp
    intro v w hvw
    exact Or.inl hvw
  exact hor.forall hx hy hne

section Blocks

variable (data : β → List α)

def body (z : α) (k : Nat) (xs : List β) : List α := xs.flatMap fun x => padded z k (data x)

def place (k : Nat) : List β → Nat → List (Nat × β)
  | [], _ => []
  | x :: xs, s => (s, x) :: place k xs (s + roundUp k (data x).length)

theorem place_length (k : Nat) : ∀ (xs : List β) (s : Nat), (place data k xs s).length = xs.length
    := by
  intro xs
  induction xs with
  | nil => intro s; rfl
  | cons x xs ih =>
    intro s
    rw [place, List.length_cons, List.length_cons, ih]

/-- The elements keep their order. -/
theorem place_map_snd (k : Nat) : ∀ (xs : List β) (s : Nat), (place data k xs s).map Prod.snd = xs
    := by
  intro xs
  induction xs with
  | nil => intro s; rfl
  | cons x xs ih =>
    intro s
    rw [place, List.map_cons, ih]

theorem mem_of_mem_place {k : Nat} {xs : List β} {s : Nat} {p : Nat × β}
    (h : p ∈ place data k xs s) : p.2 ∈ xs := by
  have hmem := List.mem_map_of_mem (f := Prod.snd) h
  rw [place_map_snd] at hmem
  exact hmem

theorem le_of_mem_place {k : Nat} : ∀ (xs : List β) (s : Nat), ∀ p ∈ place data k xs s,
    s ≤ p.1 := by
  intro xs
  induction xs with
  | nil =>
    intro s p h
    cases h
  | cons x xs ih =>
    intro s p h
    rcases List.mem_cons.mp h with rfl | h
    · exact Nat.le_refl s
    · exact Nat.le_trans (Nat.le_add_right s _) (ih _ p h)

theorem place_dvd {k : Nat} : ∀ (xs : List β) (s : Nat), k ∣ s → ∀ p ∈ place data k xs s,
    k ∣ p.1 := by
  intro xs
  induction xs with
  | nil =>
    intro s _ p h
    cases h
  | cons x xs ih =>
    intro s hs p h
    rcases List.mem_cons.mp h with rfl | h
    · exact hs
    · exact ih _ (Nat.dvd_add hs (dvd_roundUp k _)) p h

/-- A block, filled up, ends before the next ones begin. -/
theorem place_pairwise (k : Nat) : ∀ (xs : List β) (s : Nat),
    (place data k xs s).Pairwise fun p q => p.1 + roundUp k (data p.2).length ≤ q.1 := by
  intro xs
  induction xs with
  | nil => intro s; exact List.Pairwise.nil
  | cons x xs ih =>
    intro s
    refine List.pairwise_cons.mpr ⟨?_, ih _⟩
    intro q hq
    exact le_of_mem_place data xs _ q hq

theorem body_cons (z : α) (k : Nat) (x : β) (xs : List β) :
    body data z k (x :: xs) = padded z k (data x) ++ body data z k xs := List.flatMap_cons

variable (z : α) {k : Nat} (hk : 0 < k)

include hk

/-- Every block, filled up, is inside the body. -/
theorem place_bounds : ∀ (xs : List β) (s : Nat), ∀ p ∈ place data k xs s,
    p.1 + roundUp k (data p.2).length ≤ s + (body data z k xs).length := by
  intro xs
  induction xs with
  | nil =>
    intro s p h
    cases h
  | cons x xs ih =>
    intro s p h
    rw [body_cons, List.length_append, padded_length z hk]
    rcases List.mem_cons.mp h with rfl | h
    · simp only
      omega
    · have := ih _ p h
      omega

/-- The blocks can be read back. -/
theorem slice_body : ∀ (xs : List β) (a : List α), ∀ p ∈ place data k xs a.length,
    slice (a ++ body data z k xs) p.1 (data p.2).length = data p.2 := by
  intro xs
  induction xs with
  | nil =>
    intro a p h
    cases h
  | cons x xs ih =>
    intro a p h
    rw [body_cons]
    rcases List.mem_cons.mp h with rfl | h
    · simp only
      rw [padded, ← List.append_assoc, ← List.append_assoc, List.append_assoc]
      exact slice_append_block a (data x) _
    · rw [← List.append_assoc]
      apply ih
      rw [List.length_append, padded_length z hk]
      exact h

/-- Behind a block there is filling. -/
theorem getD_body : ∀ (xs : List β) (a : List α), ∀ p ∈ place data k xs a.length, ∀ i,
    p.1 + (data p.2).length ≤ i → i < p.1 + roundUp k (data p.2).length →
    (a ++ body data z k xs).getD i z = z := by
  intro xs
  induction xs with
  | nil =>
    intro a p h
    cases h
  | cons x xs ih =>
    intro a p h i h1 h2
    rw [body_cons]
    rcases List.mem_cons.mp h with rfl | h
    · simp only at h1 h2
      have hlen := padded_length z hk (data x)
      rw [List.getD_append_right _ _ _ _ (by omega), List.getD_append _ _ _ _ (by omega), padded,
        List.getD_append_right _ _ _ _ (by omega), List.getD_replicate _ (by omega)]
    · rw [← List.append_assoc]
      refine ih _ p ?_ i h1 h2
      rw [List.length_append, padded_length z hk]
      exact h

end Blocks

/-! ## Ranges in a row -/

/-- Ranges, given by position and length, that follow one another from `s` to `e`:
each one begins where the one before ends, rounded up. -/
def Follow (k : Nat) : Nat → List (Nat × Nat) → Nat → Prop
  | s, [], e => e = s
  | s, r :: rest, e => r.1 = s ∧ Follow k (roundUp k (s + r.2)) rest e

theorem Follow.dvd {k : Nat} : ∀ {rs : List (Nat × Nat)} {s e : Nat}, Follow k s rs e → k ∣ s →
    ∀ r ∈ rs, k ∣ r.1 := by
  intro rs
  induction rs with
  | nil =>
    intro s e _ _ r hr
    cases hr
  | cons q rest ih =>
    intro s e h hs r hr
    rcases List.mem_cons.mp hr with rfl | hr
    · rw [h.1]
      exact hs
    · exact ih h.2 (dvd_roundUp k _) r hr

theorem Follow.le {k : Nat} (hk : 0 < k) : ∀ {rs : List (Nat × Nat)} {s e : Nat},
    Follow k s rs e → ∀ r ∈ rs, s ≤ r.1 := by
  intro rs
  induction rs with
  | nil =>
    intro s e _ r hr
    cases hr
  | cons q rest ih =>
    intro s e h r hr
    have hge := roundUp_ge hk (s + q.2)
    rcases List.mem_cons.mp hr with rfl | hr
    · exact h.1.ge
    · have := ih h.2 r hr
      omega

/-- They do not overlap. -/
theorem Follow.pairwise {k : Nat} (hk : 0 < k) : ∀ {rs : List (Nat × Nat)} {s e : Nat},
    Follow k s rs e → rs.Pairwise fun r q => r.1 + r.2 ≤ q.1 := by
  intro rs
  induction rs with
  | nil =>
    intro s e _
    exact List.Pairwise.nil
  | cons r rest ih =>
    intro s e h
    refine List.pairwise_cons.mpr ⟨?_, ih h.2⟩
    intro q hq
    have hge := roundUp_ge hk (s + r.2)
    have hle := h.2.le hk q hq
    rw [h.1]
    omega

theorem follow_place (data : β → List α) (z : α) {k : Nat} (hk : 0 < k) : ∀ (xs : List β)
    (s : Nat), k ∣ s →
    Follow k s ((place data k xs s).map fun p => (p.1, (data p.2).length))
      (s + (body data z k xs).length) := by
  intro xs
  induction xs with
  | nil => intro s _; rfl
  | cons x xs ih =>
    intro s hs
    refine ⟨rfl, ?_⟩
    have hnext := ih (s + roundUp k (data x).length) (Nat.dvd_add hs (dvd_roundUp k _))
    rw [body_cons, List.length_append, padded_length z hk, ← Nat.add_assoc]
    simp only
    rw [roundUp_add hk hs]
    exact hnext

end Layout
end I18nZh
