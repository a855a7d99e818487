import Mathlib.Data.List.GetD
import Mathlib.Data.List.TakeDrop
import Mathlib.Tactic.SplitIfs

/-!
# Byte stores

A store is a list of cells addressed from zero.  A write past the end extends
the store and fills the gap with a fixed cell `z`, and a cell past the end reads
as `z`.  `overwrite` and `slice` are the two accesses, and the lemmas say which
cells a write changes, how long the store is afterwards, and how consecutive
writes combine.
-/

namespace I18nZh
namespace Storage

variable {α : Type*}

/-- The `n` cells from `p` on, or those of them that exist. -/
def slice (c : List α) (p n : Nat) : List α := (c.drop p).take n

/-- Write `d` at `p`.  Writing nothing leaves the store as it is, even past its
end. -/
def overwrite (z : α) (c : List α) (p : Nat) (d : List α) : List α :=
  if d = [] then c
  else (c ++ List.replicate (p - c.length) z).take p ++ d ++ c.drop (p + d.length)

/-! ## Slices -/

theorem slice_length (c : List α) (p n : Nat) :
    (slice c p n).length = min n (c.length - p) := by
  simp [slice]

theorem slice_length_of_le {c : List α} {p n : Nat} (h : p + n ≤ c.length) :
    (slice c p n).length = n := by
  rw [slice_length]
  omega

theorem slice_zero (c : List α) (p : Nat) : slice c p 0 = [] := by
  simp [slice]

theorem slice_eq_nil_iff {c : List α} {p n : Nat} :
    slice c p n = [] ↔ n = 0 ∨ c.length ≤ p := by
  rw [← List.length_eq_zero_iff, slice_length]
  omega

theorem slice_eq_nil_of_le {c : List α} {p n : Nat} (h : c.length ≤ p) : slice c p n = [] :=
  slice_eq_nil_iff.mpr (Or.inr h)

/-- A slice is read in two steps. -/
theorem slice_add (c : List α) (p m n : Nat) :
    slice c p (m + n) = slice c p m ++ slice c (p + m) n := by
  simp only [slice, ← List.drop_drop]
  exact List.take_add

theorem slice_append_left {a b : List α} {p n : Nat} (h : p + n ≤ a.length) :
    slice (a ++ b) p n = slice a p n := by
  rw [slice, slice, List.drop_append_of_le_length (by omega),
    List.take_append_of_le_length (by simp; omega)]

theorem slice_append_right (a b : List α) (k n : Nat) :
    slice (a ++ b) (a.length + k) n = slice b k n := by
  rw [slice, slice, List.drop_append, List.drop_eq_nil_of_le (by omega)]
  simp

/-- The block that follows a prefix. -/
theorem slice_append_block (a b c : List α) :
    slice (a ++ b ++ c) a.length b.length = b := by
  rw [List.append_assoc]
  have h := slice_append_right a (b ++ c) 0 b.length
  rw [Nat.add_zero] at h
  rw [h, slice, List.drop_zero, List.take_left]

theorem slice_all {c : List α} {n : Nat} (h : c.length ≤ n) : slice c 0 n = c := by
  rw [slice, List.drop_zero, List.take_of_length_le h]

theorem slice_getD (z : α) (c : List α) (p n i : Nat) (h : i < n) :
    (slice c p n).getD i z = c.getD (p + i) z := by
  simp [slice, List.getD_eq_getElem?_getD, h]

/-- Slices are equal as soon as they have the same cells. -/
theorem ext_getD (z : α) {a b : List α} (hl : a.length = b.length)
    (h : ∀ i, i < a.length → a.getD i z = b.getD i z) : a = b := by
  refine List.ext_getElem hl fun i hi hj => ?_
  have := h i hi
  rwa [List.getD_eq_getElem _ _ hi, List.getD_eq_getElem _ _ hj] at this

theorem slice_eq_map (z : α) {c : List α} {p n : Nat} (h : p + n ≤ c.length) :
    slice c p n = (List.range n).map fun i => c.getD (p + i) z := by
  refine ext_getD z ?_ fun i hi => ?_
  · rw [slice_length_of_le h, List.length_map, List.length_range]
  · rw [slice_length_of_le h] at hi
    have hrange : i < ((List.range n).map fun i => c.getD (p + i) z).length := by
      rw [List.length_map, List.length_range]
      exact hi
    rw [slice_getD z c p n i hi, List.getD_eq_getElem _ _ hrange, List.getElem_map,
      List.getElem_range]

theorem slice_slice {c : List α} {p q n m : Nat} (h : q + m ≤ n) :
    slice (slice c p n) q m = slice c (p + q) m := by
  unfold slice
  rw [List.drop_take, List.take_take, List.drop_drop, Nat.min_eq_left (by omega)]

theorem take_slice_drop (c : List α) (p n : Nat) :
    c.take p ++ slice c p n ++ c.drop (p + n) = c := by
  unfold slice
  rw [List.append_assoc, ← List.drop_drop, List.take_append_drop, List.take_append_drop]

/-! ## Writes -/

@[simp] theorem overwrite_nil (z : α) (c : List α) (p : Nat) : overwrite z c p [] = c := by
  simp [overwrite]

theorem overwrite_of_ne_nil (z : α) (c : List α) (p : Nat) {d : List α} (h : d ≠ []) :
    overwrite z c p d =
      (c ++ List.replicate (p - c.length) z).take p ++ d ++ c.drop (p + d.length) :=
  if_neg h

theorem overwrite_length (z : α) (c : List α) (p : Nat) (d : List α) :
    (overwrite z c p d).length = if d = [] then c.length else max c.length (p + d.length) := by
  by_cases h : d = []
  · simp [h]
  · rw [if_neg h, overwrite_of_ne_nil z c p h]
    simp only [List.length_append, List.length_take, List.length_replicate, List.length_drop]
    omega

theorem overwrite_length_of_le (z : α) {c : List α} {p : Nat} {d : List α}
    (h : p + d.length ≤ c.length) : (overwrite z c p d).length = c.length := by
  rw [overwrite_length]
  split_ifs <;> omega

/-- A write changes the cells of its range and no others. -/
theorem getD_overwrite (z : α) (c : List α) (p : Nat) (d : List α) (i : Nat) :
    (overwrite z c p d).getD i z =
      if p ≤ i ∧ i < p + d.length then d.getD (i - p) z else c.getD i z := by
  by_cases hd : d = []
  · subst hd
    rw [overwrite_nil, if_neg (by simp)]
  rw [overwrite_of_ne_nil z c p hd]
  have hlen : ((c ++ List.replicate (p - c.length) z).take p).length = p := by
    simp only [List.length_take, List.length_append, List.length_replicate]
    omega
  by_cases hlt : i < p
  · rw [if_neg (by omega), List.append_assoc, List.getD_append _ _ _ _ (by omega)]
    simp only [List.getD_eq_getElem?_getD, List.getElem?_take, hlt, if_true]
    by_cases hc : i < c.length
    · rw [List.getElem?_append_left hc]
    · rw [List.getElem?_append_right (by omega), List.getElem?_eq_none (l := c) (by omega),
        List.getElem?_replicate]
      split_ifs <;> rfl
  · by_cases hin : i < p + d.length
    · rw [if_pos (by omega), List.getD_append _ _ _ _ (by simp only [List.length_append]; omega),
        List.getD_append_right _ _ _ _ (by omega), hlen]
    · rw [if_neg (by omega),
        List.getD_append_right _ _ _ _ (by simp only [List.length_append]; omega)]
      simp only [List.length_append, hlen, List.getD_eq_getElem?_getD, List.getElem?_drop]
      rw [show p + d.length + (i - (p + d.length)) = i by omega]

theorem getD_overwrite_inside (z : α) (c : List α) (p : Nat) (d : List α) {i : Nat}
    (h : p ≤ i ∧ i < p + d.length) : (overwrite z c p d).getD i z = d.getD (i - p) z := by
  rw [getD_overwrite, if_pos h]

theorem getD_overwrite_outside (z : α) (c : List α) (p : Nat) (d : List α) {i : Nat}
    (h : i < p ∨ p + d.length ≤ i) : (overwrite z c p d).getD i z = c.getD i z := by
  rw [getD_overwrite, if_neg (by omega)]

/-- Stores that agree on a cell agree on it after the same write. -/
theorem getD_overwrite_congr (z : α) {b c : List α} {p i : Nat} {d : List α}
    (h : ¬ (p ≤ i ∧ i < p + d.length) → b.getD i z = c.getD i z) :
    (overwrite z b p d).getD i z = (overwrite z c p d).getD i z := by
  rw [getD_overwrite, getD_overwrite]
  by_cases hin : p ≤ i ∧ i < p + d.length
  · rw [if_pos hin, if_pos hin]
  · rw [if_neg hin, if_neg hin, h hin]

/-- Writing a block in two parts, one after the other. -/
theorem overwrite_append (z : α) (c : List α) (p : Nat) (d e : List α) :
    overwrite z (overwrite z c p d) (p + d.length) e = overwrite z c p (d ++ e) := by
  refine ext_getD z ?_ fun i _ => ?_
  · rw [overwrite_length, overwrite_length, overwrite_length]
    rcases d with _ | ⟨x, d⟩ <;> rcases e with _ | ⟨y, e⟩ <;> simp
    omega
  · simp only [getD_overwrite, List.length_append]
    by_cases h1 : p ≤ i ∧ i < p + d.length
    · rw [if_neg (by omega), if_pos h1, if_pos (by omega), List.getD_append _ _ _ _ (by omega)]
    · by_cases h2 : p + d.length ≤ i ∧ i < p + d.length + e.length
      · rw [if_pos h2, if_pos (by omega), List.getD_append_right _ _ _ _ (by omega)]
        congr 1
        omega
      · rw [if_neg h2, if_neg h1, if_neg (by omega)]

/-- Storing one cell is a write. -/
theorem set_eq_overwrite (z : α) {c : List α} {p : Nat} (x : α) (h : p < c.length) :
    c.set p x = overwrite z c p [x] := by
  rw [overwrite_of_ne_nil z c p (List.cons_ne_nil x []), Nat.sub_eq_zero_of_le (by omega),
    List.replicate_zero, List.append_nil, List.set_eq_take_append_cons_drop, if_pos h,
    List.append_assoc]
  rfl

/-- A write that starts where a prefix ends leaves the prefix alone. -/
theorem overwrite_append_right (z : α) (a b : List α) (k : Nat) (d : List α) :
    overwrite z (a ++ b) (a.length + k) d = a ++ overwrite z b k d := by
  refine ext_getD z ?_ fun i _ => ?_
  · rw [overwrite_length, List.length_append, List.length_append, overwrite_length]
    split_ifs <;> omega
  · rw [getD_overwrite]
    by_cases hi : i < a.length
    · rw [if_neg (by omega), List.getD_append _ _ _ _ hi, List.getD_append _ _ _ _ hi]
    · rw [List.getD_append_right a b _ _ (by omega), List.getD_append_right a _ _ _ (by omega),
        getD_overwrite]
      by_cases h : a.length + k ≤ i ∧ i < a.length + k + d.length
      · rw [if_pos h, if_pos (by omega)]
        congr 1
        omega
      · rw [if_neg h, if_neg (by omega)]

theorem overwrite_zero (z : α) (b d : List α) :
    overwrite z b 0 d = d ++ b.drop d.length := by
  by_cases h : d = []
  · simp [h]
  · simp [overwrite_of_ne_nil z b 0 h]

/-- A write at the end of a prefix. -/
theorem overwrite_at_length (z : α) (a b d : List α) :
    overwrite z (a ++ b) a.length d = a ++ d ++ b.drop d.length := by
  have h := overwrite_append_right z a b 0 d
  rw [Nat.add_zero] at h
  rw [h, overwrite_zero, List.append_assoc]

/-- A write inside a prefix leaves the rest alone. -/
theorem overwrite_append_left (z : α) {a : List α} (b : List α) {p : Nat} {d : List α}
    (h : p + d.length ≤ a.length) : overwrite z (a ++ b) p d = overwrite z a p d ++ b := by
  have hla := overwrite_length_of_le z h
  refine ext_getD z ?_ fun i _ => ?_
  · rw [overwrite_length_of_le z (by simp only [List.length_append]; omega)]
    simp [hla]
  · by_cases hi : i < a.length
    · rw [List.getD_append _ _ _ _ (by omega), getD_overwrite, getD_overwrite,
        List.getD_append _ _ _ _ hi]
    · rw [List.getD_append_right _ _ _ _ (by omega), hla,
        getD_overwrite_outside z _ _ _ (by omega), List.getD_append_right _ _ _ _ (by omega)]

/-- A write of the right length replaces a block. -/
theorem overwrite_block (z : α) (a b c : List α) {d : List α} (h : d.length = b.length) :
    overwrite z (a ++ b ++ c) a.length d = a ++ d ++ c := by
  rw [List.append_assoc, overwrite_at_length, h, List.drop_left]

/-- Reading back a written block. -/
theorem slice_overwrite_self (z : α) (c : List α) (p : Nat) (d : List α) :
    slice (overwrite z c p d) p d.length = d := by
  by_cases h : d = []
  · simp [h, slice_zero]
  have hlen : (slice (overwrite z c p d) p d.length).length = d.length := by
    rw [slice_length, overwrite_length, if_neg h]
    omega
  refine ext_getD z hlen fun i hi => ?_
  rw [slice_getD z _ _ _ _ (by omega), getD_overwrite_inside z _ _ _ (by omega)]
  congr 1
  omega

/-- A write leaves what it does not touch. -/
theorem slice_overwrite_outside (z : α) {c : List α} {p q n : Nat} {d : List α}
    (h : q + n ≤ p ∨ p + d.length ≤ q) (hc : q + n ≤ c.length) :
    slice (overwrite z c p d) q n = slice c q n := by
  have hle : c.length ≤ (overwrite z c p d).length := by
    rw [overwrite_length]
    split_ifs <;> omega
  have hl : (slice (overwrite z c p d) q n).length = n := slice_length_of_le (by omega)
  refine ext_getD z (by rw [hl, slice_length_of_le hc]) fun i hi => ?_
  rw [slice_getD z _ _ _ _ (by omega), slice_getD z _ _ _ _ (by omega),
    getD_overwrite_outside z _ _ _ (by omega)]

/-- A write keeps what is in front of it. -/
theorem take_overwrite (z : α) {c : List α} {p : Nat} (d : List α) (h : p ≤ c.length) :
    (overwrite z c p d).take p = c.take p := by
  by_cases hd : d = []
  · rw [hd, overwrite_nil]
  · rw [overwrite_of_ne_nil z c p hd, Nat.sub_eq_zero_of_le h, List.replicate_zero,
      List.append_nil, List.append_assoc]
    exact List.take_left' (List.length_take_of_le h)

/-- A write keeps what is behind it. -/
theorem drop_overwrite (z : α) {c : List α} {p : Nat} (d : List α) (h : p ≤ c.length) :
    (overwrite z c p d).drop (p + d.length) = c.drop (p + d.length) := by
  by_cases hd : d = []
  · rw [hd, overwrite_nil]
  · rw [overwrite_of_ne_nil z c p hd, Nat.sub_eq_zero_of_le h, List.replicate_zero,
      List.append_nil]
    exact List.drop_left' (by rw [List.length_append, List.length_take_of_le h])

/-- Writing what is there changes nothing. -/
theorem overwrite_self (z : α) {c : List α} {p : Nat} {d : List α}
    (h : slice c p d.length = d) : overwrite z c p d = c := by
  by_cases hd : d = []
  · rw [hd, overwrite_nil]
  · have hle : p + d.length ≤ c.length := by
      have hlen := congrArg List.length h
      have hpos := List.length_pos_iff.mpr hd
      rw [slice_length] at hlen
      omega
    have hcut := take_slice_drop c p d.length
    rw [h] at hcut
    rw [overwrite_of_ne_nil z c p hd, Nat.sub_eq_zero_of_le (by omega), List.replicate_zero,
      List.append_nil, hcut]

/-- The second of two writes to one place counts. -/
theorem overwrite_overwrite (z : α) (c : List α) (p : Nat) {d e : List α}
    (h : d.length = e.length) : overwrite z (overwrite z c p d) p e = overwrite z c p e := by
  have hnil : d = [] ↔ e = [] := by
    rw [← List.length_eq_zero_iff, ← List.length_eq_zero_iff, h]
  refine ext_getD z ?_ fun i _ => ?_
  · rw [overwrite_length, overwrite_length, overwrite_length, h]
    by_cases he : e = []
    · rw [if_pos he, if_pos (hnil.mpr he), if_pos he]
    · rw [if_neg he, if_neg (mt hnil.mp he), if_neg he]
      omega
  · rw [getD_overwrite, getD_overwrite, getD_overwrite, h]
    split_ifs <;> rfl

/-- A write inside a slice is a write to the slice. -/
theorem slice_overwrite_inside (z : α) {c : List α} {p q n : Nat} {d : List α}
    (h : q + d.length ≤ n) (hc : p + n ≤ c.length) :
    slice (overwrite z c (p + q) d) p n = overwrite z (slice c p n) q d := by
  have hl := slice_length_of_le hc
  have hle : (overwrite z c (p + q) d).length = c.length := overwrite_length_of_le z (by omega)
  have hl' : (overwrite z (slice c p n) q d).length = n := by
    rw [overwrite_length_of_le z (by omega), hl]
  refine ext_getD z (by rw [hl', slice_length_of_le (by omega)]) fun i hi => ?_
  rw [slice_length_of_le (by omega)] at hi
  rw [slice_getD z _ _ _ _ hi, getD_overwrite, getD_overwrite, slice_getD z _ _ _ _ hi]
  by_cases hin : q ≤ i ∧ i < q + d.length
  · rw [if_pos (by omega), if_pos hin, show p + i - (p + q) = i - q by omega]
  · rw [if_neg (by omega), if_neg hin]

/-! ## Extension -/

/-- The store made at least `n` cells long, as a write from `n` on makes it. -/
def extend (z : α) (c : List α) (n : Nat) : List α := c ++ List.replicate (n - c.length) z

theorem extend_length (z : α) {c : List α} {n : Nat} (h : c.length ≤ n) :
    (extend z c n).length = n := by
  rw [extend, List.length_append, List.length_replicate]
  omega

theorem extend_of_le (z : α) {c : List α} {n : Nat} (h : n ≤ c.length) : extend z c n = c := by
  rw [extend, Nat.sub_eq_zero_of_le h, List.replicate_zero, List.append_nil]

theorem getD_extend (z : α) (c : List α) (n i : Nat) : (extend z c n).getD i z = c.getD i z := by
  rw [extend]
  by_cases hi : i < c.length
  · exact List.getD_append _ _ _ _ hi
  · rw [List.getD_append_right _ _ _ _ (by omega), List.getD_eq_default c z (by omega),
      List.getD_eq_getElem?_getD, List.getElem?_replicate]
    split_ifs <;> rfl

/-- A write at or past the end appends, and writing nothing does so too once the
store is extended. -/
theorem extend_overwrite (z : α) {c : List α} {s : Nat} (h : c.length ≤ s) (d : List α) :
    extend z (overwrite z c s d) (s + d.length) = extend z c s ++ d := by
  by_cases hd : d = []
  · rw [hd, overwrite_nil, List.append_nil]
    rfl
  · have hlen : (overwrite z c s d).length = s + d.length := by
      rw [overwrite_length, if_neg hd]
      omega
    have hs := extend_length z h
    rw [extend_of_le z (by omega), overwrite_of_ne_nil z c s hd,
      List.drop_eq_nil_of_le (by omega), List.append_nil]
    show (extend z c s).take s ++ d = _
    rw [List.take_of_length_le (by omega)]

/-! ## Blocks of one size -/

section Blocks

variable {β : Type*} {f : β → List α} {w : Nat}

theorem flatMap_length (hf : ∀ x, (f x).length = w) (xs : List β) :
    (xs.flatMap f).length = w * xs.length := by
  induction xs with
  | nil => rfl
  | cons x xs ih =>
    rw [List.flatMap_cons, List.length_append, ih, hf, List.length_cons, Nat.mul_succ]
    omega

/-- The `i`-th block. -/
theorem slice_flatMap (hf : ∀ x, (f x).length = w) (xs : List β) :
    ∀ (i : Nat) (h : i < xs.length), slice (xs.flatMap f) (w * i) w = f xs[i] := by
  induction xs with
  | nil => intro i h; exact absurd h (Nat.not_lt_zero i)
  | cons x xs ih =>
    intro i h
    rw [List.flatMap_cons]
    cases i with
    | zero =>
      have hx := slice_append_block [] (f x) (xs.flatMap f)
      rw [hf] at hx
      exact hx
    | succ i =>
      have hshift := slice_append_right (f x) (xs.flatMap f) (w * i) w
      rw [hf] at hshift
      rw [Nat.mul_succ, Nat.add_comm, hshift, ih i (Nat.lt_of_succ_lt_succ h)]
      rfl

end Blocks

end Storage
end I18nZh
