import Mathlib.Algebra.GroupWithZero.Nat
import Mathlib.Algebra.Order.BigOperators.Group.List
import I18nZh.Lib.Storage

/-!
# Weighted sums of lists

`wsum w i xs` adds the weight `w j x` of every element, `j` running from `i`.
A checksum over machine words is such a sum once each byte is weighted by its
place in its word, and then it does not matter where the list is cut: a sum over
a concatenation splits anywhere, and a weight of period `k` lets the second part
start from zero again at a multiple of `k`.
-/

namespace I18nZh

open Storage

variable {α M : Type*} [AddCommMonoid M]

def wsum (w : Nat → α → M) : Nat → List α → M
  | _, [] => 0
  | i, x :: xs => w i x + wsum w (i + 1) xs

namespace WeightedSum

variable (w : Nat → α → M)

@[simp] theorem wsum_nil (i : Nat) : wsum w i [] = 0 := rfl

@[simp] theorem wsum_cons (i : Nat) (x : α) (xs : List α) :
    wsum w i (x :: xs) = w i x + wsum w (i + 1) xs := rfl

theorem wsum_append (i : Nat) (xs ys : List α) :
    wsum w i (xs ++ ys) = wsum w i xs + wsum w (i + xs.length) ys := by
  induction xs generalizing i with
  | nil => simp
  | cons x xs ih =>
    rw [List.cons_append, wsum_cons, wsum_cons, ih, add_assoc (w i x), List.length_cons,
      Nat.add_right_comm, Nat.add_assoc i]

theorem wsum_replicate {z : α} (hz : ∀ i, w i z = 0) (i n : Nat) :
    wsum w i (List.replicate n z) = 0 := by
  induction n generalizing i with
  | zero => rfl
  | succ n ih => rw [List.replicate_succ, wsum_cons, hz, ih, add_zero]

/-- A periodic weight only sees the starting index modulo the period. -/
theorem wsum_shift {k : Nat} (hw : ∀ i, w (i + k) = w i) (i : Nat) (xs : List α) :
    wsum w (i + k) xs = wsum w i xs := by
  induction xs generalizing i with
  | nil => rfl
  | cons x xs ih => rw [wsum_cons, wsum_cons, hw, Nat.add_right_comm, ih]

theorem wsum_of_dvd {k : Nat} (hw : ∀ i, w (i + k) = w i) {n : Nat} (hn : k ∣ n)
    (xs : List α) : wsum w n xs = wsum w 0 xs := by
  obtain ⟨m, rfl⟩ := hn
  induction m with
  | zero => rfl
  | succ m ih => rw [Nat.mul_succ, wsum_shift w hw, ih]

/-- Cutting at a multiple of the period. -/
theorem wsum_append_of_dvd {k : Nat} (hw : ∀ i, w (i + k) = w i) {xs : List α}
    (hx : k ∣ xs.length) (ys : List α) :
    wsum w 0 (xs ++ ys) = wsum w 0 xs + wsum w 0 ys := by
  rw [wsum_append, Nat.zero_add, wsum_of_dvd w hw hx]

/-- Two stores that read alike on a range have the same sum over it, also where
one of them has already ended. -/
theorem wsum_slice_congr {z : α} (hz : ∀ i, w i z = 0) {a b : List α} (i p n : Nat)
    (h : ∀ j, j < n → a.getD (p + j) z = b.getD (p + j) z) :
    wsum w i (slice a p n) = wsum w i (slice b p n) := by
  have pad (c : List α) : wsum w i (slice c p n) =
      wsum w i (slice c p n ++ List.replicate (n - (slice c p n).length) z) := by
    rw [wsum_append, wsum_replicate w hz, add_zero]
  have hlen (c : List α) :
      (slice c p n ++ List.replicate (n - (slice c p n).length) z).length = n := by
    have := slice_length c p n
    simp only [List.length_append, List.length_replicate]
    omega
  have hget (c : List α) (j : Nat) (hj : j < n) :
      (slice c p n ++ List.replicate (n - (slice c p n).length) z).getD j z =
        c.getD (p + j) z := by
    by_cases hs : j < (slice c p n).length
    · rw [List.getD_append _ _ _ _ hs, slice_getD z c p n j hj]
    · rw [List.getD_append_right _ _ _ _ (by omega), List.getD_replicate]
      · rw [slice_length] at hs
        rw [List.getD_eq_default _ _ (by omega)]
      · have := slice_length c p n
        omega
  rw [pad a, pad b]
  congr 1
  refine ext_getD z (by rw [hlen, hlen]) fun j hj => ?_
  rw [hlen] at hj
  rw [hget a j hj, hget b j hj, h j hj]

/-! ## Sums by chunks -/

/-- The sum taken chunk by chunk, each chunk weighted as if it came first. -/
def chunkedSum : List Nat → List α → M
  | [], _ => 0
  | n :: ns, xs => wsum w 0 (xs.take n) + chunkedSum ns (xs.drop n)

theorem chunkedSum_cons_append {n : Nat} {xs : List α} (hx : xs.length = n) (ns : List Nat)
    (ys : List α) :
    chunkedSum w (n :: ns) (xs ++ ys) = wsum w 0 xs + chunkedSum w ns ys := by
  rw [chunkedSum, List.take_left' hx, List.drop_left' hx]

theorem chunkedSum_replicate {z : α} (hz : ∀ i, w i z = 0) (ns : List Nat) (m : Nat) :
    chunkedSum w ns (List.replicate m z) = 0 := by
  induction ns generalizing m with
  | nil => rfl
  | cons n ns ih =>
    rw [chunkedSum, List.take_replicate, List.drop_replicate, wsum_replicate w hz, ih, add_zero]

/-- Chunks that end at multiples of the period add up to the whole sum; where
the last one ends does not matter. -/
theorem chunkedSum_of_dvd {k : Nat} (hw : ∀ i, w (i + k) = w i) :
    ∀ (ns : List Nat) (xs : List α), xs.length = ns.sum → (∀ n ∈ ns.dropLast, k ∣ n) →
      chunkedSum w ns xs = wsum w 0 xs := by
  intro ns
  induction ns with
  | nil =>
    intro xs hx _
    have hnil : xs = [] := List.eq_nil_of_length_eq_zero hx
    rw [hnil]
    rfl
  | cons n ns ih =>
    intro xs hx hns
    rw [List.sum_cons] at hx
    have htake : (xs.take n).length = n := List.length_take_of_le (by omega)
    cases ns with
    | nil =>
      have hall : xs.length ≤ n := by
        rw [hx, List.sum_nil]
        exact Nat.le_refl n
      rw [chunkedSum, List.take_of_length_le hall]
      exact add_zero _
    | cons m ns =>
      have hrest := ih (xs.drop n) (by rw [List.length_drop]; omega)
        fun j hj => hns j (List.mem_cons_of_mem n hj)
      have hn : k ∣ n := hns n List.mem_cons_self
      have hcut : wsum w 0 (xs.take n ++ xs.drop n) =
          wsum w 0 (xs.take n) + wsum w 0 (xs.drop n) :=
        wsum_append_of_dvd w hw (by rwa [htake]) (xs.drop n)
      rw [List.take_append_drop] at hcut
      rw [chunkedSum, hrest, hcut]

/-- A chunk that ends elsewhere shows, on a list with a single `x` behind it,
if `x` weighs as in front at multiples of the period only. -/
theorem dvd_of_chunkedSum {k : Nat} (hw : ∀ i, w (i + k) = w i) {z x : α}
    (hz : ∀ i, w i z = 0) (hx : ∀ i, w i x = w 0 x → k ∣ i) :
    ∀ ns : List Nat, (∀ n ∈ ns, 0 < n) →
      (∀ xs : List α, xs.length = ns.sum → chunkedSum w ns xs = wsum w 0 xs) →
      ∀ n ∈ ns.dropLast, k ∣ n := by
  intro ns
  induction ns with
  | nil =>
    intro _ _ n hn
    cases hn
  | cons n ns ih =>
    intro hpos hsum
    cases ns with
    | nil =>
      intro j hj
      cases hj
    | cons m ns =>
      have hm : 0 < m := hpos m (List.mem_cons_of_mem n List.mem_cons_self)
      -- Zeros in the first chunk leave the property for the chunks that follow.
      have hzeros (ys : List α) (hy : ys.length = (m :: ns).sum) :
          chunkedSum w (m :: ns) ys = wsum w n ys := by
        have h := hsum (List.replicate n z ++ ys) (by
          rw [List.length_append, List.length_replicate, hy, List.sum_cons (a := n)])
        rw [chunkedSum_cons_append w List.length_replicate, wsum_append, wsum_replicate w hz,
          zero_add, zero_add, List.length_replicate, Nat.zero_add] at h
        exact h
      have hn : k ∣ n := by
        have h := hzeros (x :: List.replicate (m - 1 + ns.sum) z) (by
          rw [List.length_cons, List.length_replicate, List.sum_cons]
          omega)
        have hcut : x :: List.replicate (m - 1 + ns.sum) z =
            (x :: List.replicate (m - 1) z) ++ List.replicate ns.sum z := by
          rw [List.replicate_add]
          rfl
        have hlen : (x :: List.replicate (m - 1) z).length = m := by
          rw [List.length_cons, List.length_replicate]
          omega
        rw [hcut, chunkedSum_cons_append w hlen, chunkedSum_replicate w hz, wsum_append,
          wsum_replicate w hz, wsum_cons, wsum_cons, wsum_replicate w hz, wsum_replicate w hz,
          add_zero, add_zero, add_zero, add_zero] at h
        exact hx n h.symm
      have hrest : ∀ j ∈ (m :: ns).dropLast, k ∣ j := by
        refine ih (fun j hj => hpos j (List.mem_cons_of_mem n hj)) fun ys hy => ?_
        rw [hzeros ys hy, wsum_of_dvd w hw hn]
      intro j hj
      rcases List.mem_cons.mp hj with rfl | hj
      · exact hn
      · exact hrest j hj

end WeightedSum
end I18nZh
