import Mathlib.Algebra.Order.Group.Nat
import Mathlib.Algebra.Ring.Int.Defs
import Mathlib.Data.List.Sort
import I18nZh.Lib.Storage

/-!
# The Java the font tools are written in

Machine integers are bit vectors of the width Java gives them and wrap as they
do; a signed reading is `toInt`.  An array is a list, and every access goes
through a bounds check that throws.  A method that may throw returns in `JavaM`.
-/

namespace I18nZh
namespace Java

open Storage

abbrev JByte := BitVec 8
abbrev JShort := BitVec 16
abbrev JInt := BitVec 32
abbrev JLong := BitVec 64

/-- A UTF-16 code unit. -/
abbrev JChar := BitVec 16

abbrev Bytes := List JByte
abbrev JString := List JChar

/-- A string literal of the source. -/
def jstr (s : String) : JString := s.toList.map fun c => BitVec.ofNat 16 c.toNat

inductive JavaError where
  | arrayIndexOutOfBounds
  | stringIndexOutOfBounds
  | negativeArraySize
  | nullPointer
  | numberFormat
  | ioException
  | xmlStream
  /-- `System.exit`. -/
  | exit (status : Nat)
  /-- Not a Java error: a loop of the model used up its fuel. -/
  | outOfFuel
  deriving DecidableEq, Repr

/-- The result of a method that may throw. -/
abbrev JavaM := Except JavaError

section Bind

variable {α β : Type} {f : α → JavaM β}

theorem ok_bind (a : α) : ((.ok a : JavaM α) >>= f) = f a := rfl

/-- What comes after a step only runs if the step returns. -/
theorem bind_eq_ok {x : JavaM α} {b : β} (h : (x >>= f) = .ok b) :
    ∃ a, x = .ok a ∧ f a = .ok b := by
  cases x with
  | error e => cases h
  | ok a => exact ⟨a, rfl, h⟩

end Bind

/-! ## Signed readings -/

section Signed

variable {x : JInt}

theorem toInt_of_lt (h : x.toNat < 2 ^ 31) : x.toInt = x.toNat :=
  BitVec.toInt_eq_toNat_of_lt (by omega)

theorem toInt_neg_iff : x.toInt < 0 ↔ 2 ^ 31 ≤ x.toNat := by
  rw [BitVec.toInt_eq_toNat_cond]
  have := x.isLt
  split <;> omega

theorem toInt_nonneg_iff : 0 ≤ x.toInt ↔ x.toNat < 2 ^ 31 := by
  have := toInt_neg_iff (x := x)
  omega

theorem toNat_ofNat_of_lt {n : Nat} (h : n < 2 ^ 32) : (BitVec.ofNat 32 n).toNat = n := by
  rw [BitVec.toNat_ofNat, Nat.mod_eq_of_lt h]

theorem toInt_ofNat_of_lt {n : Nat} (h : n < 2 ^ 31) : (BitVec.ofNat 32 n).toInt = n := by
  have hn : (BitVec.ofNat 32 n).toNat = n := toNat_ofNat_of_lt (by omega)
  rw [toInt_of_lt (by omega), hn]

theorem ofNat_toNat_self (x : JInt) : BitVec.ofNat 32 x.toNat = x := by simp

/-- A `short` without sign keeps its value as an `int`. -/
theorem signExtend_ofNat_of_lt {n : Nat} (h : n < 2 ^ 15) :
    (BitVec.ofNat 16 n).signExtend 32 = BitVec.ofNat 32 n := by
  refine BitVec.eq_of_toInt_eq ?_
  rw [BitVec.toInt_signExtend_of_le (by omega), toInt_ofNat_of_lt (by omega),
    BitVec.toInt_eq_toNat_of_lt] <;> rw [BitVec.toNat_ofNat, Nat.mod_eq_of_lt (by omega)]
  omega

theorem short_toInt_cases (v : JShort) :
    (v.toNat < 32768 ∧ v.toInt = v.toNat) ∨
    (32768 ≤ v.toNat ∧ v.toInt = (v.toNat : Int) - 65536) := by
  rw [BitVec.toInt_eq_toNat_cond]
  have := v.isLt
  split <;> omega

end Signed

/-! ## Arrays -/

variable {α : Type}

/-- `a[i]` -/
def arrayGet (a : List α) (i : JInt) : JavaM α :=
  if i.toInt < 0 then throw .arrayIndexOutOfBounds
  else match a[i.toNat]? with
    | some x => pure x
    | none => throw .arrayIndexOutOfBounds

/-- `a[i] = x` -/
def arraySet (a : List α) (i : JInt) (x : α) : JavaM (List α) :=
  if i.toInt < 0 ∨ a.length ≤ i.toNat then throw .arrayIndexOutOfBounds
  else pure (a.set i.toNat x)

/-- `new T[n]`, its elements all `z`. -/
def newArray (z : α) (n : JInt) : JavaM (List α) :=
  if n.toInt < 0 then throw .negativeArraySize else pure (List.replicate n.toNat z)

/-- `System.arraycopy`, source and destination being different arrays. -/
def arraycopy (src : List α) (srcPos : JInt) (dst : List α) (dstPos length : JInt) :
    JavaM (List α) :=
  if srcPos.toInt < 0 ∨ dstPos.toInt < 0 ∨ length.toInt < 0 ∨
      (src.length : Int) < srcPos.toInt + length.toInt ∨
      (dst.length : Int) < dstPos.toInt + length.toInt then
    throw .arrayIndexOutOfBounds
  else
    pure (dst.take dstPos.toNat ++ slice src srcPos.toNat length.toNat ++
      dst.drop (dstPos.toNat + length.toNat))

theorem arrayGet_of_lt {a : List α} {k : Nat} (hk : k < a.length) (hl : k < 2 ^ 31) :
    arrayGet a (BitVec.ofNat 32 k) = .ok a[k] := by
  have h : ¬ (BitVec.ofNat 32 k).toInt < 0 := by rw [toInt_ofNat_of_lt hl]; omega
  rw [arrayGet, if_neg h, toNat_ofNat_of_lt (by omega), List.getElem?_eq_getElem hk]
  rfl

theorem arraySet_of_lt {a : List α} {k : Nat} (x : α) (hk : k < a.length) (hl : k < 2 ^ 31) :
    arraySet a (BitVec.ofNat 32 k) x = .ok (a.set k x) := by
  have h : (BitVec.ofNat 32 k).toInt = k := toInt_ofNat_of_lt hl
  rw [arraySet, h, toNat_ofNat_of_lt (by omega), if_neg (by omega)]
  rfl

theorem arraySet_error_of_le {a : List α} {k : Nat} (x : α) (hk : a.length ≤ k)
    (hl : k < 2 ^ 32) :
    arraySet a (BitVec.ofNat 32 k) x = .error .arrayIndexOutOfBounds := by
  rw [arraySet, toNat_ofNat_of_lt hl, if_pos (Or.inr hk)]
  rfl

theorem newArray_of_nonneg (z : α) {n : JInt} (h : n.toNat < 2 ^ 31) :
    newArray z n = .ok (List.replicate n.toNat z) := by
  have := toInt_of_lt h
  exact if_neg (by omega)

theorem newArray_error (z : α) {n : JInt} (h : n.toInt < 0) :
    newArray z n = .error .negativeArraySize := if_pos h

/-- Copying in range is a write. -/
theorem arraycopy_eq (z : α) (src dst : List α) (sp dp n : Nat)
    (hs : sp + n ≤ src.length) (hd : dp + n ≤ dst.length)
    (hl : dp + n < 2 ^ 31) (hl' : sp < 2 ^ 31) :
    arraycopy src (BitVec.ofNat 32 sp) dst (BitVec.ofNat 32 dp) (BitVec.ofNat 32 n) =
      .ok (overwrite z dst dp (slice src sp n)) := by
  have h1 : (BitVec.ofNat 32 sp).toInt = sp := toInt_ofNat_of_lt hl'
  have h2 : (BitVec.ofNat 32 dp).toInt = dp := toInt_ofNat_of_lt (by omega)
  have h3 : (BitVec.ofNat 32 n).toInt = n := toInt_ofNat_of_lt (by omega)
  rw [arraycopy, h1, h2, h3, if_neg (by omega), toNat_ofNat_of_lt (by omega),
    toNat_ofNat_of_lt (by omega), toNat_ofNat_of_lt (by omega)]
  have hlen : (slice src sp n).length = n := slice_length_of_le hs
  by_cases h0 : slice src sp n = []
  · have hn : n = 0 := by rw [h0] at hlen; simpa using hlen.symm
    subst hn
    simp [h0, pure, Except.pure]
  · rw [overwrite_of_ne_nil z dst dp h0, hlen, Nat.sub_eq_zero_of_le (by omega)]
    simp [pure, Except.pure]

theorem arraycopy_error {src dst : List α} {srcPos dstPos length : JInt}
    (h : dstPos.toInt < 0 ∨ length.toInt < 0 ∨
      (dst.length : Int) < dstPos.toInt + length.toInt) :
    arraycopy src srcPos dst dstPos length = .error .arrayIndexOutOfBounds := by
  rw [arraycopy, if_pos (by omega)]
  rfl

theorem arraycopy_length {src dst r : List α} {srcPos dstPos length : JInt}
    (h : arraycopy src srcPos dst dstPos length = .ok r) : r.length = dst.length := by
  rw [arraycopy] at h
  by_cases hc : srcPos.toInt < 0 ∨ dstPos.toInt < 0 ∨ length.toInt < 0 ∨
      (src.length : Int) < srcPos.toInt + length.toInt ∨
      (dst.length : Int) < dstPos.toInt + length.toInt
  · rw [if_pos hc] at h
    cases h
  · rw [if_neg hc] at h
    cases h
    have hl := toInt_of_lt (toInt_nonneg_iff.mp (by omega : 0 ≤ length.toInt))
    have hd := toInt_of_lt (toInt_nonneg_iff.mp (by omega : 0 ≤ dstPos.toInt))
    have hs := toInt_of_lt (toInt_nonneg_iff.mp (by omega : 0 ≤ srcPos.toInt))
    rw [List.length_append, List.length_append, List.length_take, List.length_drop,
      slice_length_of_le (by omega)]
    omega

/-! ## Sorting -/

/-- `Arrays.sort` with a comparator.  The library documents it as stable, and a
stable sort under a consistent comparator is unique. -/
def arraysSort (compare : α → α → Int) (a : List α) : List α :=
  a.insertionSort fun x y => compare x y ≤ 0

theorem arraysSort_perm (compare : α → α → Int) (a : List α) : (arraysSort compare a).Perm a :=
  List.perm_insertionSort _ a

theorem mem_arraysSort {compare : α → α → Int} {a : List α} {x : α} :
    x ∈ arraysSort compare a ↔ x ∈ a := (arraysSort_perm compare a).mem_iff

theorem arraysSort_length (compare : α → α → Int) (a : List α) :
    (arraysSort compare a).length = a.length := (arraysSort_perm compare a).length_eq

theorem arraysSort_pairwise (compare : α → α → Int)
    (total : ∀ x y, compare x y ≤ 0 ∨ compare y x ≤ 0)
    (trans : ∀ x y z, compare x y ≤ 0 → compare y z ≤ 0 → compare x z ≤ 0) (a : List α) :
    (arraysSort compare a).Pairwise fun x y => compare x y ≤ 0 := by
  have : Std.Total fun x y => compare x y ≤ 0 := ⟨total⟩
  have : IsTrans α fun x y => compare x y ≤ 0 := ⟨trans⟩
  exact List.pairwise_insertionSort _ a

end Java
end I18nZh
