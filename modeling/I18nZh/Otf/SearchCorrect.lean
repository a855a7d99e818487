import I18nZh.Otf.NamePool

/-!
# What `indexOf` finds and what it reads

The first position of the string in the region.  The loops are taken apart from the
buffer, over any way to read a byte, so that what is outside the region can be made
to throw.
-/

namespace I18nZh
namespace Otf
namespace Tookit

open Java Storage

/-! ## Any way to read -/

section Reads

variable (get : JInt → JavaM JByte)

/-- `matchLoop`, the bytes of the buffer read with `get`. -/
def matchLoopWith (offset : JInt) : Bytes → Nat → JavaM Nat
  | [], i => return i
  | b :: rest, i => do
    let c ← get (offset + BitVec.ofNat 32 i)
    if b ≠ c then return i else matchLoopWith offset rest (i + 1)

/-- `searchLoop`, the bytes of the buffer read with `get`. -/
def searchLoopWith (sb : Bytes) : Nat → JInt → JInt → JavaM JInt
  | 0, _, _ => throw .outOfFuel
  | fuel + 1, offset, size =>
    if (sb.length : Int) ≤ size.toInt then do
      let i ← matchLoopWith get offset sb 0
      if sb.length ≤ i then return offset
      else searchLoopWith sb fuel (offset + 1) (size - 1)
    else return -1

/-- `indexOf`, the bytes of the buffer read with `get`. -/
def indexOfWith (offset size : JInt) (sb : Bytes) : JavaM JInt :=
  if size.toInt < (sb.length : Int) then return -1
  else searchLoopWith get sb (size.toNat + 2) offset size

end Reads

theorem matchLoop_eq_with (buf : Bytes) (offset : JInt) (rest : Bytes) (i : Nat) :
    matchLoop buf offset rest i = matchLoopWith (arrayGet buf) offset rest i := by
  induction rest generalizing i with
  | nil => rfl
  | cons b rest ih =>
    rw [matchLoop, matchLoopWith]
    simp only [ih]

theorem searchLoop_eq_with (buf sb : Bytes) (fuel : Nat) (offset size : JInt) :
    searchLoop buf sb fuel offset size = searchLoopWith (arrayGet buf) sb fuel offset size := by
  induction fuel generalizing offset size with
  | zero => rfl
  | succ fuel ih =>
    rw [searchLoop, searchLoopWith]
    simp only [ih, matchLoop_eq_with]

/-- The code reads the buffer in no other way. -/
theorem indexOf_eq_with (buf : Bytes) (offset size : JInt) (sb : Bytes) :
    indexOf buf offset size sb = indexOfWith (arrayGet buf) offset size sb := by
  rw [indexOf, indexOfWith, searchLoop_eq_with]

/-- Two ways to read that agree on the bytes from `lo` to `hi`. -/
def Agree (get get' : JInt → JavaM JByte) (lo hi : Nat) : Prop :=
  ∀ k, lo ≤ k → k < hi → get (BitVec.ofNat 32 k) = get' (BitVec.ofNat 32 k)

section Agree

variable {get get' : JInt → JavaM JByte} {hi : Nat}

theorem matchLoopWith_congr {o : Nat} (h : Agree get get' o hi) : ∀ (rest : Bytes) (i : Nat),
    o + i + rest.length ≤ hi →
    matchLoopWith get (BitVec.ofNat 32 o) rest i =
      matchLoopWith get' (BitVec.ofNat 32 o) rest i := by
  intro rest
  induction rest with
  | nil =>
    intro i _
    rfl
  | cons b rest ih =>
    intro i hi
    rw [List.length_cons] at hi
    rw [matchLoopWith, matchLoopWith, add_ofNat, h (o + i) (by omega) (by omega),
      ih (i + 1) (by omega)]

theorem searchLoopWith_congr (sb : Bytes) (hhi : hi < 2 ^ 31) : ∀ (fuel o size : Nat),
    o + size = hi → Agree get get' o hi →
    searchLoopWith get sb fuel (BitVec.ofNat 32 o) (BitVec.ofNat 32 size) =
      searchLoopWith get' sb fuel (BitVec.ofNat 32 o) (BitVec.ofNat 32 size) := by
  intro fuel
  induction fuel with
  | zero =>
    intro o size _ _
    rfl
  | succ fuel ih =>
    intro o size ho h
    have hsize : (BitVec.ofNat 32 size).toInt = size := toInt_ofNat_of_lt (by omega)
    rw [searchLoopWith, searchLoopWith, hsize]
    by_cases hle : sb.length ≤ size
    · rw [if_pos (by omega), if_pos (by omega), matchLoopWith_congr h sb 0 (by omega)]
      cases size with
      | zero =>
        have hnil : sb = [] := List.length_eq_zero_iff.mp (by omega)
        rw [hnil]
        rfl
      | succ size =>
        have hrest : Agree get get' (o + 1) hi := fun k hk => h k (by omega)
        have ho1 : BitVec.ofNat 32 o + 1 = BitVec.ofNat 32 (o + 1) := add_ofNat o 1
        rw [ho1, ofNat_succ_sub, ih (o + 1) size (by omega) hrest]
    · rw [if_neg (by omega), if_neg (by omega)]

end Agree

/-! ## The first position -/

section First

variable {buf : Bytes} {o size : Nat}

/-- The empty string stands everywhere. -/
theorem isLeast_positions_nil : IsLeast (positions buf o (o + size) []) o :=
  ⟨⟨Nat.le_refl o, Nat.le_add_right o size, slice_zero buf o⟩, fun _ h => h.1⟩

end First

/-- `indexOf` ends, with the first position or with -1, whatever a read outside the
region would give. -/
theorem indexOf_first {buf : Bytes} {offset size : JInt} (hb : buf.length < 2 ^ 31)
    (ho : 0 ≤ offset.toInt) (hs : 0 ≤ size.toInt)
    (hr : offset.toInt + size.toInt ≤ buf.length) (sb : Bytes) :
    ∃ r, indexOf buf offset size sb = .ok r ∧
      (r ≠ -1 → 0 ≤ r.toInt ∧
        IsLeast (positions buf offset.toNat (offset.toNat + size.toNat) sb) r.toNat) ∧
      (r = -1 ↔ positions buf offset.toNat (offset.toNat + size.toNat) sb = ∅) ∧
      (sb = [] → r = offset) ∧
      ∀ get, Agree get (arrayGet buf) offset.toNat (offset.toNat + size.toNat) →
        indexOfWith get offset size sb = .ok r := by
  have hoffset := toInt_of_lt (toInt_nonneg_iff.mp ho)
  have hsize := toInt_of_lt (toInt_nonneg_iff.mp hs)
  have hregion : offset.toNat + size.toNat ≤ buf.length := by omega
  have hcases := indexOf_ofNat sb hb hregion
  rw [ofNat_toNat_self, ofNat_toNat_self] at hcases
  have hreads {r : JInt} (hindex : indexOf buf offset size sb = .ok r) (get : JInt → JavaM JByte)
      (hget : Agree get (arrayGet buf) offset.toNat (offset.toNat + size.toNat)) :
      indexOfWith get offset size sb = .ok r := by
    have hcongr := searchLoopWith_congr sb (by omega) (size.toNat + 2) offset.toNat size.toNat rfl
      hget
    rw [ofNat_toNat_self, ofNat_toNat_self] at hcongr
    rw [← hindex, indexOf_eq_with, indexOfWith, indexOfWith, hcongr]
  rcases hcases with ⟨p, hindex, hleast⟩ | ⟨hindex, hempty⟩
  · have hp : p < 2 ^ 31 := by
      have := hleast.1.2.1
      omega
    have hnat : (BitVec.ofNat 32 p).toNat = p := toNat_ofNat_of_lt (by omega)
    have hne : BitVec.ofNat 32 p ≠ -1 := by
      intro heq
      have hint := toInt_ofNat_of_lt hp
      rw [heq] at hint
      have hneg : (-1 : JInt).toInt = -1 := by decide
      omega
    refine ⟨BitVec.ofNat 32 p, hindex, ?_, ?_, ?_, hreads hindex⟩
    · intro _
      rw [hnat, toInt_ofNat_of_lt hp]
      exact ⟨by omega, hleast⟩
    · refine iff_of_false hne ?_
      intro hempty
      rw [hempty] at hleast
      exact hleast.1
    · rintro rfl
      rw [hleast.unique isLeast_positions_nil, ofNat_toNat_self]
  · refine ⟨-1, hindex, fun hne => absurd rfl hne, iff_of_true rfl hempty, ?_, hreads hindex⟩
    rintro rfl
    have hmem : offset.toNat ∈ positions buf offset.toNat (offset.toNat + size.toNat) [] :=
      isLeast_positions_nil.1
    rw [hempty] at hmem
    exact absurd hmem (Set.notMem_empty offset.toNat)

/-- In the region of the three bytes in the middle, read so that any other byte throws. -/
theorem indexOf_first_middle : ∃ r, indexOf [1, 2, 1, 2, 1] 1 3 [1, 2] = .ok r ∧ r = 2 ∧
    IsLeast (positions [1, 2, 1, 2, 1] 1 4 [1, 2]) 2 ∧
    indexOfWith (fun i => if i = 1 ∨ i = 2 ∨ i = 3 then arrayGet [1, 2, 1, 2, 1] i
      else throw .arrayIndexOutOfBounds) 1 3 [1, 2] = .ok r := by
  have hb : ([1, 2, 1, 2, 1] : Bytes).length < 2 ^ 31 := by decide
  have hr : (1 : JInt).toInt + (3 : JInt).toInt ≤ ([1, 2, 1, 2, 1] : Bytes).length := by decide
  obtain ⟨r, hindex, hfirst, -, -, hreads⟩ :=
    indexOf_first hb (by decide) (by decide) hr [1, 2]
  have hr : r = 2 := (Except.ok.inj hindex).symm
  refine ⟨r, hindex, hr, ?_, hreads _ ?_⟩
  · rw [hr] at hfirst
    exact (hfirst (by decide)).2
  · intro k hlo hhi
    have hk : BitVec.ofNat 32 k = 1 ∨ BitVec.ofNat 32 k = 2 ∨ BitVec.ofNat 32 k = 3 := by
      have hcases : k = 1 ∨ k = 2 ∨ k = 3 := by
        simp at hlo hhi
        omega
      rcases hcases with rfl | rfl | rfl <;> simp
    exact if_pos hk

end Tookit
end Otf
end I18nZh
