import Mathlib.Data.BitVec
import Mathlib.Tactic.Ring
import Mathlib.Algebra.BigOperators.Group.List.Basic
import I18nZh.Lib.WeightedSum

/-!
# Big-endian numbers in byte lists

Reading and writing 16- and 32-bit numbers most significant byte first, and the
sum of the 32-bit words of a list of bytes, the list being filled up with zero
bytes to a whole number of words.
-/

namespace I18nZh
namespace BigEndian

open Storage WeightedSum

abbrev Byte := BitVec 8

/-- The 16-bit number at position `k`.  Positions past the end read as zero. -/
def shortAt (bs : List Byte) (k : Nat) : BitVec 16 := bs.getD k 0 ++ bs.getD (k + 1) 0

/-- The 32-bit number at position `k`. -/
def intAt (bs : List Byte) (k : Nat) : BitVec 32 :=
  bs.getD k 0 ++ bs.getD (k + 1) 0 ++ bs.getD (k + 2) 0 ++ bs.getD (k + 3) 0

def shortBytes (v : BitVec 16) : List Byte := [v.extractLsb' 8 8, v.extractLsb' 0 8]

def intBytes (v : BitVec 32) : List Byte :=
  [v.extractLsb' 24 8, v.extractLsb' 16 8, v.extractLsb' 8 8, v.extractLsb' 0 8]

@[simp] theorem shortBytes_length (v : BitVec 16) : (shortBytes v).length = 2 := rfl

@[simp] theorem intBytes_length (v : BitVec 32) : (intBytes v).length = 4 := rfl

/-! ## Reading -/

theorem shortAt_append_left {a : List Byte} (b : List Byte) {k : Nat} (h : k + 2 ≤ a.length) :
    shortAt (a ++ b) k = shortAt a k := by
  simp only [shortAt]
  rw [List.getD_append _ _ _ _ (by omega), List.getD_append _ _ _ _ (by omega)]

theorem intAt_append_left {a : List Byte} (b : List Byte) {k : Nat} (h : k + 4 ≤ a.length) :
    intAt (a ++ b) k = intAt a k := by
  simp only [intAt]
  rw [List.getD_append _ _ _ _ (by omega), List.getD_append _ _ _ _ (by omega),
    List.getD_append _ _ _ _ (by omega), List.getD_append _ _ _ _ (by omega)]

/-- A number only depends on its own bytes. -/
theorem intAt_slice {bs : List Byte} {p n k : Nat} (h : k + 4 ≤ n) :
    intAt (slice bs p n) k = intAt bs (p + k) := by
  simp only [intAt]
  rw [slice_getD 0 _ _ _ _ (by omega), slice_getD 0 _ _ _ _ (by omega),
    slice_getD 0 _ _ _ _ (by omega), slice_getD 0 _ _ _ _ (by omega)]
  simp only [Nat.add_assoc]

theorem shortAt_slice {bs : List Byte} {p n k : Nat} (h : k + 2 ≤ n) :
    shortAt (slice bs p n) k = shortAt bs (p + k) := by
  simp only [shortAt]
  rw [slice_getD 0 _ _ _ _ (by omega), slice_getD 0 _ _ _ _ (by omega)]
  simp only [Nat.add_assoc]

/-! ## Round trips -/

theorem toNat_append_byte {n : Nat} (x : BitVec n) (b : Byte) :
    (x ++ b).toNat = x.toNat * 256 + b.toNat := by
  rw [BitVec.toNat_append, ← Nat.shiftLeft_add_eq_or_of_lt b.isLt, Nat.shiftLeft_eq]

theorem extractLsb'_toNat (v : BitVec 32) (s : Nat) :
    (v.extractLsb' s 8).toNat = v.toNat / 2 ^ s % 256 := by
  simp [BitVec.extractLsb'_toNat, Nat.shiftRight_eq_div_pow]

theorem shortAt_shortBytes (v : BitVec 16) (bs : List Byte) :
    shortAt (shortBytes v ++ bs) 0 = v := by
  refine BitVec.eq_of_toNat_eq ?_
  show (v.extractLsb' 8 8 ++ v.extractLsb' 0 8).toNat = v.toNat
  have := v.isLt
  rw [toNat_append_byte]
  simp only [BitVec.extractLsb'_toNat, Nat.shiftRight_eq_div_pow]
  omega

theorem intAt_intBytes (v : BitVec 32) (bs : List Byte) : intAt (intBytes v ++ bs) 0 = v := by
  refine BitVec.eq_of_toNat_eq ?_
  show (v.extractLsb' 24 8 ++ v.extractLsb' 16 8 ++ v.extractLsb' 8 8 ++
    v.extractLsb' 0 8).toNat = v.toNat
  have := v.isLt
  simp only [toNat_append_byte, extractLsb'_toNat]
  omega

/-- Bytes read as one number, the first one highest. -/
def bigEndian (bs : List Byte) : Nat := bs.foldl (fun n b => n * 256 + b.toNat) 0

theorem bigEndian_append (a b : List Byte) :
    bigEndian (a ++ b) = bigEndian a * 256 ^ b.length + bigEndian b := by
  induction b using List.reverseRecOn with
  | nil => simp [bigEndian]
  | append_singleton b x ih =>
    have hlast (c : List Byte) : bigEndian (c ++ [x]) = bigEndian c * 256 + x.toNat := by
      rw [bigEndian, List.foldl_append]
      rfl
    rw [← List.append_assoc, hlast, hlast, ih, List.length_append, List.length_singleton,
      Nat.pow_succ]
    ring

theorem slice_two {c : List Byte} {p : Nat} (h : p + 2 ≤ c.length) :
    slice c p 2 = [c.getD p 0, c.getD (p + 1) 0] := slice_eq_map 0 h

theorem slice_four {c : List Byte} {p : Nat} (h : p + 4 ≤ c.length) :
    slice c p 4 = [c.getD p 0, c.getD (p + 1) 0, c.getD (p + 2) 0, c.getD (p + 3) 0] :=
  slice_eq_map 0 h

theorem shortAt_toNat {c : List Byte} {p : Nat} (h : p + 2 ≤ c.length) :
    (shortAt c p).toNat = bigEndian (slice c p 2) := by
  rw [slice_two h, shortAt, toNat_append_byte]
  simp [bigEndian]

theorem intAt_toNat {c : List Byte} {p : Nat} (h : p + 4 ≤ c.length) :
    (intAt c p).toNat = bigEndian (slice c p 4) := by
  rw [slice_four h, intAt, toNat_append_byte, toNat_append_byte, toNat_append_byte]
  simp [bigEndian]

theorem longAt_toNat {c : List Byte} {p : Nat} (h : p + 8 ≤ c.length) :
    (intAt c p ++ intAt c (p + 4)).toNat = bigEndian (slice c p 8) := by
  rw [slice_add c p 4 4, bigEndian_append, ← intAt_toNat (by omega), ← intAt_toNat (by omega),
    slice_length_of_le (by omega), BitVec.toNat_append,
    ← Nat.shiftLeft_add_eq_or_of_lt (intAt c (p + 4)).isLt, Nat.shiftLeft_eq]
  rfl

/-- The bytes of a number that was read are those it was read from. -/
theorem shortBytes_shortAt {c : List Byte} {p : Nat} (h : p + 2 ≤ c.length) :
    shortBytes (shortAt c p) = slice c p 2 := by
  rw [slice_two h, shortAt, shortBytes, BitVec.extractLsb'_append_eq_left,
    BitVec.extractLsb'_append_eq_right]

theorem intBytes_append (a b c d : Byte) : intBytes (a ++ b ++ c ++ d) = [a, b, c, d] := by
  have hthird : (a ++ b ++ c ++ d : BitVec 32).extractLsb' 8 8 = c := by
    rw [BitVec.extractLsb'_append_eq_of_le (by decide)]
    exact BitVec.extractLsb'_append_eq_right
  have hsecond : (a ++ b ++ c ++ d : BitVec 32).extractLsb' 16 8 = b := by
    rw [BitVec.extractLsb'_append_eq_of_le (by decide),
      BitVec.extractLsb'_append_eq_of_le (by decide)]
    exact BitVec.extractLsb'_append_eq_right
  have hfirst : (a ++ b ++ c ++ d : BitVec 32).extractLsb' 24 8 = a := by
    rw [BitVec.extractLsb'_append_eq_of_le (by decide),
      BitVec.extractLsb'_append_eq_of_le (by decide)]
    exact BitVec.extractLsb'_append_eq_left
  rw [intBytes, hfirst, hsecond, hthird, BitVec.extractLsb'_append_eq_right]

theorem intBytes_intAt {c : List Byte} {p : Nat} (h : p + 4 ≤ c.length) :
    intBytes (intAt c p) = slice c p 4 := by
  rw [slice_four h, intAt, intBytes_append]

/-- The number 0 is made of zeros. -/
theorem intAt_eq_zero_iff {c : List Byte} {p : Nat} (h : p + 4 ≤ c.length) :
    intAt c p = 0 ↔ ∀ i, p ≤ i → i < p + 4 → c.getD i 0 = 0 := by
  constructor
  · intro hzero i h1 h2
    obtain ⟨j, rfl⟩ := Nat.exists_eq_add_of_le h1
    have hbytes : slice c p 4 = List.replicate 4 0 := by
      rw [← intBytes_intAt h, hzero]
      rfl
    have hcell : (slice c p 4).getD j 0 = c.getD (p + j) 0 := slice_getD 0 c p 4 j (by omega)
    rw [← hcell, hbytes, List.getD_eq_getElem?_getD, List.getElem?_getD_replicate_default_eq]
  · intro hall
    rw [intAt, hall p (by omega) (by omega), hall (p + 1) (by omega) (by omega),
      hall (p + 2) (by omega) (by omega), hall (p + 3) (by omega) (by omega)]
    rfl

theorem shortAt_overwrite (v : BitVec 16) (c : List Byte) (p : Nat) :
    shortAt (overwrite 0 c p (shortBytes v)) p = v := by
  have hread : shortAt (slice (overwrite 0 c p (shortBytes v)) p 2) 0 =
      shortAt (overwrite 0 c p (shortBytes v)) p := shortAt_slice (by decide)
  have hslice : slice (overwrite 0 c p (shortBytes v)) p 2 = shortBytes v ++ [] := by
    rw [List.append_nil]
    exact slice_overwrite_self 0 c p (shortBytes v)
  rw [hslice, shortAt_shortBytes] at hread
  exact hread.symm

theorem intAt_overwrite (v : BitVec 32) (c : List Byte) (p : Nat) :
    intAt (overwrite 0 c p (intBytes v)) p = v := by
  have hread : intAt (slice (overwrite 0 c p (intBytes v)) p 4) 0 =
      intAt (overwrite 0 c p (intBytes v)) p := intAt_slice (by decide)
  have hslice : slice (overwrite 0 c p (intBytes v)) p 4 = intBytes v ++ [] := by
    rw [List.append_nil]
    exact slice_overwrite_self 0 c p (intBytes v)
  rw [hslice, intAt_intBytes] at hread
  exact hread.symm

/-! ## Word sums -/

/-- The 32-bit words of a list of bytes, the last one filled up with zeros. -/
def words : List Byte → List (BitVec 32)
  | a :: b :: c :: d :: rest => intAt [a, b, c, d] 0 :: words rest
  | [] => []
  | rest => [intAt rest 0]

/-- The sum of the words, modulo `2 ^ 32`. -/
def wordSum (bs : List Byte) : BitVec 32 := (words bs).sum

/-- What a byte at position `i` of a list contributes to the sum of its words. -/
def byteWeight (i : Nat) (b : Byte) : BitVec 32 := b.setWidth 32 <<< (8 * (3 - i % 4))

theorem byteWeight_zero (i : Nat) : byteWeight i 0 = 0 := by simp [byteWeight]

theorem byteWeight_add_four (i : Nat) : byteWeight (i + 4) = byteWeight i := by
  funext b
  rw [byteWeight, byteWeight, Nat.add_mod_right]

theorem byteWeight_toNat (i : Nat) (b : Byte) :
    (byteWeight i b).toNat = b.toNat * 2 ^ (8 * (3 - i % 4)) := by
  have hb := b.isLt
  have hi : i % 4 < 4 := Nat.mod_lt _ (by decide)
  rw [byteWeight, BitVec.toNat_shiftLeft, Nat.shiftLeft_eq, BitVec.toNat_setWidth,
    Nat.mod_eq_of_lt (a := b.toNat) (by omega), Nat.mod_eq_of_lt]
  rcases (by omega : i % 4 = 0 ∨ i % 4 = 1 ∨ i % 4 = 2 ∨ i % 4 = 3) with h | h | h | h <;>
    rw [h] <;> omega

/-- The byte 1 tells the places in a word apart. -/
theorem four_dvd_of_byteWeight {i : Nat} (h : byteWeight i 1 = byteWeight 0 1) : 4 ∣ i := by
  have hnat := congrArg BitVec.toNat h
  rw [byteWeight_toNat, byteWeight_toNat] at hnat
  have hi : i % 4 < 4 := Nat.mod_lt _ (by decide)
  rcases (by omega : i % 4 = 0 ∨ i % 4 = 1 ∨ i % 4 = 2 ∨ i % 4 = 3) with h | h | h | h
  · exact Nat.dvd_of_mod_eq_zero h
  all_goals
    rw [h] at hnat
    simp at hnat

theorem intAt_eq_weights (a b c d : Byte) :
    intAt [a, b, c, d] 0 =
      byteWeight 0 a + (byteWeight 1 b + (byteWeight 2 c + byteWeight 3 d)) := by
  refine BitVec.eq_of_toNat_eq ?_
  have ha := a.isLt
  have hb := b.isLt
  have hc := c.isLt
  have hd := d.isLt
  show (a ++ b ++ c ++ d).toNat = _
  simp only [toNat_append_byte, BitVec.toNat_add, byteWeight_toNat, Nat.reduceMod,
    Nat.reduceSub, Nat.reduceMul, Nat.reducePow]
  omega

/-- The sum of the words as a weighted sum of the bytes. -/
theorem wordSum_eq_wsum : ∀ bs : List Byte, wordSum bs = wsum byteWeight 0 bs
  | [] => rfl
  | [a] => by
    have h := intAt_eq_weights a 0 0 0
    have e : intAt [a] 0 = intAt [a, 0, 0, 0] 0 := rfl
    simp only [byteWeight_zero, add_zero, ← e] at h
    simpa [wordSum, words] using h
  | [a, b] => by
    have h := intAt_eq_weights a b 0 0
    have e : intAt [a, b] 0 = intAt [a, b, 0, 0] 0 := rfl
    simp only [byteWeight_zero, add_zero, ← e] at h
    simpa [wordSum, words] using h
  | [a, b, c] => by
    have h := intAt_eq_weights a b c 0
    have e : intAt [a, b, c] 0 = intAt [a, b, c, 0] 0 := rfl
    simp only [byteWeight_zero, add_zero, ← e] at h
    simpa [wordSum, words] using h
  | a :: b :: c :: d :: rest => by
    have ih := wordSum_eq_wsum rest
    have h4 : wsum byteWeight 4 rest = wsum byteWeight 0 rest :=
      wsum_shift byteWeight byteWeight_add_four 0 rest
    rw [wordSum] at ih
    rw [wordSum, words, List.sum_cons, ih, intAt_eq_weights, wsum_cons, wsum_cons, wsum_cons,
      wsum_cons, ← h4]
    simp only [add_assoc, Nat.reduceAdd]

@[simp] theorem wordSum_nil : wordSum [] = 0 := rfl

theorem wordSum_append {a : List Byte} (h : 4 ∣ a.length) (b : List Byte) :
    wordSum (a ++ b) = wordSum a + wordSum b := by
  simp only [wordSum_eq_wsum]
  exact wsum_append_of_dvd byteWeight byteWeight_add_four h b

/-- Filling up with zeros, here to any length, does not change the sum. -/
theorem wordSum_append_zeros (a : List Byte) (n : Nat) :
    wordSum (a ++ List.replicate n 0) = wordSum a := by
  rw [wordSum_eq_wsum, wordSum_eq_wsum, wsum_append, wsum_replicate byteWeight byteWeight_zero,
    add_zero]

theorem wordSum_of_length_four {bs : List Byte} (h : bs.length = 4) :
    wordSum bs = intAt bs 0 := by
  match bs, h with
  | [a, b, c, d], _ => simp [wordSum, words]

theorem wordSum_intBytes (v : BitVec 32) : wordSum (intBytes v) = v := by
  have h := intAt_intBytes v []
  rw [List.append_nil] at h
  rw [wordSum_of_length_four (intBytes_length v), h]

theorem wordSum_slice_congr {a b : List Byte} {p n : Nat}
    (h : ∀ j, j < n → a.getD (p + j) 0 = b.getD (p + j) 0) :
    wordSum (slice a p n) = wordSum (slice b p n) := by
  rw [wordSum_eq_wsum, wordSum_eq_wsum]
  exact wsum_slice_congr byteWeight byteWeight_zero 0 p n h

/-- Replacing an aligned word by another changes the sum by their difference. -/
theorem wordSum_replace {a b c : List Byte} (ha : 4 ∣ a.length) (hb : b.length = 4)
    (v : BitVec 32) :
    wordSum (a ++ intBytes v ++ c) = wordSum (a ++ b ++ c) - intAt b 0 + v := by
  have hw (w : List Byte) (hw : w.length = 4) :
      wordSum (a ++ w ++ c) = wordSum a + (intAt w 0 + wordSum c) := by
    rw [List.append_assoc, wordSum_append ha, wordSum_append ⟨1, hw⟩, wordSum_of_length_four hw]
  have hv : intAt (intBytes v) 0 = v := by
    rw [← wordSum_of_length_four (intBytes_length v), wordSum_intBytes]
  rw [hw b hb, hw _ (intBytes_length v), hv]
  ring

/-- Writing an aligned word changes the sum by the difference to what was there. -/
theorem wordSum_overwrite {c : List Byte} {p : Nat} (hp : 4 ∣ p) (h : p + 4 ≤ c.length)
    (v : BitVec 32) :
    wordSum (overwrite 0 c p (intBytes v)) = wordSum c - intAt c p + v := by
  have htake : (c.take p).length = p := List.length_take_of_le (by omega)
  have hslice : (slice c p 4).length = 4 := slice_length_of_le h
  have hcut := take_slice_drop c p 4
  have hblock := overwrite_block 0 (c.take p) (slice c p 4) (c.drop (p + 4))
    (d := intBytes v) (by rw [intBytes_length, hslice])
  have hword : intAt (slice c p 4) 0 = intAt c p := intAt_slice (by omega)
  rw [hcut, htake] at hblock
  rw [hblock, wordSum_replace (by rwa [htake]) hslice, hcut, hword]

end BigEndian
end I18nZh
