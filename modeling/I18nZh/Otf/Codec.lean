import Mathlib.Tactic.IntervalCases
import I18nZh.Lib.BigEndian
import I18nZh.Otf.Pojo

/-!
# The codecs of `Tookit`

`toShort`, `toInteger`, `toLong` and the two `toBytes` with their shifts and
masks on sign-extended bytes, and the getters built on them.  Each agrees with
the plain big-endian reading `shortAt`, `intAt` wherever it does not throw.
-/

namespace I18nZh
namespace Otf

open Java Storage BigEndian

namespace Tookit

def toShort (table : Bytes) (offset : JInt) : JavaM JShort := do
  let a ← arrayGet table (0 + offset)
  let b ← arrayGet table (1 + offset)
  return ((a.signExtend 32 <<< 8) ||| (b.signExtend 32 &&& 0xFF#32)).setWidth 16

/-- `toBytes(short, byte[], int)` -/
def toBytesShort (value : JShort) (buf : Bytes) (offset : JInt) : JavaM Bytes := do
  let buf ← arraySet buf offset (((value.signExtend 32).sshiftRight 8).setWidth 8)
  arraySet buf (offset + 1) (value.setWidth 8)

def toInteger (table : Bytes) (offset : JInt) : JavaM JInt := do
  let a ← arrayGet table (0 + offset)
  let b ← arrayGet table (1 + offset)
  let c ← arrayGet table (2 + offset)
  let d ← arrayGet table (3 + offset)
  return (a.signExtend 32 <<< 24) ||| ((b.signExtend 32 <<< 16) &&& 0xFF0000#32) |||
    ((c.signExtend 32 <<< 8) &&& 0xFF00#32) ||| (d.signExtend 32 &&& 0xFF#32)

/-- `toBytes(int, byte[], int)` -/
def toBytesInt (value : JInt) (buf : Bytes) (offset : JInt) : JavaM Bytes := do
  let buf ← arraySet buf offset ((value.sshiftRight 24).setWidth 8)
  let buf ← arraySet buf (offset + 1) ((value.sshiftRight 16).setWidth 8)
  let buf ← arraySet buf (offset + 2) ((value.sshiftRight 8).setWidth 8)
  arraySet buf (offset + 3) (value.setWidth 8)

def toLong (table : Bytes) (offset : JInt) : JavaM JLong := do
  let a ← toInteger table offset
  let b ← toInteger table (offset + 4)
  return (a.signExtend 64 <<< 32) ||| (b.signExtend 64 &&& 0xFFFFFFFF#64)

def toTag (value : JInt) : JString :=
  [(0xFF#32 &&& value.sshiftRight 24).setWidth 16,
    (0xFF#32 &&& value.sshiftRight 16).setWidth 16,
    (0xFF#32 &&& value.sshiftRight 8).setWidth 16, (0xFF#32 &&& value).setWidth 16]

def getOffsetTable (buf : Bytes) (offset : JInt) : JavaM OffsetTable := do
  let sfnt ← toInteger buf offset
  let numTables ← toShort buf (offset + 4)
  let searchRange ← toShort buf (offset + 6)
  let entrySelector ← toShort buf (offset + 8)
  let rangeShift ← toShort buf (offset + 10)
  return { sfnt, numTables, searchRange, entrySelector, rangeShift }

def getTableDirectory (buf : Bytes) (offset : JInt) : JavaM TableDirectory := do
  let tag ← toInteger buf offset
  let checkSum ← toInteger buf (offset + 4)
  let tableOffset ← toInteger buf (offset + 8)
  let length ← toInteger buf (offset + 12)
  return { tag, checkSum, offset := tableOffset, length }

def getFontHeader (buf : Bytes) (offset : JInt) : JavaM FontHeader := do
  let tableRevision ← toInteger buf offset
  let fontRevision ← toInteger buf (offset + 4)
  let checkSumAdjustment ← toInteger buf (offset + 8)
  let magicNumber ← toInteger buf (offset + 12)
  let flags ← toShort buf (offset + 16)
  let unitsPerEm ← toShort buf (offset + 18)
  let created ← toLong buf (offset + 20)
  let modified ← toLong buf (offset + 28)
  let xMin ← toShort buf (offset + 36)
  let yMin ← toShort buf (offset + 38)
  let xMax ← toShort buf (offset + 40)
  let yMax ← toShort buf (offset + 42)
  let macStyle ← toShort buf (offset + 44)
  let lowestRecPPEM ← toShort buf (offset + 46)
  let fontDirectionHint ← toShort buf (offset + 48)
  let indexToLocFormat ← toShort buf (offset + 50)
  let glyphDataFormat ← toShort buf (offset + 52)
  return ⟨tableRevision, fontRevision, checkSumAdjustment, magicNumber, flags, unitsPerEm,
    created, modified, xMin, yMin, xMax, yMax, macStyle, lowestRecPPEM, fontDirectionHint,
    indexToLocFormat, glyphDataFormat⟩

def getNameHeader (buf : Bytes) (offset : JInt) : JavaM NameHeader := do
  let format ← toShort buf offset
  let count ← toShort buf (offset + 2)
  let stringOffset ← toShort buf (offset + 4)
  return { format, count, stringOffset }

def getNameRecord (buf : Bytes) (offset : JInt) : JavaM RawNameRecord := do
  let platformID ← toShort buf offset
  let encodingID ← toShort buf (offset + 2)
  let languageID ← toShort buf (offset + 4)
  let nameID ← toShort buf (offset + 6)
  let length ← toShort buf (offset + 8)
  let stringOffset ← toShort buf (offset + 10)
  return { platformID, encodingID, languageID, nameID, length, offset := stringOffset }

/-! ## The shifts and masks -/

theorem shortExpr_eq (a b : JByte) :
    ((a.signExtend 32 <<< 8) ||| (b.signExtend 32 &&& 0xFF#32)).setWidth 16 =
      (a ++ b : JShort) := by
  refine BitVec.eq_of_getLsbD_eq fun i hi => ?_
  rw [BitVec.getLsbD_append]
  interval_cases i <;> simp [BitVec.getElem_signExtend]

theorem intExpr_eq (a b c d : JByte) :
    (a.signExtend 32 <<< 24) ||| ((b.signExtend 32 <<< 16) &&& 0xFF0000#32) |||
      ((c.signExtend 32 <<< 8) &&& 0xFF00#32) ||| (d.signExtend 32 &&& 0xFF#32) =
      (a ++ b ++ c ++ d : JInt) := by
  refine BitVec.eq_of_getLsbD_eq fun i hi => ?_
  rw [BitVec.getLsbD_append, BitVec.getLsbD_append, BitVec.getLsbD_append]
  interval_cases i <;> simp [BitVec.getElem_signExtend]

theorem longExpr_eq (a b : JInt) :
    (a.signExtend 64 <<< 32) ||| (b.signExtend 64 &&& 0xFFFFFFFF#64) = (a ++ b : JLong) := by
  refine BitVec.eq_of_getLsbD_eq fun i hi => ?_
  rw [BitVec.getLsbD_append]
  interval_cases i <;> simp [BitVec.getElem_signExtend]

theorem shortHigh_eq (v : JShort) :
    ((v.signExtend 32).sshiftRight 8).setWidth 8 = v.extractLsb' 8 8 := by
  refine BitVec.eq_of_getLsbD_eq fun i hi => ?_
  interval_cases i <;> simp [BitVec.getElem_sshiftRight, BitVec.getElem_signExtend]

theorem intByte_eq (v : JInt) {s : Nat} (hs : s + 8 ≤ 32) :
    (v.sshiftRight s).setWidth 8 = v.extractLsb' s 8 := by
  refine BitVec.eq_of_getLsbD_eq fun i hi => ?_
  have h : s + i < 32 := by omega
  simp [BitVec.getLsbD_sshiftRight, hi, h]
  omega

theorem tagChar_eq (v : JInt) {s : Nat} (hs : s + 8 ≤ 32) :
    (0xFF#32 &&& v.sshiftRight s).setWidth 16 = (v.extractLsb' s 8).setWidth 16 := by
  have h : 0xFF#32 &&& v.sshiftRight s = ((v.sshiftRight s).setWidth 8).setWidth 32 := by
    refine BitVec.eq_of_getLsbD_eq fun i hi => ?_
    interval_cases i <;> simp
  rw [h, intByte_eq v hs, BitVec.setWidth_setWidth_of_le _ (by decide)]

/-! ## Agreement with the plain readings -/

section Reading

variable {buf : Bytes} {k : Nat}

theorem add_ofNat (k m : Nat) : BitVec.ofNat 32 k + BitVec.ofNat 32 m = BitVec.ofNat 32 (k + m) :=
  BitVec.ofNat_add_ofNat k m

theorem ofNat_succ_sub (k : Nat) : BitVec.ofNat 32 (k + 1) - 1 = BitVec.ofNat 32 k := by
  have h : BitVec.ofNat 32 (k + 1) = BitVec.ofNat 32 k + 1 := (add_ofNat k 1).symm
  rw [h, BitVec.add_sub_cancel]

theorem arrayGet_eq_getD (hk : k < buf.length) (hl : k < 2 ^ 31) :
    arrayGet buf (BitVec.ofNat 32 k) = .ok (buf.getD k 0) := by
  rw [arrayGet_of_lt hk hl, List.getD_eq_getElem _ _ hk]

theorem toShort_eq (hk : k + 2 ≤ buf.length) (hl : k + 2 ≤ 2 ^ 31) :
    toShort buf (BitVec.ofNat 32 k) = .ok (shortAt buf k) := by
  simp only [toShort, BitVec.ofNat_eq_ofNat, add_ofNat, Nat.zero_add, Nat.add_comm 1]
  rw [arrayGet_eq_getD (by omega) (by omega), arrayGet_eq_getD (by omega) (by omega)]
  simp only [bind, Except.bind, pure, Except.pure, shortExpr_eq, shortAt]

theorem toInteger_eq (hk : k + 4 ≤ buf.length) (hl : k + 4 ≤ 2 ^ 31) :
    toInteger buf (BitVec.ofNat 32 k) = .ok (intAt buf k) := by
  simp only [toInteger, BitVec.ofNat_eq_ofNat, add_ofNat, Nat.add_zero,
    Nat.add_comm _ k]
  rw [arrayGet_eq_getD (by omega) (by omega), arrayGet_eq_getD (by omega) (by omega),
    arrayGet_eq_getD (by omega) (by omega), arrayGet_eq_getD (by omega) (by omega)]
  simp only [bind, Except.bind, pure, Except.pure, intExpr_eq, intAt]

theorem toLong_eq (hk : k + 8 ≤ buf.length) (hl : k + 8 ≤ 2 ^ 31) :
    toLong buf (BitVec.ofNat 32 k) = .ok (intAt buf k ++ intAt buf (k + 4)) := by
  simp only [toLong, BitVec.ofNat_eq_ofNat, add_ofNat]
  rw [toInteger_eq (by omega) (by omega), toInteger_eq (by omega) (by omega)]
  simp only [bind, Except.bind, pure, Except.pure, longExpr_eq]

/-- The offset table at the start of a font. -/
def offsetTableOf (bs : Bytes) : OffsetTable :=
  { sfnt := intAt bs 0, numTables := shortAt bs 4, searchRange := shortAt bs 6,
    entrySelector := shortAt bs 8, rangeShift := shortAt bs 10 }

/-- The directory entry at `k`. -/
def tableDirectoryAt (bs : Bytes) (k : Nat) : TableDirectory :=
  { tag := intAt bs k, checkSum := intAt bs (k + 4), offset := intAt bs (k + 8),
    length := intAt bs (k + 12) }

/-- The header at the start of a name table. -/
def nameHeaderOf (bs : Bytes) : NameHeader :=
  { format := shortAt bs 0, count := shortAt bs 2, stringOffset := shortAt bs 4 }

/-- The name record at `k`. -/
def nameRecordAt (bs : Bytes) (k : Nat) : RawNameRecord :=
  { platformID := shortAt bs k, encodingID := shortAt bs (k + 2),
    languageID := shortAt bs (k + 4), nameID := shortAt bs (k + 6),
    length := shortAt bs (k + 8), offset := shortAt bs (k + 10) }

theorem getOffsetTable_eq (h : 12 ≤ buf.length) :
    getOffsetTable buf 0 = .ok (offsetTableOf buf) := by
  simp only [getOffsetTable, BitVec.ofNat_eq_ofNat, add_ofNat, Nat.zero_add]
  rw [toInteger_eq (by omega) (by omega), toShort_eq (by omega) (by omega),
    toShort_eq (by omega) (by omega), toShort_eq (by omega) (by omega),
    toShort_eq (by omega) (by omega)]
  rfl

theorem getTableDirectory_eq (h : 16 ≤ buf.length) :
    getTableDirectory buf 0 = .ok (tableDirectoryAt buf 0) := by
  simp only [getTableDirectory, BitVec.ofNat_eq_ofNat, add_ofNat, Nat.zero_add]
  rw [toInteger_eq (by omega) (by omega), toInteger_eq (by omega) (by omega),
    toInteger_eq (by omega) (by omega), toInteger_eq (by omega) (by omega)]
  rfl

theorem getNameHeader_eq (h : 6 ≤ buf.length) : getNameHeader buf 0 = .ok (nameHeaderOf buf) := by
  simp only [getNameHeader, BitVec.ofNat_eq_ofNat, add_ofNat, Nat.zero_add]
  rw [toShort_eq (by omega) (by omega), toShort_eq (by omega) (by omega),
    toShort_eq (by omega) (by omega)]
  rfl

theorem getNameRecord_eq (h : k + 12 ≤ buf.length) (hl : k + 12 ≤ 2 ^ 31) :
    getNameRecord buf (BitVec.ofNat 32 k) = .ok (nameRecordAt buf k) := by
  simp only [getNameRecord, BitVec.ofNat_eq_ofNat, add_ofNat]
  rw [toShort_eq (by omega) (by omega), toShort_eq (by omega) (by omega),
    toShort_eq (by omega) (by omega), toShort_eq (by omega) (by omega),
    toShort_eq (by omega) (by omega), toShort_eq (by omega) (by omega)]
  rfl

theorem getFontHeader_adjustment (h : 54 ≤ buf.length) :
    ∃ fh, getFontHeader buf 0 = .ok fh ∧ fh.checkSumAdjustment = intAt buf 8 := by
  simp only [getFontHeader, BitVec.ofNat_eq_ofNat, add_ofNat, Nat.zero_add]
  rw [toInteger_eq (by omega) (by omega), toInteger_eq (by omega) (by omega),
    toInteger_eq (by omega) (by omega), toInteger_eq (by omega) (by omega),
    toShort_eq (by omega) (by omega), toShort_eq (by omega) (by omega),
    toLong_eq (by omega) (by omega), toLong_eq (by omega) (by omega),
    toShort_eq (by omega) (by omega), toShort_eq (by omega) (by omega),
    toShort_eq (by omega) (by omega), toShort_eq (by omega) (by omega),
    toShort_eq (by omega) (by omega), toShort_eq (by omega) (by omega),
    toShort_eq (by omega) (by omega), toShort_eq (by omega) (by omega),
    toShort_eq (by omega) (by omega)]
  exact ⟨_, rfl, rfl⟩

end Reading

/-! ## Writing -/

section Writing

variable {buf : Bytes} {k : Nat}

/-- A byte stored behind what has been written. -/
theorem arraySet_after {d : Bytes} {n : Nat} (x : JByte) (hd : d.length = n)
    (h : k + n < buf.length) (hl : k + n < 2 ^ 31) :
    arraySet (overwrite 0 buf k d) (BitVec.ofNat 32 (k + n)) x =
      .ok (overwrite 0 buf k (d ++ [x])) := by
  have hlen : (overwrite 0 buf k d).length = buf.length := overwrite_length_of_le 0 (by omega)
  rw [arraySet_of_lt x (by omega) hl, set_eq_overwrite 0 x (by omega), ← hd, overwrite_append]

theorem arraySet_first (x : JByte) (h : k < buf.length) (hl : k < 2 ^ 31) :
    arraySet buf (BitVec.ofNat 32 k) x = .ok (overwrite 0 buf k [x]) := by
  rw [arraySet_of_lt x h hl, set_eq_overwrite 0 x h]

theorem toBytesShort_eq (v : JShort) (h : k + 2 ≤ buf.length) (hl : k + 2 ≤ 2 ^ 31) :
    toBytesShort v buf (BitVec.ofNat 32 k) = .ok (overwrite 0 buf k (shortBytes v)) := by
  simp only [toBytesShort, BitVec.ofNat_eq_ofNat, add_ofNat]
  rw [arraySet_first _ (by omega) (by omega), ok_bind,
    arraySet_after _ (by rfl) (by omega) (by omega), shortHigh_eq,
    BitVec.setWidth_eq_extractLsb' (by decide)]
  rfl

theorem toBytesInt_eq (v : JInt) (h : k + 4 ≤ buf.length) (hl : k + 4 ≤ 2 ^ 31) :
    toBytesInt v buf (BitVec.ofNat 32 k) = .ok (overwrite 0 buf k (intBytes v)) := by
  simp only [toBytesInt, BitVec.ofNat_eq_ofNat, add_ofNat]
  rw [arraySet_first _ (by omega) (by omega), ok_bind,
    arraySet_after _ (by rfl) (by omega) (by omega), ok_bind,
    arraySet_after _ (by rfl) (by omega) (by omega), ok_bind,
    arraySet_after _ (by rfl) (by omega) (by omega), intByte_eq v (by decide),
    intByte_eq v (by decide), intByte_eq v (by decide),
    BitVec.setWidth_eq_extractLsb' (by decide)]
  rfl

/-- Past the end of the buffer the store throws. -/
theorem toBytesShort_error (v : JShort) (h : buf.length < k + 2) (hl : k + 2 ≤ 2 ^ 31) :
    toBytesShort v buf (BitVec.ofNat 32 k) = .error .arrayIndexOutOfBounds := by
  simp only [toBytesShort, BitVec.ofNat_eq_ofNat, add_ofNat]
  by_cases hk : k < buf.length
  · rw [arraySet_of_lt _ hk (by omega)]
    simp only [bind, Except.bind]
    rw [arraySet_error_of_le _ (by rw [List.length_set]; omega) (by omega)]
  · rw [arraySet_error_of_le _ (by omega) (by omega)]
    rfl

end Writing

/-! ## Tags -/

theorem toTag_eq (v : JInt) : toTag v = (intBytes v).map fun b => b.setWidth 16 := by
  have h0 : (0xFF#32 &&& v).setWidth 16 = (v.extractLsb' 0 8).setWidth 16 := by
    rw [← tagChar_eq v (s := 0) (by decide), BitVec.sshiftRight_zero]
  simp only [toTag, intBytes, List.map_cons, List.map_nil]
  rw [tagChar_eq v (by decide), tagChar_eq v (by decide), tagChar_eq v (by decide), h0]

/-- A tag is determined by its four characters. -/
theorem toTag_injective {v w : JInt} (h : toTag v = toTag w) : v = w := by
  have hinj (a b : JByte) (hab : a.setWidth 16 = b.setWidth 16) : a = b := by
    have := congrArg (BitVec.setWidth 8) hab
    simpa using this
  rw [toTag_eq, toTag_eq] at h
  have hb : intBytes v = intBytes w := List.map_injective_iff.mpr hinj h
  rw [← intAt_intBytes v [], hb, intAt_intBytes]

end Tookit
end Otf
end I18nZh
