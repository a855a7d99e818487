import Mathlib.Data.Nat.Digits.Defs
import I18nZh.Java.Basic
import I18nZh.Lib.BigEndian

/-!
# Strings, charsets and decimal numbers

`getBytes` and `new String` for the two charsets the name table uses, and
`Integer.toString` and `Short.parseShort` for the attributes of the name XML.
-/

namespace I18nZh
namespace Java

open BigEndian

def isHighSurrogate (c : JChar) : Prop := 0xD800 ≤ c.toNat ∧ c.toNat ≤ 0xDBFF

def isLowSurrogate (c : JChar) : Prop := 0xDC00 ≤ c.toNat ∧ c.toNat ≤ 0xDFFF

def isSurrogate (c : JChar) : Prop := isHighSurrogate c ∨ isLowSurrogate c

instance (c : JChar) : Decidable (isHighSurrogate c) := inferInstanceAs (Decidable (_ ∧ _))

instance (c : JChar) : Decidable (isLowSurrogate c) := inferInstanceAs (Decidable (_ ∧ _))

instance (c : JChar) : Decidable (isSurrogate c) := inferInstanceAs (Decidable (_ ∨ _))

/-! ## ISO-8859-1 -/

/-- One char that is no part of a surrogate pair; `?` replaces what the charset
does not have. -/
def latin1Byte (c : JChar) : JByte := if c.toNat < 256 then c.setWidth 8 else 0x3F

/-- `getBytes("ISO-8859-1")`: a surrogate pair is one character. -/
def getBytesLatin1 : JString → Bytes
  | [] => []
  | [c] => [latin1Byte c]
  | c :: d :: rest =>
    if isHighSurrogate c ∧ isLowSurrogate d then 0x3F :: getBytesLatin1 rest
    else latin1Byte c :: getBytesLatin1 (d :: rest)

/-- `new String(bytes, "ISO-8859-1")` -/
def newStringLatin1 (bs : Bytes) : JString := bs.map fun b => b.setWidth 16

theorem latin1Byte_setWidth (b : JByte) : latin1Byte (b.setWidth 16) = b := by
  have hb := b.isLt
  have h : (b.setWidth 16).toNat = b.toNat := by
    rw [BitVec.toNat_setWidth, Nat.mod_eq_of_lt (by omega)]
  rw [latin1Byte, h, if_pos hb]
  refine BitVec.eq_of_toNat_eq ?_
  rw [BitVec.toNat_setWidth, h, Nat.mod_eq_of_lt hb]

theorem not_high_setWidth (b : JByte) : ¬ isHighSurrogate (b.setWidth 16) := by
  intro h
  have hb := b.isLt
  have h1 := h.1
  rw [BitVec.toNat_setWidth, Nat.mod_eq_of_lt (by omega)] at h1
  omega

/-- Every byte string survives decoding and encoding. -/
theorem getBytesLatin1_newString (bs : Bytes) : getBytesLatin1 (newStringLatin1 bs) = bs := by
  induction bs with
  | nil => rfl
  | cons b rest ih =>
    cases rest with
    | nil => simp [newStringLatin1, getBytesLatin1, latin1Byte_setWidth]
    | cons c rest =>
      have hstep : getBytesLatin1 (newStringLatin1 (b :: c :: rest)) =
          latin1Byte (b.setWidth 16) :: getBytesLatin1 (newStringLatin1 (c :: rest)) := by
        simp only [newStringLatin1, List.map_cons, getBytesLatin1]
        rw [if_neg fun h => not_high_setWidth b h.1]
      rw [hstep, ih, latin1Byte_setWidth]

/-- Only the characters below 256 survive encoding and decoding. -/
theorem newStringLatin1_getBytes_iff {s : JString} :
    newStringLatin1 (getBytesLatin1 s) = s ↔ ∀ c ∈ s, c.toNat < 256 := by
  constructor
  · intro h d hd
    rw [← h] at hd
    obtain ⟨b, _, rfl⟩ := List.mem_map.mp hd
    have hb := b.isLt
    rw [BitVec.toNat_setWidth, Nat.mod_eq_of_lt (by omega)]
    exact hb
  · intro h
    have hs : newStringLatin1 (s.map fun d => d.setWidth 8) = s := by
      rw [newStringLatin1, List.map_map]
      refine (List.map_congr_left fun d hd => ?_).trans (List.map_id s)
      have hlt := h d hd
      refine BitVec.eq_of_toNat_eq ?_
      show ((d.setWidth 8).setWidth 16).toNat = d.toNat
      rw [BitVec.toNat_setWidth, BitVec.toNat_setWidth, Nat.mod_eq_of_lt (a := d.toNat) hlt,
        Nat.mod_eq_of_lt (by omega)]
    have hback := getBytesLatin1_newString (s.map fun d => d.setWidth 8)
    rw [hs] at hback
    rw [hback, hs]

/-! ## UTF-16BE -/

/-- `getBytes("UTF-16BE")`: U+FFFD replaces a surrogate without its partner. -/
def getBytesUtf16 : JString → Bytes
  | [] => []
  | [c] => if isSurrogate c then [0xFF, 0xFD] else shortBytes c
  | c :: d :: rest =>
    if isHighSurrogate c ∧ isLowSurrogate d then
      shortBytes c ++ shortBytes d ++ getBytesUtf16 rest
    else if isSurrogate c then [0xFF, 0xFD] ++ getBytesUtf16 (d :: rest)
    else shortBytes c ++ getBytesUtf16 (d :: rest)

/-- `new String(bytes, "UTF-16BE")`: each malformed part becomes one U+FFFD. -/
def newStringUtf16 : Bytes → JString
  | [] => []
  | [_] => [0xFFFD]
  | [a, b] => if isSurrogate (a ++ b) then [0xFFFD] else [a ++ b]
  | [a, b, _] =>
    if isHighSurrogate (a ++ b) then [0xFFFD]
    else if isLowSurrogate (a ++ b) then [0xFFFD, 0xFFFD]
    else [a ++ b, 0xFFFD]
  | a :: b :: c :: d :: rest =>
    if isHighSurrogate (a ++ b) then
      if isLowSurrogate (c ++ d) then (a ++ b) :: (c ++ d) :: newStringUtf16 rest
      else 0xFFFD :: newStringUtf16 rest
    else if isLowSurrogate (a ++ b) then 0xFFFD :: newStringUtf16 (c :: d :: rest)
    else (a ++ b) :: newStringUtf16 (c :: d :: rest)

/-- Code units in which every surrogate stands in a pair. -/
inductive WellFormedUtf16 : JString → Prop where
  | nil : WellFormedUtf16 []
  | single {c : JChar} {rest : JString} :
      ¬ isSurrogate c → WellFormedUtf16 rest → WellFormedUtf16 (c :: rest)
  | pair {h l : JChar} {rest : JString} :
      isHighSurrogate h → isLowSurrogate l → WellFormedUtf16 rest →
      WellFormedUtf16 (h :: l :: rest)

theorem getBytesUtf16_of_wellFormed {s : JString} (h : WellFormedUtf16 s) :
    getBytesUtf16 s = s.flatMap shortBytes := by
  induction h with
  | nil => rfl
  | @single c rest hc _ ih =>
    have hh : ¬ isHighSurrogate c := fun h => hc (Or.inl h)
    cases rest with
    | nil => simp [getBytesUtf16, hc]
    | cons d rest =>
      rw [getBytesUtf16, if_neg fun h => hh h.1, if_neg hc, ih]
      rfl
  | @pair h l rest hh hl _ ih =>
    rw [getBytesUtf16, if_pos ⟨hh, hl⟩, ih]
    simp [List.append_assoc]

theorem append_extract (c : JChar) :
    (c.extractLsb' 8 8 ++ c.extractLsb' 0 8 : JChar) = c := shortAt_shortBytes c []

theorem newStringUtf16_of_wellFormed {s : JString} (h : WellFormedUtf16 s) :
    newStringUtf16 (s.flatMap shortBytes) = s := by
  induction h with
  | nil => rfl
  | @single c rest hc hrest ih =>
    have hh : ¬ isHighSurrogate c := fun h => hc (Or.inl h)
    have hl : ¬ isLowSurrogate c := fun h => hc (Or.inr h)
    cases rest with
    | nil =>
      show (if isSurrogate (c.extractLsb' 8 8 ++ c.extractLsb' 0 8 : JChar) then _ else _) = _
      rw [append_extract, if_neg hc]
    | cons d rest =>
      have hcons : ((c :: d :: rest).flatMap shortBytes) =
          c.extractLsb' 8 8 :: c.extractLsb' 0 8 :: d.extractLsb' 8 8 :: d.extractLsb' 0 8 ::
            rest.flatMap shortBytes := rfl
      rw [hcons, newStringUtf16, append_extract, if_neg hh, if_neg hl]
      exact congrArg (c :: ·) ih
  | @pair h l rest hh hl _ ih =>
    have hcons : ((h :: l :: rest).flatMap shortBytes) =
        h.extractLsb' 8 8 :: h.extractLsb' 0 8 :: l.extractLsb' 8 8 :: l.extractLsb' 0 8 ::
          rest.flatMap shortBytes := rfl
    rw [hcons, newStringUtf16, append_extract, append_extract, if_pos hh, if_pos hl, ih]

/-- Well-formed text survives encoding and decoding. -/
theorem newStringUtf16_getBytes {s : JString} (h : WellFormedUtf16 s) :
    newStringUtf16 (getBytesUtf16 s) = s := by
  rw [getBytesUtf16_of_wellFormed h, newStringUtf16_of_wellFormed h]

/-- The zeros of the decimal digits of the Basic Multilingual Plane. -/
def digitZeros : List Nat :=
  [0x0030, 0x0660, 0x06F0, 0x07C0, 0x0966, 0x09E6, 0x0A66, 0x0AE6, 0x0B66, 0x0BE6, 0x0C66,
    0x0CE6, 0x0D66, 0x0E50, 0x0ED0, 0x0F20, 0x1040, 0x1090, 0x17E0, 0x1810, 0x1946, 0x19D0,
    0x1A80, 0x1A90, 0x1B50, 0x1BB0, 0x1C40, 0x1C50, 0xA620, 0xA8D0, 0xA900, 0xA9D0, 0xAA50,
    0xABF0, 0xFF10]

/-- `Character.digit(c, 10)` -/
def digit (c : JChar) : Option Nat :=
  digitZeros.findSome? fun z =>
    if z ≤ c.toNat ∧ c.toNat < z + 10 then some (c.toNat - z) else none

def parseDigits (s : JString) : Option Nat :=
  s.foldl (fun acc c => acc.bind fun v => (digit c).map (10 * v + ·)) (some 0)

/-- `Short.parseShort`, of an attribute that may be missing. -/
def parseShort (s : Option JString) : JavaM JShort :=
  match s with
  | none => throw .numberFormat
  | some s =>
    let negative := s.head? = some 0x2D
    let body := if s.head? = some 0x2D ∨ s.head? = some 0x2B then s.tail else s
    if body = [] then throw .numberFormat
    else match parseDigits body with
      | none => throw .numberFormat
      | some v =>
        let n : Int := if negative then -v else v
        if -32768 ≤ n ∧ n ≤ 32767 then pure (BitVec.ofInt 16 n) else throw .numberFormat

def digitChar (d : Nat) : JChar := BitVec.ofNat 16 (0x30 + d)

def decimal (n : Nat) : JString :=
  if n = 0 then [0x30] else (Nat.digits 10 n).reverse.map digitChar

/-- `Integer.toString` -/
def integerToString (n : Int) : JString :=
  if n < 0 then 0x2D :: decimal n.natAbs else decimal n.natAbs

end Java
end I18nZh
