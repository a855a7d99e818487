import I18nZh.Otf.Codec

/-!
# The codecs undo each other

A number that was written is read again, a number that was read is written back without
a change, and what is read is the number that the bytes make from the highest to the
lowest, whatever their signs.
-/

namespace I18nZh
namespace Otf
namespace Tookit

open Java Storage BigEndian

/-- A reading and a writing of `n` bytes at one place of an array. -/
structure Inverse {w : Nat} (n : Nat) (read : Bytes → JInt → JavaM (BitVec w))
    (write : BitVec w → Bytes → JInt → JavaM Bytes) (buf : Bytes) (offset : JInt) : Prop where
  /-- What is written can be read, and no other byte changes. -/
  read_write : ∀ v, ∃ buf', write v buf offset = .ok buf' ∧ read buf' offset = .ok v ∧
    buf'.length = buf.length ∧ buf'.take offset.toNat = buf.take offset.toNat ∧
    buf'.drop (offset.toNat + n) = buf.drop (offset.toNat + n)
  /-- What is read stands there from the highest byte to the lowest, and writing it
  changes nothing. -/
  write_read : ∃ v, read buf offset = .ok v ∧
    v.toNat = bigEndian (slice buf offset.toNat n) ∧ write v buf offset = .ok buf

section

variable {buf : Bytes} {offset : JInt}

/-- A number is read as `value`, and written as its `bytes`. -/
theorem inverse_of_bytes {w n : Nat} {read : Bytes → JInt → JavaM (BitVec w)}
    {write : BitVec w → Bytes → JInt → JavaM Bytes} {value : Bytes → Nat → BitVec w}
    {bytes : BitVec w → Bytes} (h : offset.toNat + n ≤ buf.length)
    (hbytes : ∀ v, (bytes v).length = n)
    (hread : ∀ c, c.length = buf.length → read c offset = .ok (value c offset.toNat))
    (hwrite : ∀ v, write v buf offset = .ok (overwrite 0 buf offset.toNat (bytes v)))
    (hover : ∀ v, value (overwrite 0 buf offset.toNat (bytes v)) offset.toNat = v)
    (hself : bytes (value buf offset.toNat) = slice buf offset.toNat n)
    (hnat : (value buf offset.toNat).toNat = bigEndian (slice buf offset.toNat n)) :
    Inverse n read write buf offset := by
  constructor
  · intro v
    have hlen : (overwrite 0 buf offset.toNat (bytes v)).length = buf.length :=
      overwrite_length_of_le 0 (by rw [hbytes]; exact h)
    have htake := take_overwrite 0 (bytes v) (p := offset.toNat) (c := buf) (by omega)
    have hdrop := drop_overwrite 0 (bytes v) (p := offset.toNat) (c := buf) (by omega)
    rw [hbytes] at hdrop
    refine ⟨_, hwrite v, ?_, hlen, htake, hdrop⟩
    rw [hread _ hlen, hover]
  · refine ⟨_, hread buf rfl, hnat, ?_⟩
    rw [hwrite, overwrite_self 0]
    rw [hbytes, hself]

theorem short_inverse (hb : buf.length < 2 ^ 31) (h : offset.toNat + 2 ≤ buf.length) :
    Inverse 2 toShort toBytesShort buf offset := by
  refine inverse_of_bytes h shortBytes_length ?_ ?_ (fun v => shortAt_overwrite v buf _)
    (shortBytes_shortAt h) (shortAt_toNat h)
  · intro c hc
    rw [← toShort_eq (by omega) (by omega), ofNat_toNat_self]
  · intro v
    rw [← toBytesShort_eq v h (by omega), ofNat_toNat_self]

theorem int_inverse (hb : buf.length < 2 ^ 31) (h : offset.toNat + 4 ≤ buf.length) :
    Inverse 4 toInteger toBytesInt buf offset := by
  refine inverse_of_bytes h intBytes_length ?_ ?_ (fun v => intAt_overwrite v buf _)
    (intBytes_intAt h) (intAt_toNat h)
  · intro c hc
    rw [← toInteger_eq (by omega) (by omega), ofNat_toNat_self]
  · intro v
    rw [← toBytesInt_eq v h (by omega), ofNat_toNat_self]

/-- The three readings and the two writings, wherever they are in the array. -/
theorem codecs_inverse (hb : buf.length < 2 ^ 31) (ho : 0 ≤ offset.toInt) :
    (offset.toInt + 2 ≤ buf.length → Inverse 2 toShort toBytesShort buf offset) ∧
      (offset.toInt + 4 ≤ buf.length → Inverse 4 toInteger toBytesInt buf offset) ∧
      (offset.toInt + 8 ≤ buf.length → ∃ v, toLong buf offset = .ok v ∧
        v.toInt = (bigEndian (slice buf offset.toNat 8) : Int).bmod (2 ^ 64)) := by
  have hoffset := toInt_of_lt (toInt_nonneg_iff.mp ho)
  rw [hoffset]
  refine ⟨fun h => short_inverse hb (by omega), fun h => int_inverse hb (by omega), ?_⟩
  intro h
  refine ⟨intAt buf offset.toNat ++ intAt buf (offset.toNat + 4), ?_, ?_⟩
  · rw [← toLong_eq (by omega) (by omega), ofNat_toNat_self]
  · rw [BitVec.toInt_eq_toNat_bmod, longAt_toNat (by omega)]

/-- Eight bytes with and without a sign, from the second byte on. -/
theorem codecs_inverse_mixed :
    ∃ v, toLong [0, 0xFF, 0xFE, 0x01, 0x80, 0x7F, 0xFF, 0x00, 0x90] 1 = .ok v ∧
      v.toInt = -561298538561392 ∧
      Inverse 2 toShort toBytesShort [0, 0xFF, 0xFE, 0x01, 0x80, 0x7F, 0xFF, 0x00, 0x90] 1 ∧
      Inverse 4 toInteger toBytesInt [0, 0xFF, 0xFE, 0x01, 0x80, 0x7F, 0xFF, 0x00, 0x90] 1 := by
  have hb : ([0, 0xFF, 0xFE, 0x01, 0x80, 0x7F, 0xFF, 0x00, 0x90] : Bytes).length < 2 ^ 31 := by
    decide
  have ho : 0 ≤ (1 : JInt).toInt := by decide
  obtain ⟨hshort, hint, hlong⟩ := codecs_inverse hb ho
  obtain ⟨v, hread, hv⟩ := hlong (by decide)
  refine ⟨v, hread, ?_, hshort (by decide), hint (by decide)⟩
  rw [hv]
  simp [bigEndian, slice, Int.bmod_def]

end

end Tookit
end Otf
end I18nZh
