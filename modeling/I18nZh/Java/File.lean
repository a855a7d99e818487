import Mathlib.Algebra.GroupWithZero.Nat
import I18nZh.Java.Basic

/-!
# `RandomAccessFile`

A file is its content, a pointer, and a schedule.  `read` may deliver fewer
bytes than it is asked for, and the schedule decides: the first read that can
deliver `r` bytes delivers `schedule 0 r` of them, cut to the range from one to
`r`, the next one `schedule 1 r`, and so on.  Every sequence of short reads the
contract allows is given by some schedule, and a file on a local disk, where a
read stops short at the end of file only, is one that `Fills`.
-/

namespace I18nZh
namespace Java

open Storage

structure RandomAccessFile where
  content : Bytes
  pointer : Nat
  schedule : Nat → Nat → Nat

namespace RandomAccessFile

/-- A file as the constructor opens it. -/
def openFile (content : Bytes) (schedule : Nat → Nat → Nat) : RandomAccessFile :=
  { content := content, pointer := 0, schedule := schedule }

/-- The schedule of a file whose reads fill every request. -/
def filling : Nat → Nat → Nat := fun _ r => r

/-- Every read delivers all it is asked for, or all that is left. -/
def Fills (f : RandomAccessFile) : Prop := ∀ k r, r ≤ f.schedule k r

/-- The file after a read of `n` bytes. -/
def advance (f : RandomAccessFile) (n : Nat) : RandomAccessFile :=
  { f with pointer := f.pointer + n, schedule := fun k => f.schedule (k + 1) }

/-- `seek` -/
def seek (f : RandomAccessFile) (pos : JInt) : JavaM RandomAccessFile :=
  if pos.toInt < 0 then throw .ioException else pure { f with pointer := pos.toNat }

/-- `read(buf, off, len)`: the number of bytes read, or -1 at the end of file,
and the buffer with those bytes in it. -/
def read (f : RandomAccessFile) (buf : Bytes) (off len : JInt) :
    JavaM (JInt × Bytes × RandomAccessFile) :=
  if off.toInt < 0 ∨ len.toInt < 0 ∨ (buf.length : Int) < off.toInt + len.toInt then
    throw .arrayIndexOutOfBounds
  else
    let available := min len.toNat (f.content.length - f.pointer)
    if len.toNat = 0 then pure (0, buf, f)
    else if available = 0 then pure (-1, buf, f)
    else
      let n := min available (max 1 (f.schedule 0 available))
      pure (BitVec.ofNat 32 n, overwrite 0 buf off.toNat (slice f.content f.pointer n),
        f.advance n)

/-- `write(buf)`, and `writeInt`, `writeShort` and `write(int)` with the bytes
they write. -/
def write (f : RandomAccessFile) (d : Bytes) : RandomAccessFile :=
  { f with content := overwrite 0 f.content f.pointer d, pointer := f.pointer + d.length }

/-- `write(buf, off, len)` -/
def writeRange (f : RandomAccessFile) (buf : Bytes) (off len : JInt) :
    JavaM RandomAccessFile :=
  if off.toInt < 0 ∨ len.toInt < 0 ∨ (buf.length : Int) < off.toInt + len.toInt then
    throw .arrayIndexOutOfBounds
  else pure (f.write (slice buf off.toNat len.toNat))

/-- `length()`, a `long`. -/
def length (f : RandomAccessFile) : Nat := f.content.length

variable {f : RandomAccessFile}

@[simp] theorem advance_content (n : Nat) : (f.advance n).content = f.content := rfl

@[simp] theorem advance_pointer (n : Nat) : (f.advance n).pointer = f.pointer + n := rfl

theorem Fills.advance (h : f.Fills) (n : Nat) : (f.advance n).Fills := by
  intro k r
  exact h (k + 1) r

theorem Fills.of_schedule {g : RandomAccessFile} (h : f.Fills) (hs : g.schedule = f.schedule) :
    g.Fills := by
  intro k r
  rw [hs]
  exact h k r

theorem openFile_fills (content : Bytes) : (openFile content filling).Fills := by
  intro k r
  exact Nat.le_refl r

theorem seek_eq {pos : JInt} (h : pos.toNat < 2 ^ 31) :
    f.seek pos = .ok { f with pointer := pos.toNat } := by
  have := toInt_of_lt h
  exact if_neg (by omega)

theorem seek_error {pos : JInt} (h : pos.toInt < 0) : f.seek pos = .error .ioException := if_pos h

theorem writeRange_eq {buf : Bytes} {n : Nat} (hn : n ≤ buf.length) (hl : n < 2 ^ 31) :
    f.writeRange buf 0 (BitVec.ofNat 32 n) = .ok (f.write (buf.take n)) := by
  have h : (BitVec.ofNat 32 n).toInt = n := toInt_ofNat_of_lt hl
  have h0 : (0 : JInt).toInt = 0 := rfl
  rw [writeRange, h, h0, if_neg (by omega), toNat_ofNat_of_lt (by omega)]
  rfl

/-- The number of bytes a read of `len` delivers where the file has not ended. -/
def delivered (f : RandomAccessFile) (len : Nat) : Nat :=
  min (min len (f.content.length - f.pointer))
    (max 1 (f.schedule 0 (min len (f.content.length - f.pointer))))

theorem delivered_of_fills (h : f.Fills) (len : Nat) :
    f.delivered len = min len (f.content.length - f.pointer) := by
  have := h 0 (min len (f.content.length - f.pointer))
  rw [delivered]
  omega

section Read

variable (buf : Bytes) (len : JInt) (h0 : 0 < len.toNat) (hl : len.toNat < 2 ^ 31)
  (hb : len.toNat ≤ buf.length)

include h0 hl hb

theorem read_end (he : f.content.length ≤ f.pointer) : f.read buf 0 len = .ok (-1, buf, f) := by
  have hlen := toInt_of_lt hl
  have hz : (0 : JInt).toInt = 0 := rfl
  rw [read, hz, if_neg (by omega)]
  simp only
  rw [if_neg (by omega), if_pos (by omega)]
  rfl

theorem read_eq (he : f.pointer < f.content.length) :
    f.read buf 0 len = .ok (BitVec.ofNat 32 (f.delivered len.toNat),
      overwrite 0 buf 0 (slice f.content f.pointer (f.delivered len.toNat)),
      f.advance (f.delivered len.toNat)) := by
  have hlen := toInt_of_lt hl
  have hz : (0 : JInt).toInt = 0 := rfl
  rw [read, hz, if_neg (by omega)]
  simp only
  rw [if_neg (by omega), if_neg (by omega)]
  rfl

/-- What a read into a large enough buffer can do: it finds the end of file, or
it delivers between one and `len` bytes that are there, and if the file fills
requests it delivers all of them it can. -/
theorem read_cases :
    (f.content.length ≤ f.pointer ∧ f.read buf 0 len = .ok (-1, buf, f)) ∨
    ∃ n, 0 < n ∧ n ≤ len.toNat ∧ f.pointer + n ≤ f.content.length ∧
      n = f.delivered len.toNat ∧
      f.read buf 0 len =
        .ok (BitVec.ofNat 32 n, overwrite 0 buf 0 (slice f.content f.pointer n), f.advance n) := by
  by_cases he : f.content.length ≤ f.pointer
  · exact Or.inl ⟨he, read_end buf len h0 hl hb he⟩
  · have hn : f.delivered len.toNat = min (min len.toNat (f.content.length - f.pointer))
      (max 1 (f.schedule 0 (min len.toNat (f.content.length - f.pointer)))) := rfl
    exact Or.inr ⟨f.delivered len.toNat, by omega, by omega, by omega, rfl,
      read_eq buf len h0 hl hb (by omega)⟩

end Read

/-- A read that fills its request, whatever number it returns. -/
theorem read_fills (hf : f.Fills) (buf : Bytes) {len : JInt} (h0 : 0 < len.toNat)
    (hl : len.toNat < 2 ^ 31) (hb : len.toNat ≤ buf.length) :
    ∃ r g, f.read buf 0 len =
        .ok (r, overwrite 0 buf 0 (slice f.content f.pointer len.toNat), g) ∧
      g.content = f.content ∧
      g.pointer = f.pointer + (slice f.content f.pointer len.toNat).length ∧ g.Fills := by
  rcases read_cases (f := f) buf len h0 hl hb with ⟨he, hr⟩ | ⟨n, _, _, hn, hn', hr⟩
  · have hs : slice f.content f.pointer len.toNat = [] := slice_eq_nil_of_le he
    refine ⟨-1, f, ?_, rfl, ?_, hf⟩
    · rw [hr, hs, overwrite_nil]
    · rw [hs]
      rfl
  · rw [delivered_of_fills hf] at hn'
    have hs : slice f.content f.pointer n = slice f.content f.pointer len.toNat := by
      rw [slice, slice, List.take_eq_take_iff, List.length_drop]
      omega
    refine ⟨BitVec.ofNat 32 n, f.advance n, by rw [hr, hs], rfl, ?_, hf.advance n⟩
    rw [advance_pointer, slice_length]
    omega

/-! ## Reading a range -/

/-- The numbers of bytes that reads of `n` bytes deliver under a schedule, into
a buffer of `cap` bytes, if the file holds them. -/
def readSizes (cap : Nat) (schedule : Nat → Nat → Nat) (n : Nat) : List Nat :=
  if n = 0 then []
  else
    let k := max 1 (min (min cap n) (schedule 0 (min cap n)))
    k :: readSizes cap (fun i => schedule (i + 1)) (n - k)
termination_by n
decreasing_by omega

theorem readSizes_zero (cap : Nat) (schedule : Nat → Nat → Nat) :
    readSizes cap schedule 0 = [] := by
  rw [readSizes, if_pos rfl]

theorem readSizes_pos {cap : Nat} {schedule : Nat → Nat → Nat} {n : Nat} (hn : 0 < n) :
    readSizes cap schedule n =
      max 1 (min (min cap n) (schedule 0 (min cap n))) ::
        readSizes cap (fun i => schedule (i + 1))
          (n - max 1 (min (min cap n) (schedule 0 (min cap n)))) := by
  rw [readSizes, if_neg (by omega)]

/-- The sizes are those of the reads of the file, one after the other. -/
theorem readSizes_delivered (cap n : Nat) (hcap : 0 < cap)
    (hn : 0 < min n (f.content.length - f.pointer)) :
    readSizes cap f.schedule (min n (f.content.length - f.pointer)) =
      f.delivered (min cap n) ::
        readSizes cap (f.advance (f.delivered (min cap n))).schedule
          (min (n - f.delivered (min cap n))
            ((f.advance (f.delivered (min cap n))).content.length -
              (f.advance (f.delivered (min cap n))).pointer)) := by
  have hreq : min cap (min n (f.content.length - f.pointer)) =
      min (min cap n) (f.content.length - f.pointer) := by omega
  have hk : max 1 (min (min cap (min n (f.content.length - f.pointer)))
      (f.schedule 0 (min cap (min n (f.content.length - f.pointer))))) =
      f.delivered (min cap n) := by
    rw [hreq, delivered]
    omega
  rw [readSizes_pos hn, hk, advance_content, advance_pointer]
  congr 2
  omega

theorem readSizes_mem_pos (cap : Nat) : ∀ (n : Nat) (schedule : Nat → Nat → Nat),
    ∀ k ∈ readSizes cap schedule n, 0 < k := by
  intro n
  induction n using Nat.strongRecOn with
  | ind n ih =>
    intro schedule k hk
    by_cases hn : n = 0
    · rw [hn, readSizes_zero] at hk
      cases hk
    · rw [readSizes_pos (by omega)] at hk
      rcases List.mem_cons.mp hk with rfl | hk
      · omega
      · exact ih _ (by omega) _ k hk

theorem readSizes_sum {cap : Nat} (hcap : 0 < cap) : ∀ (n : Nat) (schedule : Nat → Nat → Nat),
    (readSizes cap schedule n).sum = n := by
  intro n
  induction n using Nat.strongRecOn with
  | ind n ih =>
    intro schedule
    by_cases hn : n = 0
    · rw [hn, readSizes_zero]
      rfl
    · rw [readSizes_pos (by omega), List.sum_cons, ih _ (by omega)]
      omega

/-- Reads that fill their requests deliver whole buffers until the last one, and
one read is enough for a range that fits into the buffer. -/
theorem readSizes_filling {cap : Nat} (hcap : 0 < cap) : ∀ (n : Nat) (schedule : Nat → Nat → Nat),
    (∀ k r, r ≤ schedule k r) →
    ∀ k ∈ (readSizes cap schedule n).dropLast, k = cap ∧ cap < n := by
  intro n
  induction n using Nat.strongRecOn with
  | ind n ih =>
    intro schedule hs k hk
    by_cases hn : n = 0
    · rw [hn, readSizes_zero] at hk
      cases hk
    · have h0 := hs 0 (min cap n)
      rw [readSizes_pos (by omega)] at hk
      by_cases hlast : n ≤ cap
      · rw [show n - max 1 (min (min cap n) (schedule 0 (min cap n))) = 0 by omega,
          readSizes_zero] at hk
        cases hk
      · have hne : readSizes cap (fun i => schedule (i + 1))
            (n - max 1 (min (min cap n) (schedule 0 (min cap n)))) ≠ [] := by
          rw [readSizes_pos (by omega)]
          exact List.cons_ne_nil _ _
        rw [List.dropLast_cons_of_ne_nil hne] at hk
        rcases List.mem_cons.mp hk with rfl | hk
        · omega
        · have hk' := ih _ (by omega) _ (fun k r => hs (k + 1) r) k hk
          omega

end RandomAccessFile
end Java
end I18nZh
