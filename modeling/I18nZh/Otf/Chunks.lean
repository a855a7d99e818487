import Mathlib.Data.Nat.Log
import I18nZh.Java.File
import I18nZh.Otf.Codec

/-!
# Checksums and chunked copies

The two `calcTableChecksum`, `copyTo` and `updateOffsetTable` of `Tookit`.  The
loops run on a fuel that each caller sets high enough, so that running out of it
never happens where the Java loop stops.
-/

namespace I18nZh
namespace Otf

open Java Storage BigEndian RandomAccessFile WeightedSum

namespace Tookit

/-- `Math.min` -/
def mathMin (a b : JInt) : JInt := if a.toInt ≤ b.toInt then a else b

/-- `while(n < length) { sum += toInteger(table, offset + n); n += 4; }` -/
def sumLoop (table : Bytes) (offset length : JInt) : Nat → JInt → JInt → JavaM JInt
  | 0, _, _ => throw .outOfFuel
  | fuel + 1, n, sum =>
    if n.toInt < length.toInt then do
      let v ← toInteger table (offset + n)
      sumLoop table offset length fuel (n + 4) (sum + v)
    else return sum

/-- `calcTableChecksum(byte[], int, int)` -/
def calcTableChecksum (table : Bytes) (offset length : JInt) : JavaM JInt :=
  if length.toInt.tmod 4 ≠ 0 then do
    let buf ← newArray 0 ((length + 3) &&& ~~~3#32)
    let buf ← arraycopy table 0 buf 0 length
    sumLoop buf offset length (length.toNat / 4 + 2) 0 0
  else sumLoop table offset length (length.toNat / 4 + 2) 0 0

/-- The loop over the chunks of a file range. -/
def fileSumLoop : Nat → RandomAccessFile → Bytes → JInt → JInt →
    JavaM (JInt × RandomAccessFile)
  | 0, _, _, _, _ => throw .outOfFuel
  | fuel + 1, file, buf, length, sum =>
    if 0 < length.toInt then do
      let (n, buf, file) ← file.read buf 0 (mathMin (BitVec.ofNat 32 buf.length) length)
      -- The source prints "EOF" and leaves the loop.
      if n.toInt < 0 then return (sum, file)
      let v ← calcTableChecksum buf 0 n
      fileSumLoop fuel file buf (length - n) (sum + v)
    else return (sum, file)

/-- `calcTableChecksum(RandomAccessFile, int, int)` -/
def calcTableChecksumFile (file : RandomAccessFile) (offset length : JInt) :
    JavaM (JInt × RandomAccessFile) := do
  let buf ← newArray 0 (mathMin 65536#32 length)
  let file ← file.seek offset
  fileSumLoop (length.toNat + 1) file buf length 0

/-- The loop of `copyTo`. -/
def copyLoop : Nat → RandomAccessFile → RandomAccessFile → Bytes → JInt →
    JavaM (RandomAccessFile × RandomAccessFile)
  | 0, _, _, _, _ => throw .outOfFuel
  | fuel + 1, src, dst, buf, length =>
    if 0 < length.toInt then do
      let (n, buf, src) ← src.read buf 0 (mathMin (BitVec.ofNat 32 buf.length) length)
      -- The source prints "EOF" and leaves the loop.
      if n.toInt < 0 then return (src, dst)
      let dst ← dst.writeRange buf 0 n
      copyLoop fuel src dst buf (length - n)
    else return (src, dst)

def copyTo (src : RandomAccessFile) (offset : JInt) (dst : RandomAccessFile)
    (dstOffset length : JInt) : JavaM (RandomAccessFile × RandomAccessFile) := do
  let buf ← newArray 0 (mathMin 65536#32 length)
  let src ← src.seek offset
  let dst ← dst.seek dstOffset
  copyLoop (length.toNat + 1) src dst buf length

/-- `while(v < n) { i ++; v *= 2; }` -/
def doubleLoop (n : JInt) : Nat → JInt → JInt → JavaM (JInt × JInt)
  | 0, _, _ => throw .outOfFuel
  | fuel + 1, i, v =>
    if v.toInt < n.toInt then doubleLoop n fuel (i + 1) (v * 2) else return (i, v)

/-- After 32 doublings `v` is zero and stays so, hence a loop that needs more
fuel than this never ends. -/
def updateOffsetTable (ot : OffsetTable) (n : JInt) : JavaM OffsetTable := do
  let sfnt := if ot.sfnt = 0 then 0x00010000#32 else ot.sfnt
  let (i, v) ← doubleLoop n 40 0 1
  let i := i - 1
  let v := v.sdiv 2
  let searchRange := (v * 16).setWidth 16
  return { sfnt, numTables := n.setWidth 16, searchRange, entrySelector := i.setWidth 16,
           rangeShift := (n * 16 - searchRange.signExtend 32).setWidth 16 }

/-! ## The checksum of a byte array -/

theorem tmod_four_eq_zero_iff {x : JInt} (h : x.toNat < 2 ^ 31) :
    x.toInt.tmod 4 = 0 ↔ 4 ∣ x.toNat := by
  rw [toInt_of_lt h, Int.tmod_eq_emod_of_nonneg (by omega)]
  omega

theorem roundUp_eq {n : Nat} (h : n + 3 < 2 ^ 31) :
    (BitVec.ofNat 32 n + 3) &&& ~~~3#32 = BitVec.ofNat 32 ((n + 3) / 4 * 4) := by
  have key (x : JInt) : x &&& ~~~3#32 = (x >>> 2) <<< 2 := by
    refine BitVec.eq_of_getLsbD_eq fun i hi => ?_
    interval_cases i <;> simp
  refine BitVec.eq_of_toNat_eq ?_
  have hadd : BitVec.ofNat 32 n + 3 = BitVec.ofNat 32 (n + 3) := add_ofNat n 3
  rw [key, hadd, BitVec.toNat_shiftLeft, BitVec.toNat_ushiftRight,
    toNat_ofNat_of_lt (by omega), toNat_ofNat_of_lt (by omega), Nat.shiftLeft_eq,
    Nat.shiftRight_eq_div_pow]
  omega

/-- The loop from the `i`-th word on adds the `m` words that are left. -/
theorem sumLoop_eq (table : Bytes) {o L : Nat} :
    ∀ (m i fuel : Nat) (sum : JInt), L ≤ 4 * (i + m) → 4 * (i + m) < L + 4 →
      o + 4 * (i + m) ≤ table.length → o + 4 * (i + m) < 2 ^ 31 → m < fuel →
      sumLoop table (BitVec.ofNat 32 o) (BitVec.ofNat 32 L) fuel (BitVec.ofNat 32 (4 * i)) sum =
        .ok (sum + wordSum (slice table (o + 4 * i) (4 * m))) := by
  intro m
  induction m with
  | zero =>
    intro i fuel sum h1 h2 _ hlt hf
    obtain ⟨fuel, rfl⟩ : ∃ k, fuel = k + 1 := ⟨fuel - 1, by omega⟩
    have hi : (BitVec.ofNat 32 (4 * i)).toInt = ((4 * i : Nat) : Int) :=
      toInt_ofNat_of_lt (by omega)
    have hL' : (BitVec.ofNat 32 L).toInt = L := toInt_ofNat_of_lt (by omega)
    rw [sumLoop, hi, hL', if_neg (by omega), slice_zero, wordSum_nil]
    simp [pure, Except.pure]
  | succ m ih =>
    intro i fuel sum h1 h2 h3 hlt hf
    obtain ⟨fuel, rfl⟩ : ∃ k, fuel = k + 1 := ⟨fuel - 1, by omega⟩
    have hi : (BitVec.ofNat 32 (4 * i)).toInt = ((4 * i : Nat) : Int) :=
      toInt_ofNat_of_lt (by omega)
    have hL' : (BitVec.ofNat 32 L).toInt = L := toInt_ofNat_of_lt (by omega)
    rw [sumLoop, hi, hL', if_pos (by omega), add_ofNat, toInteger_eq (by omega) (by omega)]
    simp only [bind, Except.bind]
    have hnext : BitVec.ofNat 32 (4 * i) + 4 = BitVec.ofNat 32 (4 * (i + 1)) :=
      add_ofNat (4 * i) 4
    rw [hnext, ih (i + 1) fuel _ (by omega) (by omega) (by omega) (by omega) (by omega)]
    have hslice : slice table (o + 4 * i) (4 * (m + 1)) =
        slice table (o + 4 * i) 4 ++ slice table (o + 4 * (i + 1)) (4 * m) := by
      rw [show 4 * (m + 1) = 4 + 4 * m by omega, slice_add]
      rfl
    have hword : (slice table (o + 4 * i) 4).length = 4 := slice_length_of_le (by omega)
    rw [hslice, wordSum_append ⟨1, hword⟩, wordSum_of_length_four hword,
      intAt_slice (by omega), BitVec.add_assoc]
    rfl

/-- A slice of whole words is summed where it lies. -/
theorem calcTableChecksum_of_dvd {table : Bytes} {o n : Nat} (hn : o + n ≤ table.length)
    (hl : o + n < 2 ^ 31) (h4 : 4 ∣ n) :
    calcTableChecksum table (BitVec.ofNat 32 o) (BitVec.ofNat 32 n) =
      .ok (wordSum (slice table o n)) := by
  have hnat : (BitVec.ofNat 32 n).toNat = n := toNat_ofNat_of_lt (by omega)
  have hmod : (BitVec.ofNat 32 n).toInt.tmod 4 = 0 := by
    rw [tmod_four_eq_zero_iff (by omega), hnat]
    exact h4
  have h := sumLoop_eq table (o := o) (L := n) (n / 4) 0 (n / 4 + 2) 0
    (by omega) (by omega) (by omega) (by omega) (by omega)
  rw [show 4 * (n / 4) = n by omega, Nat.mul_zero, Nat.add_zero, zero_add] at h
  rw [calcTableChecksum, if_neg (by simpa using hmod), hnat]
  exact h

/-- Where the length is no multiple of four the sum is taken over a copy of the
start of the array, filled up with zeros, at the offset asked for. -/
theorem calcTableChecksum_of_not_dvd {table : Bytes} {n : Nat} (o : JInt)
    (hn : n ≤ table.length) (hl : n + 3 < 2 ^ 31) (h4 : ¬ 4 ∣ n) :
    calcTableChecksum table o (BitVec.ofNat 32 n) =
      sumLoop (table.take n ++ List.replicate ((n + 3) / 4 * 4 - n) 0) o (BitVec.ofNat 32 n)
        (n / 4 + 2) 0 0 := by
  have hnat : (BitVec.ofNat 32 n).toNat = n := toNat_ofNat_of_lt (by omega)
  have hmod : ¬ (BitVec.ofNat 32 n).toInt.tmod 4 = 0 := by
    rw [tmod_four_eq_zero_iff (by omega), hnat]
    exact h4
  have hsize : (BitVec.ofNat 32 ((n + 3) / 4 * 4)).toNat = (n + 3) / 4 * 4 :=
    toNat_ofNat_of_lt (by omega)
  have hcopy := arraycopy_eq (0 : JByte) table (List.replicate ((n + 3) / 4 * 4) 0) 0 0 n
    (by omega) (by rw [List.length_replicate]; omega) (by omega) (by omega)
  have hpad : overwrite 0 (List.replicate ((n + 3) / 4 * 4) 0) 0 (slice table 0 n) =
      table.take n ++ List.replicate ((n + 3) / 4 * 4 - n) 0 := by
    rw [overwrite_zero, slice_length_of_le (by omega), List.drop_replicate]
    rfl
  rw [calcTableChecksum, if_pos (by simpa using hmod), roundUp_eq (by omega),
    newArray_of_nonneg _ (by omega), hsize]
  simp only [bind, Except.bind]
  rw [BitVec.ofNat_eq_ofNat, hcopy, hpad, hnat]

/-- The checksum of the first `n` bytes of an array is the sum of their words. -/
theorem calcTableChecksum_eq {table : Bytes} {n : Nat} (hn : n ≤ table.length)
    (hl : n + 4 ≤ 2 ^ 31) :
    calcTableChecksum table 0 (BitVec.ofNat 32 n) = .ok (wordSum (table.take n)) := by
  by_cases h4 : 4 ∣ n
  · exact calcTableChecksum_of_dvd (o := 0) (by omega) (by omega) h4
  · have hlen : (table.take n ++ List.replicate ((n + 3) / 4 * 4 - n) (0 : JByte)).length =
        (n + 3) / 4 * 4 := by
      simp only [List.length_append, List.length_take, List.length_replicate]
      omega
    have h := sumLoop_eq (table.take n ++ List.replicate ((n + 3) / 4 * 4 - n) 0)
      (o := 0) (L := n) ((n + 3) / 4) 0 (n / 4 + 2) 0
      (by omega) (by omega) (by omega) (by omega) (by omega)
    have hall : slice (table.take n ++ List.replicate ((n + 3) / 4 * 4 - n) (0 : JByte)) 0
        (4 * ((n + 3) / 4)) = table.take n ++ List.replicate ((n + 3) / 4 * 4 - n) 0 :=
      slice_all (by omega)
    simp only [Nat.mul_zero, hall, wordSum_append_zeros, zero_add] at h
    rw [calcTableChecksum_of_not_dvd 0 hn (by omega) h4]
    exact h

/-! ## File ranges -/

theorem mathMin_toNat {a b : JInt} (ha : a.toNat < 2 ^ 31) (hb : b.toNat < 2 ^ 31) :
    (mathMin a b).toNat = min a.toNat b.toNat := by
  rw [mathMin, toInt_of_lt ha, toInt_of_lt hb]
  split <;> omega

theorem mathMin_neg {a b : JInt} (ha : a.toNat < 2 ^ 31) (hb : b.toInt < 0) :
    (mathMin a b).toInt < 0 := by
  rw [mathMin, toInt_of_lt ha]
  split <;> omega

/-- The bytes a read has just put at the start of the buffer. -/
theorem take_overwrite_slice {buf c : Bytes} {p n : Nat} (hp : p + n ≤ c.length) :
    (overwrite 0 buf 0 (slice c p n)).take n = slice c p n := by
  have hlen : (slice c p n).length = n := slice_length_of_le hp
  rw [overwrite_zero, List.take_append_of_le_length (by omega),
    List.take_of_length_le (by omega)]

theorem sub_ofNat_toNat {x : JInt} {n : Nat} (h : n ≤ x.toNat) :
    (x - BitVec.ofNat 32 n).toNat = x.toNat - n := by
  have := x.isLt
  rw [BitVec.toNat_sub_of_le, toNat_ofNat_of_lt (by omega)]
  rw [BitVec.le_def, toNat_ofNat_of_lt (by omega)]
  exact h

/-- The copy loop writes the range it is given, or what there is of it, under
every schedule of reads. -/
theorem copyLoop_eq : ∀ (fuel : Nat) (src dst : RandomAccessFile) (buf : Bytes) (length : JInt),
    length.toNat < 2 ^ 31 → buf.length < 2 ^ 31 → length.toNat = 0 ∨ 0 < buf.length →
    length.toNat < fuel →
    ∃ src' dst', copyLoop fuel src dst buf length = .ok (src', dst') ∧
      src'.content = src.content ∧ (src.Fills → src'.Fills) ∧ dst'.schedule = dst.schedule ∧
      dst'.content =
        overwrite 0 dst.content dst.pointer (slice src.content src.pointer length.toNat) := by
  intro fuel
  induction fuel with
  | zero => intro _ _ _ _ _ _ _ hf; omega
  | succ fuel ih =>
    intro src dst buf length hl hbuf h0 hf
    have hlen := toInt_of_lt hl
    by_cases hz : length.toNat = 0
    · refine ⟨src, dst, ?_, rfl, id, rfl, ?_⟩
      · rw [copyLoop, if_neg (by omega)]
        rfl
      · rw [hz, slice_zero, overwrite_nil]
    have hb : (BitVec.ofNat 32 buf.length).toNat = buf.length := toNat_ofNat_of_lt (by omega)
    have hr := mathMin_toNat (a := BitVec.ofNat 32 buf.length) (by omega) hl
    rw [hb] at hr
    rw [copyLoop, if_pos (by omega)]
    rcases read_cases (f := src) buf (mathMin (BitVec.ofNat 32 buf.length) length)
        (by omega) (by omega) (by omega)
      with ⟨he, hread⟩ | ⟨n, hn0, hn, hnc, _, hread⟩
    · refine ⟨src, dst, ?_, rfl, id, rfl, ?_⟩
      · rw [hread]
        rfl
      · rw [slice_eq_nil_of_le he, overwrite_nil]
    · have hni : (BitVec.ofNat 32 n).toInt = n := toInt_ofNat_of_lt (by omega)
      have hslen : (slice src.content src.pointer n).length = n := slice_length_of_le hnc
      have hb' : (overwrite 0 buf 0 (slice src.content src.pointer n)).length = buf.length :=
        overwrite_length_of_le 0 (by omega)
      have hsub : (length - BitVec.ofNat 32 n).toNat = length.toNat - n :=
        sub_ofNat_toNat (by omega)
      obtain ⟨src', dst', hrun, hsc, hsf, hds, hdc⟩ := ih (src.advance n)
        (dst.write (slice src.content src.pointer n))
        (overwrite 0 buf 0 (slice src.content src.pointer n)) (length - BitVec.ofNat 32 n)
        (by omega) (by omega) (Or.inr (by omega)) (by omega)
      refine ⟨src', dst', ?_, hsc, fun h => hsf (h.advance n), hds, ?_⟩
      · rw [hread]
        simp only [bind, Except.bind]
        rw [if_neg (by omega), writeRange_eq (by omega) (by omega), take_overwrite_slice hnc]
        exact hrun
      · rw [hdc, hsub]
        show overwrite 0 (overwrite 0 dst.content dst.pointer (slice src.content src.pointer n))
          (dst.pointer + (slice src.content src.pointer n).length)
          (slice src.content (src.pointer + n) (length.toNat - n)) = _
        rw [overwrite_append, ← slice_add, Nat.add_sub_cancel' (by omega)]

/-- `copyTo` copies a range, or what there is of it, under every schedule. -/
theorem copyTo_eq (src dst : RandomAccessFile) {offset dstOffset length : JInt}
    (ho : offset.toNat < 2 ^ 31) (hd : dstOffset.toNat < 2 ^ 31) (hl : length.toNat < 2 ^ 31) :
    ∃ src' dst', copyTo src offset dst dstOffset length = .ok (src', dst') ∧
      src'.content = src.content ∧ (src.Fills → src'.Fills) ∧ dst'.schedule = dst.schedule ∧
      dst'.content =
        overwrite 0 dst.content dstOffset.toNat (slice src.content offset.toNat length.toNat) := by
  have hk : (65536#32).toNat = 65536 := rfl
  have hmin := mathMin_toNat (a := 65536#32) (by omega) hl
  obtain ⟨src', dst', hrun, hsc, hsf, hds, hdc⟩ := copyLoop_eq (length.toNat + 1)
    { src with pointer := offset.toNat } { dst with pointer := dstOffset.toNat }
    (List.replicate (mathMin 65536#32 length).toNat 0) length hl
    (by rw [List.length_replicate]; omega) (by rw [List.length_replicate]; omega) (by omega)
  refine ⟨src', dst', ?_, hsc, hsf, hds, hdc⟩
  rw [copyTo, newArray_of_nonneg _ (by omega), seek_eq ho, seek_eq hd]
  exact hrun

/-- A negative offset or length makes `copyTo` throw. -/
theorem copyTo_ok_nonneg {src dst : RandomAccessFile} {offset dstOffset length : JInt}
    {r : RandomAccessFile × RandomAccessFile} (h : copyTo src offset dst dstOffset length = .ok r) :
    offset.toNat < 2 ^ 31 ∧ dstOffset.toNat < 2 ^ 31 ∧ length.toNat < 2 ^ 31 := by
  rw [copyTo] at h
  by_cases hl : length.toInt < 0
  · rw [newArray_error _ (mathMin_neg (by decide) hl)] at h
    cases h
  have hk : (65536#32).toNat = 65536 := rfl
  have hl' : length.toNat < 2 ^ 31 := toInt_nonneg_iff.mp (by omega)
  have hmin := mathMin_toNat (a := 65536#32) (by omega) hl'
  rw [newArray_of_nonneg _ (by omega)] at h
  by_cases ho : offset.toInt < 0
  · rw [seek_error ho] at h
    cases h
  have ho' : offset.toNat < 2 ^ 31 := toInt_nonneg_iff.mp (by omega)
  rw [seek_eq ho'] at h
  by_cases hd : dstOffset.toInt < 0
  · rw [seek_error hd] at h
    cases h
  exact ⟨ho', toInt_nonneg_iff.mp (by omega), hl'⟩

/-- The checksum loop pads every chunk on its own, so it adds up the chunks. -/
theorem fileSumLoop_chunks : ∀ (fuel : Nat) (file : RandomAccessFile) (buf : Bytes)
    (length sum : JInt), length.toNat < 2 ^ 31 → buf.length ≤ 65536 →
    length.toNat = 0 ∨ 0 < buf.length → length.toNat < fuel →
    ∃ file', fileSumLoop fuel file buf length sum =
        .ok (sum + chunkedSum byteWeight
          (readSizes buf.length file.schedule
            (min length.toNat (file.content.length - file.pointer)))
          (slice file.content file.pointer length.toNat), file') ∧
      file'.content = file.content ∧ (file.Fills → file'.Fills) := by
  intro fuel
  induction fuel with
  | zero => intro _ _ _ _ _ _ _ hf; omega
  | succ fuel ih =>
    intro file buf length sum hl hbuf h0 hf
    have hlen := toInt_of_lt hl
    by_cases hz : length.toNat = 0
    · refine ⟨file, ?_, rfl, id⟩
      rw [fileSumLoop, if_neg (by omega), hz, Nat.zero_min, readSizes_zero, chunkedSum, add_zero]
      rfl
    have hb : (BitVec.ofNat 32 buf.length).toNat = buf.length := toNat_ofNat_of_lt (by omega)
    have hr := mathMin_toNat (a := BitVec.ofNat 32 buf.length) (by omega) hl
    rw [hb] at hr
    rw [fileSumLoop, if_pos (by omega)]
    rcases read_cases (f := file) buf (mathMin (BitVec.ofNat 32 buf.length) length)
        (by omega) (by omega) (by omega)
      with ⟨he, hread⟩ | ⟨n, hn0, hn, hnc, hnd, hread⟩
    · refine ⟨file, ?_, rfl, id⟩
      rw [hread, Nat.sub_eq_zero_of_le he, Nat.min_zero, readSizes_zero, chunkedSum, add_zero]
      rfl
    · rw [hr] at hnd
      have hni : (BitVec.ofNat 32 n).toInt = n := toInt_ofNat_of_lt (by omega)
      have hslen : (slice file.content file.pointer n).length = n := slice_length_of_le hnc
      have hb' : (overwrite 0 buf 0 (slice file.content file.pointer n)).length = buf.length :=
        overwrite_length_of_le 0 (by omega)
      have hsub : (length - BitVec.ofNat 32 n).toNat = length.toNat - n :=
        sub_ofNat_toNat (by omega)
      obtain ⟨file', hrun, hc, hff⟩ := ih (file.advance n)
        (overwrite 0 buf 0 (slice file.content file.pointer n)) (length - BitVec.ofNat 32 n)
        (sum + wordSum (slice file.content file.pointer n))
        (by omega) (by omega) (Or.inr (by omega)) (by omega)
      refine ⟨file', ?_, hc, fun h => hff (h.advance n)⟩
      have hsizes := readSizes_delivered (f := file) buf.length length.toNat (by omega)
        (by omega)
      rw [← hnd] at hsizes
      have hcut : slice file.content file.pointer length.toNat =
          slice file.content file.pointer n ++
            slice file.content (file.pointer + n) (length.toNat - n) := by
        rw [← slice_add, Nat.add_sub_cancel' (by omega)]
      rw [hread]
      simp only [bind, Except.bind]
      rw [if_neg (by omega), calcTableChecksum_eq (by omega) (by omega), take_overwrite_slice hnc]
      simp only
      rw [hrun, hsub, hb', hsizes, hcut, chunkedSum_cons_append byteWeight hslen,
        ← wordSum_eq_wsum, advance_content, advance_pointer, add_assoc]

/-- When reads fill, every chunk but the last is a whole buffer. -/
theorem chunkedSum_of_fills {file : RandomAccessFile} (hfill : file.Fills) (cap n : Nat)
    (hcap : n = 0 ∨ 0 < cap) (h4 : 4 ∣ cap ∨ n ≤ cap) :
    chunkedSum byteWeight
      (readSizes cap file.schedule (min n (file.content.length - file.pointer)))
      (slice file.content file.pointer n) = wordSum (slice file.content file.pointer n) := by
  by_cases hz : min n (file.content.length - file.pointer) = 0
  · have hnil : slice file.content file.pointer n = [] := slice_eq_nil_iff.mpr (by omega)
    rw [hz, readSizes_zero, hnil]
    rfl
  rw [wordSum_eq_wsum]
  refine chunkedSum_of_dvd byteWeight byteWeight_add_four _ _ ?_ fun k hk => ?_
  · rw [readSizes_sum (by omega), slice_length]
  · have hk' := readSizes_filling (by omega) _ _ hfill k hk
    rw [hk'.1]
    rcases h4 with h4 | h4
    · exact h4
    · omega

/-- `calcTableChecksum` on a file adds up the chunks the reads deliver. -/
theorem calcTableChecksumFile_chunks (file : RandomAccessFile) {offset length : JInt}
    (ho : offset.toNat < 2 ^ 31) (hl : length.toNat < 2 ^ 31) :
    ∃ file', calcTableChecksumFile file offset length =
        .ok (chunkedSum byteWeight
          (readSizes (min 65536 length.toNat) file.schedule
            (min length.toNat (file.content.length - offset.toNat)))
          (slice file.content offset.toNat length.toNat), file') ∧
      file'.content = file.content ∧ (file.Fills → file'.Fills) := by
  have hk : (65536#32).toNat = 65536 := rfl
  have hmin := mathMin_toNat (a := 65536#32) (by omega) hl
  rw [hk] at hmin
  obtain ⟨file', hrun, hc, hff⟩ := fileSumLoop_chunks (length.toNat + 1)
    { file with pointer := offset.toNat } (List.replicate (mathMin 65536#32 length).toNat 0)
    length 0 hl (by rw [List.length_replicate]; omega) (by rw [List.length_replicate]; omega)
    (by omega)
  refine ⟨file', ?_, hc, fun h => hff (h.of_schedule rfl)⟩
  rw [calcTableChecksumFile, newArray_of_nonneg _ (by omega), seek_eq ho]
  rw [zero_add, List.length_replicate, hmin] at hrun
  rw [← hrun, hmin]
  rfl

/-- `calcTableChecksum` on a file returns, and if the reads fill their requests, it
returns the sum of the words that are in the range. -/
theorem calcTableChecksumFile_returns (file : RandomAccessFile) {offset length : JInt}
    (ho : offset.toNat < 2 ^ 31) (hl : length.toNat < 2 ^ 31) :
    ∃ sum file', calcTableChecksumFile file offset length = .ok (sum, file') ∧
      file'.content = file.content ∧ (file.Fills → file'.Fills ∧
        sum = wordSum (slice file.content offset.toNat length.toNat)) := by
  obtain ⟨file', hrun, hc, hff⟩ := calcTableChecksumFile_chunks file ho hl
  refine ⟨_, file', hrun, hc, ?_⟩
  intro hf
  have hfill : RandomAccessFile.Fills { file with pointer := offset.toNat } := hf.of_schedule rfl
  have hsum := chunkedSum_of_fills hfill (min 65536 length.toNat) length.toNat (by omega)
    (by omega)
  exact ⟨hff hf, hsum⟩

/-- The checksum of a file range is the sum of the words that are in it. -/
theorem calcTableChecksumFile_eq (file : RandomAccessFile) (hf : file.Fills)
    {offset length : JInt} (ho : offset.toNat < 2 ^ 31) (hl : length.toNat < 2 ^ 31) :
    ∃ file', calcTableChecksumFile file offset length =
        .ok (wordSum (slice file.content offset.toNat length.toNat), file') ∧
      file'.content = file.content ∧ file'.Fills := by
  obtain ⟨sum, file', hrun, hc, hfills⟩ := calcTableChecksumFile_returns file ho hl
  obtain ⟨hff, hsum⟩ := hfills hf
  exact ⟨file', by rw [hrun, hsum], hc, hff⟩

theorem calcTableChecksumFile_ok_nonneg {file : RandomAccessFile} {offset length : JInt}
    {r : JInt × RandomAccessFile} (h : calcTableChecksumFile file offset length = .ok r) :
    length.toNat < 2 ^ 31 := by
  by_contra hl
  have hneg : length.toInt < 0 := toInt_neg_iff.mpr (by omega)
  rw [calcTableChecksumFile, newArray_error _ (mathMin_neg (by decide) hneg)] at h
  cases h

/-! ## The offset table -/

/-- The doubling stops at the least power of two that is not below `n`. -/
theorem doubleLoop_eq {n : Nat} (hn : n ≤ 2 ^ 30) : ∀ (d i fuel : Nat),
    i + d = Nat.clog 2 n → d < fuel →
    doubleLoop (BitVec.ofNat 32 n) fuel (BitVec.ofNat 32 i) (BitVec.ofNat 32 (2 ^ i)) =
      .ok (BitVec.ofNat 32 (Nat.clog 2 n), BitVec.ofNat 32 (2 ^ Nat.clog 2 n)) := by
  have hclog : Nat.clog 2 n ≤ 30 := Nat.clog_le_of_le_pow hn
  have hni : (BitVec.ofNat 32 n).toInt = n := toInt_ofNat_of_lt (by omega)
  have hpow {i : Nat} (hi : i ≤ 30) : (BitVec.ofNat 32 (2 ^ i)).toInt = ((2 ^ i : Nat) : Int) :=
    toInt_ofNat_of_lt (Nat.pow_lt_pow_right (by omega) (by omega))
  intro d
  induction d with
  | zero =>
    intro i fuel hi hf
    obtain ⟨fuel, rfl⟩ : ∃ k, fuel = k + 1 := ⟨fuel - 1, by omega⟩
    have hge : n ≤ 2 ^ i := by
      rw [show i = Nat.clog 2 n by omega]
      exact Nat.le_pow_clog (by omega) n
    rw [doubleLoop, hni, hpow (by omega), if_neg (by omega), ← hi]
    rfl
  | succ d ih =>
    intro i fuel hi hf
    obtain ⟨fuel, rfl⟩ : ∃ k, fuel = k + 1 := ⟨fuel - 1, by omega⟩
    have hlt : 2 ^ i < n := Nat.pow_lt_of_lt_clog (by omega)
    have hi1 : BitVec.ofNat 32 i + 1 = BitVec.ofNat 32 (i + 1) := add_ofNat i 1
    have hv : BitVec.ofNat 32 (2 ^ i) * 2 = BitVec.ofNat 32 (2 ^ (i + 1)) := by
      rw [Nat.pow_succ]
      exact BitVec.ofNat_mul_ofNat (2 ^ i) 2
    rw [doubleLoop, hni, hpow (by omega), if_pos (by omega), hi1, hv]
    exact ih (i + 1) fuel (by omega) (by omega)

/-- What `updateOffsetTable` makes of a version and a number of tables. -/
def offsetTableFor (sfnt : JInt) (n : Nat) : OffsetTable :=
  let searchRange : JShort := ((BitVec.ofNat 32 (2 ^ Nat.clog 2 n)).sdiv 2 * 16).setWidth 16
  { sfnt := if sfnt = 0 then 0x00010000#32 else sfnt
    numTables := BitVec.ofNat 16 n
    searchRange := searchRange
    entrySelector := (BitVec.ofNat 32 (Nat.clog 2 n) - 1).setWidth 16
    rangeShift := (BitVec.ofNat 32 n * 16 - searchRange.signExtend 32).setWidth 16 }

theorem updateOffsetTable_eq (ot : OffsetTable) {n : Nat} (hn : n ≤ 2 ^ 30) :
    updateOffsetTable ot (BitVec.ofNat 32 n) = .ok (offsetTableFor ot.sfnt n) := by
  have hclog : Nat.clog 2 n ≤ 30 := Nat.clog_le_of_le_pow hn
  have hloop := doubleLoop_eq hn (Nat.clog 2 n) 0 40 (by omega) (by omega)
  have hw : (BitVec.ofNat 32 n).setWidth 16 = BitVec.ofNat 16 n :=
    BitVec.setWidth_ofNat_of_le (by decide) n
  have hrun : doubleLoop (BitVec.ofNat 32 n) 40 0 1 =
      .ok (BitVec.ofNat 32 (Nat.clog 2 n), BitVec.ofNat 32 (2 ^ Nat.clog 2 n)) := hloop
  rw [updateOffsetTable, hrun]
  simp only [bind, Except.bind, pure, Except.pure, hw, offsetTableFor]

/-- The fields as the comments of `OffsetTable` describe them for `n` tables,
`k` being the logarithm of the greatest power of two that is not above `n`. -/
structure SearchFields (ot : OffsetTable) (n k : Nat) : Prop where
  numTables : ot.numTables.toNat = n % 2 ^ 16
  searchRange : ot.searchRange.toNat = 16 * 2 ^ k % 2 ^ 16
  entrySelector : ot.entrySelector.toNat = k % 2 ^ 16
  rangeShift : ot.rangeShift.toNat = (16 * n - 16 * 2 ^ k) % 2 ^ 16

/-- Strictly between two powers the loop stops at the upper one. -/
theorem clog_of_between {n k : Nat} (hk : 2 ^ k < n) (hk' : n ≤ 2 ^ (k + 1)) :
    Nat.clog 2 n = k + 1 := by
  have hup : Nat.clog 2 n ≤ k + 1 := Nat.clog_le_of_le_pow hk'
  have hlow : k < Nat.clog 2 n := (Nat.lt_clog_iff_pow_lt (by omega)).mpr hk
  omega

theorem sdiv_two_ofNat {m : Nat} (h : 2 * m < 2 ^ 31) :
    (BitVec.ofNat 32 (2 * m)).sdiv 2 = BitVec.ofNat 32 m := by
  have hm : (BitVec.ofNat 32 m).toInt = m := toInt_ofNat_of_lt (by omega)
  have h2 : (BitVec.ofNat 32 (2 * m)).toInt = ((2 * m : Nat) : Int) := toInt_ofNat_of_lt h
  refine BitVec.eq_of_toInt_eq ?_
  rw [BitVec.toInt_sdiv_of_ne_or_ne _ _ (Or.inr (by decide)), h2, hm]
  show ((2 * m : Nat) : Int).tdiv 2 = m
  rw [Int.tdiv_eq_ediv_of_nonneg (by omega)]
  omega

/-- The step back from the upper power lands on the lower one. -/
theorem offsetTableFor_between (sfnt : JInt) {n k : Nat} (hk : 2 ^ k < n) (hk' : n ≤ 2 ^ (k + 1))
    (hn : n ≤ 2 ^ 30) : SearchFields (offsetTableFor sfnt n) n k := by
  have hclog := clog_of_between hk hk'
  have hk30 : k < 30 := (Nat.pow_lt_pow_iff_right (a := 2) (by omega)).mp (by omega)
  have hv : (BitVec.ofNat 32 (2 ^ (k + 1))).sdiv 2 = BitVec.ofNat 32 (2 ^ k) := by
    rw [Nat.pow_succ, Nat.mul_comm]
    exact sdiv_two_ofNat (by omega)
  have hi : BitVec.ofNat 32 (k + 1) - 1 = BitVec.ofNat 32 k := by
    rw [← add_ofNat k 1]
    exact BitVec.add_sub_cancel _ _
  have hrange : (BitVec.ofNat 32 (2 ^ k) * 16).setWidth 16 = BitVec.ofNat 16 (2 ^ k * 16) := by
    rw [show (16 : JInt) = BitVec.ofNat 32 16 from rfl, BitVec.ofNat_mul_ofNat,
      BitVec.setWidth_ofNat_of_le (by decide)]
  -- The difference only counts modulo `2 ^ 16`, where the sign extension is lost again.
  have hshift : (BitVec.ofNat 32 n * 16 -
      (BitVec.ofNat 16 (2 ^ k * 16)).signExtend 32).setWidth 16 =
      BitVec.ofNat 16 (16 * n - 16 * 2 ^ k) := by
    have hsign : ((BitVec.ofNat 16 (2 ^ k * 16)).signExtend 32).toNat % 2 ^ 16 =
        2 ^ k * 16 % 2 ^ 16 := by
      rw [BitVec.toNat_signExtend, BitVec.toNat_setWidth, BitVec.toNat_ofNat]
      split <;> omega
    have hlt := ((BitVec.ofNat 16 (2 ^ k * 16)).signExtend 32).isLt
    refine BitVec.eq_of_toNat_eq ?_
    rw [BitVec.toNat_setWidth, BitVec.toNat_sub, BitVec.toNat_mul, BitVec.toNat_ofNat,
      BitVec.toNat_ofNat]
    show (2 ^ 32 - _ + n % 2 ^ 32 * 16 % 2 ^ 32) % 2 ^ 32 % 2 ^ 16 = _
    omega
  constructor
  · exact BitVec.toNat_ofNat ..
  · show (((BitVec.ofNat 32 (2 ^ Nat.clog 2 n)).sdiv 2 * 16).setWidth 16).toNat = _
    rw [hclog, hv, hrange, BitVec.toNat_ofNat, Nat.mul_comm]
  · show ((BitVec.ofNat 32 (Nat.clog 2 n) - 1).setWidth 16).toNat = _
    rw [hclog, hi, BitVec.setWidth_ofNat_of_le (by decide), BitVec.toNat_ofNat]
  · simp only [offsetTableFor]
    rw [hclog, hv, hrange, hshift, BitVec.toNat_ofNat]

/-- At a power of two itself it stops there, and the step back is one too many:
below the lowest power the selector even becomes -1. -/
theorem offsetTableFor_pow (sfnt : JInt) {k : Nat} (hk : k ≤ 30) :
    ¬ SearchFields (offsetTableFor sfnt (2 ^ k)) (2 ^ k) k := by
  intro h
  have hsel : ((BitVec.ofNat 32 (Nat.clog 2 (2 ^ k)) - 1).setWidth 16).toNat = k % 2 ^ 16 :=
    h.entrySelector
  rw [Nat.clog_pow 2 k (by omega), BitVec.toNat_setWidth, BitVec.toNat_sub,
    toNat_ofNat_of_lt (by omega)] at hsel
  have h1 : (1 : JInt).toNat = 1 := rfl
  omega

/-- The fields are as the comments describe them exactly where the number of
tables is no power of two. -/
theorem updateOffsetTable_iff (ot : OffsetTable) {n k : Nat} (hk : 2 ^ k ≤ n)
    (hk' : n < 2 ^ (k + 1)) (hn : n ≤ 2 ^ 30) :
    (∃ ot', updateOffsetTable ot (BitVec.ofNat 32 n) = .ok ot' ∧ SearchFields ot' n k) ↔
      ∀ j, n ≠ 2 ^ j := by
  rw [updateOffsetTable_eq ot hn]
  constructor
  · rintro ⟨ot', hot, h⟩ j rfl
    have hjk : j = k := by
      have h1 : k ≤ j := (Nat.pow_le_pow_iff_right (by omega)).mp hk
      have h2 : j < k + 1 := (Nat.pow_lt_pow_iff_right (by omega)).mp hk'
      omega
    have hj30 : j ≤ 30 := (Nat.pow_le_pow_iff_right (a := 2) (by omega)).mp hn
    subst hjk
    cases hot
    exact offsetTableFor_pow ot.sfnt hj30 h
  · intro hne
    have hlt : 2 ^ k < n := Nat.lt_of_le_of_ne hk (hne k).symm
    exact ⟨_, rfl, offsetTableFor_between ot.sfnt hlt (Nat.le_of_lt hk') hn⟩

theorem updateOffsetTable_iff_twelve :
    (∃ ot', updateOffsetTable ⟨0, 0, 0, 0, 0⟩ (BitVec.ofNat 32 12) = .ok ot' ∧
      SearchFields ot' 12 3) ↔ ∀ j, 12 ≠ 2 ^ j :=
  updateOffsetTable_iff ⟨0, 0, 0, 0, 0⟩ (by decide) (by decide) (by decide)

/-- Sixteen tables are described as if the greatest power were eight. -/
theorem updateOffsetTable_sixteen :
    ¬ ∃ ot', updateOffsetTable ⟨0, 0, 0, 0, 0⟩ (BitVec.ofNat 32 16) = .ok ot' ∧
      SearchFields ot' 16 4 := by
  rintro ⟨ot', hot, h⟩
  cases hot
  exact absurd h.entrySelector (by decide)

end Tookit
end Otf
end I18nZh
