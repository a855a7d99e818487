import Mathlib.Data.Prod.Lex
import I18nZh.Otf.Codec

/-!
# What a name table says

The format's own reading of a name table, every 16-bit field an unsigned number:
a list of names, each with the string it designates.  `layout` puts a table
together from its records and its string storage area.
-/

namespace I18nZh
namespace Otf

open Java Storage BigEndian Tookit

/-- A name together with its encoded string. -/
structure NameEntry where
  platformID : JShort
  encodingID : JShort
  languageID : JShort
  nameID : JShort
  string : Bytes
  deriving DecidableEq, Repr

namespace NameEntry

/-- Records are ordered by platform, encoding, language and name. -/
def key (e : NameEntry) : Int ×ₗ Int ×ₗ Int ×ₗ Int :=
  toLex (e.platformID.toInt, toLex (e.encodingID.toInt,
    toLex (e.languageID.toInt, e.nameID.toInt)))

end NameEntry

namespace NameFormat

def count (table : Bytes) : Nat := (nameHeaderOf table).count.toNat

def stringOffset (table : Bytes) : Nat := (nameHeaderOf table).stringOffset.toNat

def record (table : Bytes) (i : Nat) : RawNameRecord := nameRecordAt table (6 + 12 * i)

/-- The name a record stands for in a table. -/
def designates (table : Bytes) (r : RawNameRecord) : NameEntry :=
  { platformID := r.platformID, encodingID := r.encodingID, languageID := r.languageID,
    nameID := r.nameID,
    string := slice table (stringOffset table + r.offset.toNat) r.length.toNat }

def records (table : Bytes) : List RawNameRecord := (List.range (count table)).map (record table)

/-- The names of a table, in the order of the records. -/
def entries (table : Bytes) : List NameEntry := (records table).map (designates table)

/-- Records and strings lie inside the table. -/
structure Consistent (table : Bytes) : Prop where
  records_le : 6 + 12 * count table ≤ table.length
  string_le : ∀ r ∈ records table,
    stringOffset table + r.offset.toNat + r.length.toNat ≤ table.length

/-- The table is well formed, and its names are the given ones. -/
structure Represents (table : Bytes) (names : List NameEntry) : Prop where
  consistent : Consistent table
  perm : (entries table).Perm names

/-- No record designates more than 65535 bytes. -/
theorem entries_string_lt {table : Bytes} {e : NameEntry} (h : e ∈ entries table) :
    e.string.length < 65536 := by
  unfold entries at h
  obtain ⟨r, _, rfl⟩ := List.mem_map.mp h
  have hr := r.length.isLt
  show (slice table (stringOffset table + r.offset.toNat) r.length.toNat).length < 65536
  rw [slice_length]
  omega

/-! ## Putting a table together -/

def headerBytes (nh : NameHeader) : Bytes :=
  shortBytes nh.format ++ shortBytes nh.count ++ shortBytes nh.stringOffset

def recordBytes (r : RawNameRecord) : Bytes :=
  shortBytes r.platformID ++ shortBytes r.encodingID ++ shortBytes r.languageID ++
    shortBytes r.nameID ++ shortBytes r.length ++ shortBytes r.offset

def headerFor (n : Nat) : NameHeader :=
  { format := 0, count := BitVec.ofNat 16 n, stringOffset := BitVec.ofNat 16 (6 + 12 * n) }

def layout (rs : List RawNameRecord) (pool : Bytes) : Bytes :=
  headerBytes (headerFor rs.length) ++ rs.flatMap recordBytes ++ pool

@[simp] theorem headerBytes_length (nh : NameHeader) : (headerBytes nh).length = 6 := rfl

@[simp] theorem recordBytes_length (r : RawNameRecord) : (recordBytes r).length = 12 := rfl

theorem shortBytes_read (v : JShort) : v.extractLsb' 8 8 ++ v.extractLsb' 0 8 = v :=
  shortAt_shortBytes v []

theorem nameHeaderOf_append (nh : NameHeader) (rest : Bytes) :
    nameHeaderOf (headerBytes nh ++ rest) = nh := by
  cases nh
  simp [nameHeaderOf, headerBytes, shortBytes, shortAt, shortBytes_read]

theorem nameRecordAt_bytes (r : RawNameRecord) : nameRecordAt (recordBytes r) 0 = r := by
  cases r
  simp [nameRecordAt, recordBytes, shortBytes, shortAt, shortBytes_read]

/-- A record only depends on its own twelve bytes. -/
theorem nameRecordAt_slice (bs : Bytes) (p : Nat) :
    nameRecordAt (slice bs p 12) 0 = nameRecordAt bs p := by
  simp only [nameRecordAt]
  rw [shortAt_slice (by omega), shortAt_slice (by omega), shortAt_slice (by omega),
    shortAt_slice (by omega), shortAt_slice (by omega), shortAt_slice (by omega)]
  simp only [Nat.zero_add, Nat.add_zero]

section Layout

variable {rs : List RawNameRecord} {pool : Bytes}

theorem nameHeaderOf_layout : nameHeaderOf (layout rs pool) = headerFor rs.length := by
  rw [layout, List.append_assoc]
  exact nameHeaderOf_append _ _

theorem area_length (rs : List RawNameRecord) :
    (headerBytes (headerFor rs.length) ++ rs.flatMap recordBytes).length = 6 + 12 * rs.length := by
  rw [List.length_append, headerBytes_length, flatMap_length recordBytes_length]

theorem layout_length : (layout rs pool).length = 6 + 12 * rs.length + pool.length := by
  rw [layout, List.length_append, area_length]

theorem record_layout {i : Nat} (h : i < rs.length) : record (layout rs pool) i = rs[i] := by
  have hpos : 12 * i + 12 ≤ (rs.flatMap recordBytes).length := by
    rw [flatMap_length recordBytes_length]
    omega
  have hskip := slice_append_right (headerBytes (headerFor rs.length))
    (rs.flatMap recordBytes ++ pool) (12 * i) 12
  rw [headerBytes_length] at hskip
  rw [record, ← nameRecordAt_slice, layout, List.append_assoc, hskip,
    slice_append_left hpos, slice_flatMap recordBytes_length rs i h, nameRecordAt_bytes]

/-- A string of the storage area. -/
theorem slice_layout (p n : Nat) :
    slice (layout rs pool) (6 + 12 * rs.length + p) n = slice pool p n := by
  have h := slice_append_right (headerBytes (headerFor rs.length) ++ rs.flatMap recordBytes)
    pool p n
  rwa [area_length] at h

variable (hn : 6 + 12 * rs.length < 2 ^ 16)
include hn

theorem count_layout : count (layout rs pool) = rs.length := by
  rw [count, nameHeaderOf_layout]
  exact Nat.mod_eq_of_lt (by omega)

theorem stringOffset_layout : stringOffset (layout rs pool) = 6 + 12 * rs.length := by
  rw [stringOffset, nameHeaderOf_layout]
  exact Nat.mod_eq_of_lt hn

theorem records_layout : records (layout rs pool) = rs := by
  refine List.ext_getElem ?_ fun i h1 h2 => ?_
  · rw [records, List.length_map, List.length_range, count_layout hn]
  · simp only [records, List.getElem_map, List.getElem_range]
    exact record_layout h2

theorem entries_layout :
    entries (layout rs pool) = rs.map fun r =>
      { platformID := r.platformID, encodingID := r.encodingID, languageID := r.languageID,
        nameID := r.nameID, string := slice pool r.offset.toNat r.length.toNat } := by
  rw [entries, records_layout hn]
  refine List.map_congr_left fun r _ => ?_
  rw [designates, stringOffset_layout hn, slice_layout]

theorem consistent_layout
    (h : ∀ r ∈ rs, r.offset.toNat + r.length.toNat ≤ pool.length) :
    Consistent (layout rs pool) := by
  constructor
  · rw [count_layout hn, layout_length]
    omega
  · intro r hr
    rw [records_layout hn] at hr
    have := h r hr
    rw [stringOffset_layout hn, layout_length]
    omega

end Layout

end NameFormat
end Otf
end I18nZh
