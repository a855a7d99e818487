import I18nZh.Java.File
import I18nZh.Otf.Codec

/-!
# Offset table and table directory of a file

What the tools read from the start of a font, in terms of the content of the
file, when reads fill their requests.
-/

namespace I18nZh
namespace Otf

open Java Storage BigEndian RandomAccessFile Tookit

/-- The tools accept version 1.0 and `OTTO`. -/
def isFont (content : Bytes) : Prop :=
  (offsetTableOf content).sfnt = 0x00010000#32 ∨ (offsetTableOf content).sfnt = 0x4F54544F#32

instance (content : Bytes) : Decidable (isFont content) := inferInstanceAs (Decidable (_ ∨ _))

/-- The number of directory entries, a negative one counting as none. -/
def tableCount (content : Bytes) : Nat := (offsetTableOf content).numTables.toInt.toNat

def directoryEntry (content : Bytes) (i : Nat) : TableDirectory :=
  tableDirectoryAt content (12 + 16 * i)

def directory (content : Bytes) : List TableDirectory :=
  (List.range (tableCount content)).map (directoryEntry content)

/-- The bytes of a table. -/
def tableBytes (content : Bytes) (td : TableDirectory) : Bytes :=
  slice content td.offset.toNat td.length.toNat

theorem numTables_of_pos {content : Bytes} (h : 0 < tableCount content) :
    ¬ (offsetTableOf content).numTables.toInt < 0 ∧
      (offsetTableOf content).numTables.toNat = tableCount content := by
  unfold tableCount at h ⊢
  rcases short_toInt_cases (offsetTableOf content).numTables with h1 | h1
  · omega
  · omega

theorem directory_length (content : Bytes) : (directory content).length = tableCount content := by
  rw [directory, List.length_map, List.length_range]

theorem directory_getElem (content : Bytes) {i : Nat} (h : i < (directory content).length) :
    (directory content)[i] = directoryEntry content i := by
  simp only [directory, List.getElem_map, List.getElem_range]

/-- The index a loop over the directory ends with when it keeps that of the last
entry of a tag; the loop begins with the index `i`. -/
def lastIndex (tag : JString) : List TableDirectory → Nat → Nat → Nat
  | [], _, found => found
  | td :: rest, i, found =>
    lastIndex tag rest (i + 1) (if toTag td.tag = tag then i else found)

theorem lastIndex_of_none {tag : JString} : ∀ (tds : List TableDirectory) (i found : Nat),
    (∀ td ∈ tds, toTag td.tag ≠ tag) → lastIndex tag tds i found = found := by
  intro tds
  induction tds with
  | nil => intro i found _; rfl
  | cons td rest ih =>
    intro i found h
    rw [lastIndex, if_neg (h td List.mem_cons_self)]
    exact ih _ _ fun t ht => h t (List.mem_cons_of_mem _ ht)

theorem lastIndex_last {tag : JString} (before after : List TableDirectory)
    {td : TableDirectory} (htd : toTag td.tag = tag) (hafter : ∀ t ∈ after, toTag t.tag ≠ tag) :
    ∀ i found, lastIndex tag (before ++ td :: after) i found = i + before.length := by
  induction before with
  | nil =>
    intro i found
    rw [List.nil_append, lastIndex, if_pos htd, lastIndex_of_none _ _ _ hafter]
    rfl
  | cons t before ih =>
    intro i found
    rw [List.cons_append, lastIndex, ih, List.length_cons]
    omega

section Reading

variable {f : RandomAccessFile} (buf : Bytes) {p n : Nat}

/-- A read of bytes that are there. -/
theorem read_within (hf : f.Fills) (hp : f.pointer = p) (hn : n ≤ buf.length) (hl : n < 2 ^ 31)
    (h : p + n ≤ f.content.length) :
    ∃ r g, f.read buf 0 (BitVec.ofNat 32 n) =
        .ok (r, slice f.content p n ++ buf.drop n, g) ∧
      g.content = f.content ∧ g.pointer = p + n ∧ g.Fills := by
  have hnat : (BitVec.ofNat 32 n).toNat = n := toNat_ofNat_of_lt (by omega)
  have hint : (BitVec.ofNat 32 n).toInt = n := toInt_ofNat_of_lt hl
  have hz : (0 : JInt).toInt = 0 := rfl
  cases n with
  | zero =>
    refine ⟨0, f, ?_, rfl, hp, hf⟩
    rw [RandomAccessFile.read, hz, hint, if_neg (by omega)]
    simp only [hnat, if_true, slice_zero, List.drop_zero, List.nil_append]
    rfl
  | succ n =>
    obtain ⟨r, g, hread, hc, hg, hgf⟩ := read_fills hf buf (by omega) (by omega)
      (by omega : (BitVec.ofNat 32 (n + 1)).toNat ≤ buf.length)
    have hlen : (slice f.content p (n + 1)).length = n + 1 := slice_length_of_le h
    rw [hnat, hp] at hread hg
    refine ⟨r, g, ?_, hc, by rw [hg, hlen], hgf⟩
    rw [hread, overwrite_zero, hlen]

theorem offsetTableOf_slice (content rest : Bytes) (h : 12 ≤ content.length) :
    offsetTableOf (slice content 0 12 ++ rest) = offsetTableOf content := by
  have hlen : (slice content 0 12).length = 12 := slice_length_of_le (by omega)
  simp only [offsetTableOf]
  rw [intAt_append_left _ (by omega), shortAt_append_left _ (by omega),
    shortAt_append_left _ (by omega), shortAt_append_left _ (by omega),
    shortAt_append_left _ (by omega), intAt_slice (by omega), shortAt_slice (by omega),
    shortAt_slice (by omega), shortAt_slice (by omega), shortAt_slice (by omega)]

theorem tableDirectoryAt_slice (content rest : Bytes) (h : p + 16 ≤ content.length) :
    tableDirectoryAt (slice content p 16 ++ rest) 0 = tableDirectoryAt content p := by
  have hlen : (slice content p 16).length = 16 := slice_length_of_le h
  simp only [tableDirectoryAt]
  rw [intAt_append_left _ (by omega), intAt_append_left _ (by omega),
    intAt_append_left _ (by omega), intAt_append_left _ (by omega), intAt_slice (by omega),
    intAt_slice (by omega), intAt_slice (by omega), intAt_slice (by omega)]
  simp only [Nat.zero_add, Nat.add_zero]

/-- What follows the directory does not count. -/
theorem directory_append {content : Bytes} (rest : Bytes)
    (h : 12 + 16 * tableCount content ≤ content.length) :
    directory (content ++ rest) = directory content := by
  have hcount : tableCount (content ++ rest) = tableCount content := by
    simp only [tableCount, offsetTableOf]
    rw [shortAt_append_left _ (by omega)]
  rw [directory, directory, hcount]
  refine List.map_congr_left fun i hi => ?_
  rw [List.mem_range] at hi
  simp only [directoryEntry, tableDirectoryAt]
  rw [intAt_append_left _ (by omega), intAt_append_left _ (by omega),
    intAt_append_left _ (by omega), intAt_append_left _ (by omega)]

/-- The header read of every tool. -/
theorem read_header (hf : f.Fills) (hp : f.pointer = 0) (hb : buf.length = 65536)
    (h : 12 ≤ f.content.length) :
    ∃ r buf' g, f.read buf 0 12 = .ok (r, buf', g) ∧ buf'.length = 65536 ∧
      getOffsetTable buf' 0 = .ok (offsetTableOf f.content) ∧
      g.content = f.content ∧ g.pointer = 12 ∧ g.Fills := by
  obtain ⟨r, g, hread, hc, hg, hgf⟩ := read_within buf hf hp (n := 12) (by omega)
    (by decide) (by omega)
  have hlen : (slice f.content 0 12 ++ buf.drop 12).length = 65536 := by
    rw [List.length_append, slice_length_of_le (by omega), List.length_drop]
    omega
  refine ⟨r, _, g, hread, hlen, ?_, hc, hg, hgf⟩
  rw [getOffsetTable_eq (by omega), offsetTableOf_slice _ _ h]

/-- The read of one directory entry. -/
theorem read_entry (hf : f.Fills) (hp : f.pointer = p) (hb : buf.length = 65536)
    (h : p + 16 ≤ f.content.length) :
    ∃ r buf' g, f.read buf 0 16 = .ok (r, buf', g) ∧ buf'.length = 65536 ∧
      getTableDirectory buf' 0 = .ok (tableDirectoryAt f.content p) ∧
      g.content = f.content ∧ g.pointer = p + 16 ∧ g.Fills := by
  obtain ⟨r, g, hread, hc, hg, hgf⟩ := read_within buf hf hp (n := 16) (by omega)
    (by decide) h
  have hlen : (slice f.content p 16 ++ buf.drop 16).length = 65536 := by
    rw [List.length_append, slice_length_of_le h, List.length_drop]
    omega
  refine ⟨r, _, g, hread, hlen, ?_, hc, hg, hgf⟩
  rw [getTableDirectory_eq (by omega), tableDirectoryAt_slice _ _ h]

end Reading

end Otf
end I18nZh
