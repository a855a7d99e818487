import I18nZh.Otf.DumpTable

/-!
# What `DumpTable` writes

For a consistent name table the tool writes the names the table holds, or it
throws on a record it cannot address with signed 16-bit fields.
-/

namespace I18nZh
namespace Otf
namespace DumpTable

open Java Storage BigEndian RandomAccessFile Tookit NameFormat

/-- The text of a string, by the platform of its record. -/
def decodeString (platformID : JShort) (s : Bytes) : JString :=
  (if platformID = 1 then newStringLatin1 else newStringUtf16) s

def keptEntry (e : NameEntry) : Bool := dumped e.platformID e.encodingID e.languageID

def entryElement (e : NameEntry) : List XmlWrite :=
  stringElement e.platformID e.encodingID e.languageID e.nameID
    (decodeString e.platformID e.string)

/-- The document for a list of names. -/
def document (names : List NameEntry) : List XmlWrite :=
  [.startDocument, .startElement (jstr "name")] ++
    (names.filter keptEntry).flatMap entryElement ++ [.endElement, .endDocument]

/-- The tool can address the string of the record: it reads the length, the
offset and the offset of the storage area as signed numbers.  With one of the
two offsets negative their sum is right only if it is 2^16 away from zero, and
then the string is the empty one at the end of a table of 65536 bytes. -/
def Readable (stringOffset : JShort) (r : RawNameRecord) : Prop :=
  r.length.toNat < 32768 ∧
    ((stringOffset.toNat < 32768 ∧ r.offset.toNat < 32768) ∨
      (stringOffset.toNat + r.offset.toNat = 65536 ∧ stringOffset.toNat ≠ 32768))

instance (stringOffset : JShort) (r : RawNameRecord) : Decidable (Readable stringOffset r) :=
  inferInstanceAs (Decidable (_ ∧ (_ ∨ _)))

def keptRecord (r : RawNameRecord) : Bool := dumped r.platformID r.encodingID r.languageID

/-! ## One string -/

theorem toInt_add_shorts (a b : JShort) :
    (a.signExtend 32 + b.signExtend 32).toInt = a.toInt + b.toInt := by
  have ha := short_toInt_cases a
  have hb := short_toInt_cases b
  have := a.isLt
  have := b.isLt
  rw [BitVec.toInt_add, BitVec.toInt_signExtend_of_le (by decide),
    BitVec.toInt_signExtend_of_le (by decide)]
  exact Int.bmod_eq_of_le (by omega) (by omega)

section Record

variable {table rest : Bytes} {r : RawNameRecord} (decode : Bytes → JString)

theorem newString_of_readable (hbuf : (table ++ rest).length = 65536) {so : JShort}
    (hin : so.toNat + r.offset.toNat + r.length.toNat ≤ table.length) (hr : Readable so r) :
    newString decode (table ++ rest) (so.signExtend 32 + r.offset.signExtend 32)
        (r.length.signExtend 32) =
      .ok (decode (slice table (so.toNat + r.offset.toNat) r.length.toNat)) := by
  obtain ⟨hlen, haddr⟩ := hr
  have hadd := toInt_add_shorts so r.offset
  have hl : (r.length.signExtend 32).toInt = r.length.toNat := by
    rw [BitVec.toInt_signExtend_of_le (by decide)]
    rcases short_toInt_cases r.length with h | h
    · exact h.2
    · omega
  have hln : (r.length.signExtend 32).toNat = r.length.toNat := by
    have := toInt_of_lt (toInt_nonneg_iff.mp (by omega : 0 ≤ (r.length.signExtend 32).toInt))
    omega
  have ho := short_toInt_cases so
  have hf := short_toInt_cases r.offset
  have hlength : table.length + rest.length = 65536 := by rw [← List.length_append, hbuf]
  have hnonneg : 0 ≤ (so.signExtend 32 + r.offset.signExtend 32).toInt := by omega
  have hnat := toInt_of_lt (toInt_nonneg_iff.mp hnonneg)
  rw [newString, hl, hln, if_neg (by rw [List.length_append]; omega)]
  rcases haddr with hsmall | hwrap
  · have hpos : (so.signExtend 32 + r.offset.signExtend 32).toNat =
        so.toNat + r.offset.toNat := by omega
    rw [hpos, slice_append_left hin]
    rfl
  · have hzero : r.length.toNat = 0 := by omega
    rw [hzero, slice_zero, slice_zero]
    rfl

theorem newString_error (buf : Bytes) {so : JShort}
    (hin : so.toNat + r.offset.toNat + r.length.toNat ≤ 65536) (hr : ¬ Readable so r) :
    newString decode buf (so.signExtend 32 + r.offset.signExtend 32) (r.length.signExtend 32) =
      .error .stringIndexOutOfBounds := by
  unfold Readable at hr
  have hadd := toInt_add_shorts so r.offset
  have hl : (r.length.signExtend 32).toInt = r.length.toInt :=
    BitVec.toInt_signExtend_of_le (by decide)
  have hlen := short_toInt_cases r.length
  have ho := short_toInt_cases so
  have hf := short_toInt_cases r.offset
  rw [newString, hl, hadd, if_pos (by omega)]
  rfl

end Record

/-! ## The loop over the records -/

section Table

variable {table rest : Bytes}

theorem nameRecordAt_append {k : Nat} (h : k + 12 ≤ table.length) :
    nameRecordAt (table ++ rest) k = nameRecordAt table k := by
  rw [← nameRecordAt_slice, slice_append_left h, nameRecordAt_slice]

theorem recordElement_cases {r : RawNameRecord} (hsize : table.length ≤ 65536)
    (hbuf : (table ++ rest).length = 65536)
    (hin : NameFormat.stringOffset table + r.offset.toNat + r.length.toNat ≤ table.length) :
    (recordElement (table ++ rest) (nameHeaderOf table) r =
        .ok (([designates table r].filter keptEntry).flatMap entryElement) ∧
      (keptRecord r → Readable (nameHeaderOf table).stringOffset r)) ∨
    ((∃ e, recordElement (table ++ rest) (nameHeaderOf table) r = .error e) ∧
      keptRecord r ∧ ¬ Readable (nameHeaderOf table).stringOffset r) := by
  have hkey : keptEntry (designates table r) = keptRecord r := rfl
  by_cases hk : keptRecord r = true
  · have hd : dumped r.platformID r.encodingID r.languageID = true := hk
    have hone : ([designates table r].filter keptEntry).flatMap entryElement =
        entryElement (designates table r) := by
      rw [List.filter_singleton, hkey, hk]
      simp
    by_cases hr : Readable (nameHeaderOf table).stringOffset r
    · refine Or.inl ⟨?_, fun _ => hr⟩
      rw [recordElement, if_pos hd, newString_of_readable _ hbuf hin hr, ok_bind, hone]
      rfl
    · refine Or.inr ⟨⟨.stringIndexOutOfBounds, ?_⟩, hk, hr⟩
      rw [recordElement, if_pos hd, newString_error _ _ (Nat.le_trans hin hsize) hr]
      rfl
  · have hd : ¬ dumped r.platformID r.encodingID r.languageID = true := hk
    refine Or.inl ⟨?_, fun h => absurd h hk⟩
    rw [recordElement, if_neg hd, List.filter_singleton, hkey]
    simp [hk, pure, Except.pure]

/-- The rest of the loop writes the rest of the names, or some record of the
rest throws. -/
theorem writeRecords_cases (hc : Consistent table) (hsize : table.length ≤ 65536)
    (hbuf : (table ++ rest).length = 65536) : ∀ n i, i + n = count table →
    (writeRecords (table ++ rest) (nameHeaderOf table) n i =
        .ok ((((List.range' i n).map fun j => designates table (record table j)).filter
          keptEntry).flatMap entryElement) ∧
      ∀ j, i ≤ j → j < count table → keptRecord (record table j) →
        Readable (nameHeaderOf table).stringOffset (record table j)) ∨
    ((∃ e, writeRecords (table ++ rest) (nameHeaderOf table) n i = .error e) ∧
      ∃ j, j < count table ∧ keptRecord (record table j) ∧
        ¬ Readable (nameHeaderOf table).stringOffset (record table j)) := by
  intro n
  induction n with
  | zero =>
    intro i hi
    refine Or.inl ⟨rfl, ?_⟩
    intro j h1 h2
    omega
  | succ n ih =>
    intro i hi
    have hrec := hc.records_le
    have hmem : record table i ∈ records table :=
      List.mem_map_of_mem (List.mem_range.mpr (by omega))
    have hget : getNameRecord (table ++ rest) (BitVec.ofNat 32 (6 + i * 12)) =
        .ok (record table i) := by
      rw [getNameRecord_eq (by rw [List.length_append]; omega) (by omega),
        nameRecordAt_append (by omega), record, Nat.mul_comm]
    rw [writeRecords, hget, ok_bind]
    rcases recordElement_cases hsize hbuf (hc.string_le _ hmem) with
      ⟨hok, hread⟩ | ⟨⟨e, he⟩, hkept, hno⟩
    · rw [hok, ok_bind]
      rcases ih (i + 1) (by omega) with ⟨hrest, hall⟩ | ⟨⟨e, he⟩, hbad⟩
      · refine Or.inl ⟨?_, ?_⟩
        · rw [hrest, ok_bind, List.range'_succ, List.map_cons,
            ← List.singleton_append (l := List.map _ _), List.filter_append,
            List.flatMap_append]
          rfl
        · intro j h1 h2
          by_cases hj : j = i
          · rw [hj]
            exact hread
          · exact hall j (by omega) h2
      · exact Or.inr ⟨⟨e, by rw [he]; rfl⟩, hbad⟩
    · exact Or.inr ⟨⟨e, by rw [he]; rfl⟩, i, by omega, hkept, hno⟩

/-- The document of the table, or a string that cannot be addressed. -/
theorem dumpName_cases (hc : Consistent table) (hsize : table.length ≤ 65536)
    (hbuf : (table ++ rest).length = 65536) :
    (dumpName (table ++ rest) = .ok (document (entries table)) ∧
      ∀ r ∈ records table, keptRecord r → Readable (nameHeaderOf table).stringOffset r) ∨
    ((∃ e, dumpName (table ++ rest) = .error e) ∧
      ∃ r ∈ records table, keptRecord r ∧ ¬ Readable (nameHeaderOf table).stringOffset r) := by
  have hrec := hc.records_le
  have hheader : nameHeaderOf (table ++ rest) = nameHeaderOf table := by
    simp only [nameHeaderOf]
    rw [shortAt_append_left _ (by omega), shortAt_append_left _ (by omega),
      shortAt_append_left _ (by omega)]
  have hcount : ¬ (nameHeaderOf table).count.toInt < 0 := by
    have h : (nameHeaderOf table).count.toNat = count table := rfl
    rcases short_toInt_cases (nameHeaderOf table).count with h1 | h1 <;> omega
  rw [dumpName, getNameHeader_eq (by omega), ok_bind, hheader, if_neg hcount]
  rcases writeRecords_cases hc hsize hbuf (count table) 0 (by omega) with
    ⟨hok, hall⟩ | ⟨⟨e, he⟩, j, hj, hbad⟩
  · refine Or.inl ⟨?_, ?_⟩
    · have hok' : writeRecords (table ++ rest) (nameHeaderOf table)
          (nameHeaderOf table).count.toNat 0 = _ := hok
      rw [hok', ok_bind, ← List.range_eq_range']
      unfold document entries records
      rw [List.map_map]
      rfl
    · intro r hr
      obtain ⟨j, hj, rfl⟩ := List.mem_map.mp hr
      exact hall j (Nat.zero_le j) (List.mem_range.mp hj)
  · have he' : writeRecords (table ++ rest) (nameHeaderOf table)
        (nameHeaderOf table).count.toNat 0 = .error e := he
    refine Or.inr ⟨⟨e, by rw [he']; rfl⟩, record table j, ?_, hbad⟩
    exact List.mem_map_of_mem (List.mem_range.mpr hj)

/-- Below 32768 bytes every string of a table can be addressed. -/
theorem readable_of_lt (hc : Consistent table) (hsize : table.length < 32768) :
    ∀ r ∈ records table, Readable (nameHeaderOf table).stringOffset r := by
  intro r hr
  have hin := hc.string_le r hr
  have hso : (nameHeaderOf table).stringOffset.toNat = NameFormat.stringOffset table := rfl
  unfold Readable
  omega

theorem dumpName_of_lt (hc : Consistent table) (hsize : table.length < 32768)
    (hbuf : (table ++ rest).length = 65536) :
    dumpName (table ++ rest) = .ok (document (entries table)) := by
  rcases dumpName_cases hc (by omega) hbuf with ⟨hok, _⟩ | ⟨_, r, hr, _, hno⟩
  · exact hok
  · exact absurd (readable_of_lt hc hsize r hr) hno

end Table

/-! ## The whole run -/

theorem readDirectory_eq : ∀ (n i : Nat) (f : RandomAccessFile) (buf : Bytes)
    (tds : List TableDirectory) (name : Nat), f.Fills → f.pointer = 12 + 16 * i →
    buf.length = 65536 → 12 + 16 * (i + n) ≤ f.content.length →
    ∃ g buf', readDirectory n i f buf tds name =
        .ok (tds ++ (List.range' i n).map (directoryEntry f.content),
          lastIndex (jstr "name") ((List.range' i n).map (directoryEntry f.content)) i name, g,
          buf') ∧
      g.content = f.content ∧ g.Fills ∧ buf'.length = 65536 := by
  intro n
  induction n with
  | zero =>
    intro i f buf tds name hf _ hb _
    exact ⟨f, buf, by simp [readDirectory, lastIndex, pure, Except.pure], rfl, hf, hb⟩
  | succ n ih =>
    intro i f buf tds name hf hp hb hle
    obtain ⟨r, buf1, g, hread, hb1, htd, hc, hg, hgf⟩ := read_entry buf hf hp hb (by omega)
    obtain ⟨g', buf', hrun, hc', hgf', hb'⟩ := ih (i + 1) g buf1
      (tds ++ [directoryEntry f.content i])
      (if toTag (directoryEntry f.content i).tag = jstr "name" then i else name) hgf
      (by rw [hg]; omega) hb1 (by rw [hc]; omega)
    refine ⟨g', buf', ?_, by rw [hc', hc], hgf', hb'⟩
    have htd' : getTableDirectory buf1 0 = .ok (directoryEntry f.content i) := htd
    rw [readDirectory, hread, ok_bind]
    simp only
    rw [htd', ok_bind, hrun, hc, List.range'_succ, List.map_cons, List.append_assoc]
    rfl

/-- The font holds the name table: it is the table of the last `name` entry of
its directory. -/
structure HasNameTable (font table : Bytes) : Prop where
  isFont : isFont font
  directory_le : 12 + 16 * tableCount font ≤ font.length
  name_entry : ∃ before td after, directory font = before ++ td :: after ∧
    toTag td.tag = jstr "name" ∧ (∀ t ∈ after, toTag t.tag ≠ jstr "name") ∧
    td.offset.toNat < 2 ^ 31 ∧ td.offset.toNat + td.length.toNat ≤ font.length ∧
    tableBytes font td = table

/-- `run` on a font that holds a table of at most 65536 bytes works on that table. -/
theorem run_eq {f : RandomAccessFile} {table : Bytes} (hf : f.Fills) (hp : f.pointer = 0)
    (h : HasNameTable f.content table) (hsize : table.length ≤ 65536) :
    ∃ rest, (table ++ rest).length = 65536 ∧ run f = dumpName (table ++ rest) := by
  obtain ⟨hfont, hdir, before, td, after, hsplit, htag, hafter, hoff, hin, htable⟩ := h
  have hcount : (directory f.content).length = tableCount f.content := directory_length _
  have hpos : 0 < tableCount f.content := by
    rw [← hcount, hsplit]
    simp
  obtain ⟨hn, hnat⟩ := numTables_of_pos hpos
  obtain ⟨r, buf1, g, hread, hb1, hot, hc, hg, hgf⟩ := read_header (List.replicate 65536 0)
    hf hp List.length_replicate (by omega)
  obtain ⟨g2, buf2, hrun, hc2, hgf2, hb2⟩ := readDirectory_eq (tableCount f.content) 0 g buf1 [] 0
    hgf hg hb1 (by rw [hc]; omega)
  have hlist : (List.range' 0 (tableCount f.content)).map (directoryEntry f.content) =
      directory f.content := by
    rw [← List.range_eq_range']
    rfl
  rw [hc, hlist, hsplit, lastIndex_last before after htag hafter, Nat.zero_add,
    List.nil_append] at hrun
  have hlen : td.length.toNat = table.length := by
    rw [← htable, tableBytes, slice_length_of_le hin]
  obtain ⟨r3, g3, hread3, _⟩ := read_within (f := { g2 with pointer := td.offset.toNat })
    buf2 (n := table.length) hgf2 rfl (by omega) (by omega)
    (by show td.offset.toNat + table.length ≤ g2.content.length; rw [hc2, hc]; omega)
  have hslice : slice g2.content td.offset.toNat table.length = table := by
    rw [hc2, hc, ← hlen]
    exact htable
  have hlong : BitVec.ofNat 32 table.length = td.length := by
    rw [← hlen, ofNat_toNat_self]
  rw [hlong] at hread3
  refine ⟨buf2.drop table.length, ?_, ?_⟩
  · rw [List.length_append, List.length_drop]
    omega
  · have hget : (before ++ td :: after)[before.length]? = some td := by simp
    rw [run]
    simp only
    rw [hread, ok_bind]
    simp only
    rw [hot, ok_bind, if_neg (by rcases hfont with h | h <;> simp [h]), if_neg hn, hnat, hrun,
      ok_bind]
    simp only
    rw [hget]
    simp only
    rw [seek_eq hoff, ok_bind, hread3, ok_bind]
    simp only
    rw [hslice]

section Run

variable {font table : Bytes} {schedule : Nat → Nat → Nat}

theorem run_cases (hf : (openFile font schedule).Fills) (h : HasNameTable font table)
    (hc : Consistent table) (hsize : table.length ≤ 65536) :
    (run (openFile font schedule) = .ok (document (entries table)) ∧
      ∀ r ∈ records table, keptRecord r → Readable (nameHeaderOf table).stringOffset r) ∨
    ((∃ e, run (openFile font schedule) = .error e) ∧
      ∃ r ∈ records table, keptRecord r ∧ ¬ Readable (nameHeaderOf table).stringOffset r) := by
  obtain ⟨rest, hbuf, hrun⟩ := run_eq hf rfl h hsize
  rw [hrun]
  exact dumpName_cases hc hsize hbuf

/-- `DumpTable` writes the names of a table exactly when it can address, with its
signed fields, each string it writes. -/
theorem run_document_iff (hf : (openFile font schedule).Fills) (h : HasNameTable font table)
    (hc : Consistent table) (hsize : table.length ≤ 65536) :
    run (openFile font schedule) = .ok (document (entries table)) ↔
      ∀ r ∈ records table, keptRecord r → Readable (nameHeaderOf table).stringOffset r := by
  rcases run_cases hf h hc hsize with ⟨hok, hall⟩ | ⟨⟨e, he⟩, r, hr, hk, hno⟩
  · exact ⟨fun _ => hall, fun _ => hok⟩
  · constructor
    · intro hok
      rw [he] at hok
      cases hok
    · intro hall
      exact absurd (hall r hr hk) hno

end Run

/-- A font whose only table is a name table. -/
def fontWith (table : Bytes) : Bytes :=
  intBytes 0x00010000 ++ shortBytes 1 ++ shortBytes 16 ++ shortBytes 0 ++ shortBytes 0 ++
    intBytes 0x6E616D65 ++ intBytes 0 ++ intBytes 28 ++
    intBytes (BitVec.ofNat 32 table.length) ++ table

theorem hasNameTable_fontWith {table : Bytes} (h : table.length ≤ 65536) :
    HasNameTable (fontWith table) table := by
  have hlen : (fontWith table).length = 28 + table.length := by
    simp only [fontWith, List.length_append, intBytes_length, shortBytes_length]
  have hnum : shortAt (fontWith table) 4 = 1 := shortAt_shortBytes 1 []
  have hcount : tableCount (fontWith table) = 1 := by
    unfold tableCount offsetTableOf
    rw [hnum]
    rfl
  have hsfnt : intAt (fontWith table) 0 = 0x00010000 := intAt_intBytes 0x00010000 []
  have htag : intAt (fontWith table) 12 = 0x6E616D65 := intAt_intBytes 0x6E616D65 []
  have hsum : intAt (fontWith table) 16 = 0 := intAt_intBytes 0 []
  have hoff : intAt (fontWith table) 20 = 28 := intAt_intBytes 28 []
  have hlong : intAt (fontWith table) 24 = BitVec.ofNat 32 table.length :=
    intAt_intBytes (BitVec.ofNat 32 table.length) table
  have hnat : (BitVec.ofNat 32 table.length).toNat = table.length :=
    toNat_ofNat_of_lt (by omega)
  have hentry : directoryEntry (fontWith table) 0 =
      { tag := 0x6E616D65, checkSum := 0, offset := 28,
        length := BitVec.ofNat 32 table.length } := by
    unfold directoryEntry tableDirectoryAt
    rw [Nat.mul_zero, htag, hsum, hoff, hlong]
  have hname : toTag 0x6E616D65 = jstr "name" := by decide
  constructor
  · exact Or.inl hsfnt
  · omega
  · refine ⟨[], directoryEntry (fontWith table) 0, [], ?_, ?_, ?_, ?_, ?_, ?_⟩
    · unfold directory
      rw [hcount]
      rfl
    · rw [hentry]
      exact hname
    · intro t ht
      cases ht
    · rw [hentry]
      show 28 < 2 ^ 31
      decide
    · rw [hentry, hlen, hnat]
      exact Nat.le_refl _
    · rw [hentry, tableBytes, hnat]
      exact List.take_length

theorem run_document_iff_small :
    run (openFile (fontWith (layout [⟨1, 0, 0, 1, 2, 0⟩] [0x41, 0x42])) filling) =
      .ok (document [⟨1, 0, 0, 1, [0x41, 0x42]⟩]) :=
  (run_document_iff (openFile_fills _) (hasNameTable_fontWith (by decide))
    (consistent_layout (by decide) (by decide)) (by decide)).mpr (by decide)

/-- A table whose one string has 32768 bytes, and so a negative length. -/
def longTable : Bytes := layout [⟨1, 0, 0, 1, 32768, 0⟩] (List.replicate 32768 0x41)

theorem run_throws_longTable :
    Consistent longTable ∧ longTable.length ≤ 65536 ∧
      HasNameTable (fontWith longTable) longTable ∧
      (openFile (fontWith longTable) filling).Fills ∧
      ∃ e, run (openFile (fontWith longTable) filling) = .error e := by
  have hlen : longTable.length = 32786 := by
    rw [longTable, layout_length, List.length_replicate]
    rfl
  have hc : Consistent longTable := by
    refine consistent_layout (by decide) ?_
    intro r hr
    rw [List.mem_singleton.mp hr, List.length_replicate]
    decide
  have hmem : (⟨1, 0, 0, 1, 32768, 0⟩ : RawNameRecord) ∈ records longTable := by
    rw [longTable, records_layout (by decide)]
    exact List.mem_singleton_self _
  have hfont := hasNameTable_fontWith (by omega : longTable.length ≤ 65536)
  refine ⟨hc, by omega, hfont, openFile_fills _, ?_⟩
  rcases run_cases (openFile_fills _) hfont hc (by omega) with ⟨_, hall⟩ | ⟨he, _⟩
  · exact absurd (hall _ hmem (by decide)).1 (by decide)
  · exact he

end DumpTable
end Otf
end I18nZh
