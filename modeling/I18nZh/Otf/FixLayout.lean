import I18nZh.Otf.FixPrior

/-!
# The layout of the output of `FixName`

The tables fill the new font from the end of the directory to the computed size,
in the order of their offsets in the source, and the directory is in the order of
the tags.
-/

namespace I18nZh
namespace Otf
namespace FixName

open Java Storage BigEndian RandomAccessFile Tookit Layout

/-- A tag of four ASCII characters. -/
def Ascii (tag : JInt) : Prop := ∀ b ∈ intBytes tag, b.toNat < 128

theorem Ascii.lt {tag : JInt} (h : Ascii tag) : tag.toNat < 2 ^ 31 := by
  have hfirst := h (tag.extractLsb' 24 8) List.mem_cons_self
  rw [BitVec.extractLsb'_toNat, Nat.shiftRight_eq_div_pow] at hfirst
  have hlt := tag.isLt
  omega

def range (td : TableDirectory) : Nat × Nat := (td.offset.toNat, td.length.toNat)

/-- Where the range of an entry ends. -/
def rangeEnd (td : TableDirectory) : Nat := td.offset.toNat + td.length.toNat

/-- The entries of `output`, one after the other as in `outs`: their tables are in
the order of the offsets in `content`, begin behind the directory and end at `size`. -/
structure LaidOut (content output : Bytes) (size : Nat) (outs : List TableDirectory) : Prop where
  entries : (directory output).Perm outs
  order : ∃ tds : List TableDirectory, tds.Perm (kept content) ∧
    tds.Pairwise (Precedes (directory content)) ∧
    tds.map TableDirectory.tag = outs.map TableDirectory.tag
  row : Follow 4 (12 + 16 * (directory output).length) (outs.map range) size
  aligned : ∀ out ∈ outs, 4 ∣ out.offset.toNat
  disjoint : outs.Pairwise fun a b => rangeEnd a ≤ b.offset.toNat
  zero : ∀ out ∈ outs, ∀ i, rangeEnd out ≤ i → i < roundUp 4 (rangeEnd out) →
    output[i]? = some 0
  sorted : (directory output).Pairwise fun a b => a.tag.toNat < b.tag.toNat

/-- Distinct ASCII tags are sorted as the texts they are. -/
theorem byTag_sorted {tds : List TableDirectory} (hnodup : (tds.map TableDirectory.tag).Nodup)
    (hascii : ∀ td ∈ tds, Ascii td.tag) :
    (byTag tds).Pairwise fun a b => a.tag.toNat < b.tag.toNat := by
  have htotal : Std.Total fun a b : TableDirectory => a.tag.toInt ≤ b.tag.toInt :=
    ⟨fun a b => Int.le_total _ _⟩
  have htrans : IsTrans TableDirectory fun a b => a.tag.toInt ≤ b.tag.toInt :=
    ⟨fun a b c => Int.le_trans⟩
  have hle : (byTag tds).Pairwise fun a b => a.tag.toInt ≤ b.tag.toInt :=
    List.pairwise_insertionSort _ tds
  have hperm : (byTag tds).Perm tds := List.perm_insertionSort _ tds
  have hne : (byTag tds).Pairwise fun a b => a.tag ≠ b.tag :=
    List.pairwise_map.mp ((hperm.map TableDirectory.tag).nodup_iff.mpr hnodup)
  refine (hle.and hne).imp_of_mem ?_
  intro a b ha hb hab
  obtain ⟨h1, h2⟩ := hab
  have hlta := (hascii a (mem_byTag.mp ha)).lt
  have hltb := (hascii b (mem_byTag.mp hb)).lt
  rw [toInt_of_lt hlta, toInt_of_lt hltb] at h1
  have hne : a.tag.toNat ≠ b.tag.toNat := fun h => h2 (BitVec.eq_of_toNat_eq h)
  omega

section Font

variable {content : Bytes} (font : Font) (name rest : Bytes)

theorem directory_font_append :
    directory (font.bytes ++ rest) = byTag font.entries := by
  rw [directory_append, font.directory_bytes]
  rw [font.tableCount_font, font.bytes_length]
  exact Nat.le_add_right _ _

theorem entries_tags : font.entries.map TableDirectory.tag = font.tables.map Table.tag := by
  have hsnd : font.placed.map Prod.snd = font.tables := place_map_snd Table.data 4 _ _
  rw [← hsnd]
  unfold Font.entries entriesFrom
  rw [List.map_map, List.map_map]
  rfl

/-- A font made of the tables of a source is laid out as it should be. -/
theorem laidOut_font (htables : font.tables = tablesOf content name)
    (hascii : ∀ td ∈ directory content, Ascii td.tag) :
    LaidOut content (font.bytes ++ rest) font.size font.entries := by
  have hdir := directory_font_append font rest
  have hrow := font.follow_entries
  have htags : font.entries.map TableDirectory.tag =
      (byOffset (kept content)).map TableDirectory.tag := by
    rw [entries_tags, htables, tablesOf, List.map_map]
    rfl
  have hlen : (directory (font.bytes ++ rest)).length = font.tables.length := by
    rw [hdir, byTag_length, font.entries_length]
  constructor
  · rw [hdir]
    exact List.perm_insertionSort _ _
  · refine ⟨byOffset (kept content), List.perm_insertionSort _ _, ?_, htags.symm⟩
    apply (byOffset_precedes (kept content)).imp
    intro a b hab
    exact hab.of_sublist List.filter_sublist
  · rw [hlen]
    exact hrow
  · intro out hout
    exact hrow.dvd Font.four_dvd_start _ (List.mem_map_of_mem hout)
  · exact List.pairwise_map.mp (hrow.pairwise (by decide))
  · intro out hout i h1 h2
    obtain ⟨p, hp, rfl⟩ := List.mem_map.mp hout
    obtain ⟨hoff, hl⟩ := font.entry_toNat hp
    unfold rangeEnd at h1 h2
    rw [hoff, hl] at h1 h2
    have hbound := place_bounds Table.data (0 : JByte) (by decide : 0 < 4) font.tables
      font.start p hp
    have hround := roundUp_add (by decide : 0 < 4) (Font.four_dvd_place hp) p.2.data.length
    have hlt : i < font.bytes.length := by
      have hsize : font.size = font.start + (body Table.data (0 : JByte) 4 font.tables).length :=
        rfl
      rw [font.bytes_length]
      omega
    have hzero := font.getD_bytes_behind hp h1 h2
    rw [List.getD_eq_getElem _ _ hlt] at hzero
    rw [List.getElem?_append_left hlt, List.getElem?_eq_getElem hlt, hzero]
  · rw [hdir]
    apply byTag_sorted
    · rw [entries_tags]
      exact font.tags_nodup
    · intro td htd
      have hmem : td.tag ∈ (byOffset (kept content)).map TableDirectory.tag := by
        rw [← htags]
        exact List.mem_map_of_mem htd
      obtain ⟨src, hsrc, hsame⟩ := List.mem_map.mp hmem
      rw [← hsame]
      exact hascii src (mem_kept.mp (mem_byOffset.mp hsrc)).1

end Font

/-- The output begins with a font that is laid out, up to the computed size. -/
theorem run_layout {xmlfile : XmlFile} {content prior : Bytes} {r w : Nat → Nat → Nat}
    (hw : WellFormed content) (hascii : ∀ td ∈ directory content, Ascii td.tag)
    (hf : (openFile content r).Fills) (hd : (openFile prior w).Fills) {dst' : RandomAccessFile}
    (h : run (openFile content r) xmlfile (openFile prior w) = .ok dst') :
    newSize (openFile content r) xmlfile ≤ dst'.content.length ∧
      ∃ outs, LaidOut content dst'.content (newSize (openFile content r) xmlfile) outs := by
  have hfont := isFont_of_run hf rfl hw h
  obtain ⟨font, rest, htables, hsize, hcontent⟩ := run_font_append hf rfl hfont hw hd h
  rw [← hsize, hcontent]
  refine ⟨?_, font.entries, laidOut_font font _ rest htables hascii⟩
  rw [List.length_append, font.bytes_length]
  exact Nat.le_add_right _ _

theorem run_layout_small : ∃ dst' outs,
    run (openFile smallFont filling) emptyXml (openFile [] filling) = .ok dst' ∧
      LaidOut smallFont dst'.content (newSize (openFile smallFont filling) emptyXml) outs := by
  obtain ⟨dst', hrun⟩ := run_smallFont
  have hascii : ∀ td ∈ directory smallFont, Ascii td.tag := by
    rw [directory_smallFont]
    unfold Ascii
    decide
  obtain ⟨_, outs, houts⟩ := run_layout wellFormed_smallFont hascii (openFile_fills smallFont)
    (openFile_fills []) hrun
  exact ⟨dst', outs, hrun, houts⟩

end FixName
end Otf
end I18nZh
