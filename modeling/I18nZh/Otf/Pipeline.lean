import I18nZh.Otf.FixCorrect
import I18nZh.Otf.NameText

/-!
# The tools one after the other

`DumpTable` on a font that `FixName` wrote, and `FixName` with the document that
`DumpTable` wrote for the font itself.
-/

namespace I18nZh
namespace Otf
namespace Pipeline

open Java Storage RandomAccessFile Tookit NameFormat DumpTable RoundTrip NameText
open FixName (isName isHead isDSIG kept mem_kept builtName builtName_eq builtName_length WellFormed
  tablesOf startOfTables)

/-! ## The name table of the output -/

theorem not_DSIG {td : TableDirectory} (h : isName td) : ¬ isDSIG td := by
  unfold isName at h
  unfold isDSIG
  rw [h]
  decide

section Output

variable {xmlfile : XmlFile} {content : Bytes} {td : TableDirectory} {built : Bytes}

/-- The font holds the table that was built, if the source has a name table. -/
theorem hasNameTable_font (hw : WellFormed content) (font : Font)
    (htables : font.tables = tablesOf content (builtName xmlfile))
    (hread : ∀ td ∈ kept content, FixName.Readable xmlfile td) (htd : td ∈ directory content)
    (hname : isName td) (hbuilt : loadNameTable xmlfile = .ok built) :
    HasNameTable font.bytes built := by
  have hkept : td ∈ kept content := mem_kept.mpr ⟨htd, not_DSIG hname⟩
  have hfont := FixName.wellFormed_font font
  have htag : td.tag ∈ (directory font.bytes).map TableDirectory.tag := by
    rw [font.directory_tags.mem_iff, htables, List.mem_map]
    exact ⟨_, List.mem_map_of_mem (mem_byOffset.mpr hkept), rfl⟩
  obtain ⟨out, hout, hsame⟩ := List.mem_map.mp htag
  have hkeeps := FixName.keeps_placed hw font htables hread hkept hout hsame
  have htable : tableBytes font.bytes out = built := by
    have hload := hkeeps.name hname
    rw [hbuilt] at hload
    exact (Except.ok.inj hload).symm
  obtain ⟨before, after, hsplit⟩ := List.append_of_mem hout
  have hnodup := hfont.tags_nodup
  rw [hsplit, List.map_append, List.map_cons, List.nodup_middle, ← List.map_append,
    List.nodup_cons] at hnodup
  have hinside := hkeeps.inside
  have hsmall := font.size_lt_two_pow
  have hlen := font.bytes_length
  have hout' : toTag out.tag = jstr "name" := by
    rw [hsame]
    exact hname
  refine ⟨font.isFont_bytes, hfont.directory_le, before, out, after, hsplit, hout', ?_, by omega,
    hinside, htable⟩
  intro t ht hno
  apply hnodup.1
  rw [← toTag_injective (hno.trans hout'.symm)]
  exact List.mem_map_of_mem (List.mem_append_right _ ht)

end Output

/-! ## A table built from a document -/

section Loaded

variable {names : List NameEntry}

end Loaded

/-! ## The runs -/

/-- The tables fit into a file, whatever the name table. -/
def Roomy (content : Bytes) : Prop :=
  content.length < 2 ^ 31 ∧ ∀ name : Bytes, name.length ≤ 65536 →
    startOfTables (kept content) + (tableBody (tablesOf content name)).length < 2 ^ 31

section Runs

variable {content : Bytes} {xmlfile : XmlFile} {r w : Nat → Nat → Nat} {td : TableDirectory}

/-- `FixName` returns, and the dump of its output is the dump of the table it built. -/
theorem fix_dump (hw : WellFormed content) (hfont : isFont content) (hroom : Roomy content)
    (htd : td ∈ directory content) (hname : isName td) (hf : (openFile content r).Fills)
    (hd : (openFile [] w).Fills) {built : Bytes} (hbuilt : loadNameTable xmlfile = .ok built) :
    ∃ dst', FixName.run (openFile content r) xmlfile (openFile [] w) = .ok dst' ∧
      ∀ s, (openFile dst'.content s).Fills → ∃ rest, (built ++ rest).length = 65536 ∧
        DumpTable.run (openFile dst'.content s) = dumpName (built ++ rest) := by
  have hread : ∀ td ∈ kept content, FixName.Readable xmlfile td := by
    intro td htd
    have hrange := hw.range td (mem_kept.mp htd).1
    have hsmall := hroom.1
    rw [FixName.Readable]
    split_ifs
    · exact ⟨built, hbuilt⟩
    · omega
  have hsize := hroom.2 _ (builtName_length xmlfile)
  obtain ⟨dst', hrun, hcontent⟩ := FixName.run_of_font hf rfl hd rfl hw
    (FixName.sourceFont hw (builtName xmlfile) hfont hsize) rfl rfl hread
  refine ⟨dst', hrun, ?_⟩
  rw [hcontent]
  intro s hs
  have htable := hasNameTable_font hw (FixName.sourceFont hw (builtName xmlfile) hfont hsize) rfl
    hread htd hname hbuilt
  exact run_eq hs rfl htable (loadNameTable_length hbuilt).2

/-- The texts of a document come out of the font that was fixed with it, but for Macintosh
names with a character that their charset lacks. -/
theorem fix_dump_texts (hw : WellFormed content) (hfont : isFont content)
    (hroom : Roomy content) (htd : td ∈ directory content) (hname : isName td)
    (hf : (openFile content r).Fills) (hd : (openFile [] w).Fills) {heap : Heap}
    {nrs : List Nat} (hload : loadNameRecord xmlfile = .ok (heap, nrs))
    (htext : ∀ r ∈ nrs, HasText (deref heap r))
    (hsize : 6 + 12 * nrs.length + (storageArea heap nrs).length < 32768) :
    ∃ dst' text, FixName.run (openFile content r) xmlfile (openFile [] w) = .ok dst' ∧
      (∀ s, (openFile dst'.content s).Fills →
        DumpTable.run (openFile dst'.content s) = .ok (textDocument heap nrs text)) ∧
      ∀ r ∈ nrs, (deref heap r).value = some (text r) ↔ Representable (deref heap r) := by
  have hs := loadNameRecord_sound hload
  obtain ⟨built, hok, _, hread⟩ := packNameTable_read hs htext hsize
  obtain ⟨dst', hrun, hdump⟩ := fix_dump hw hfont hroom htd hname hf hd
    ((loadNameTable_of_load hload).trans hok)
  refine ⟨dst', textOf heap, hrun, ?_, fun r hr => textOf_eq_iff hs htext hr⟩
  intro s hsf
  obtain ⟨rest, hrest, hdump⟩ := hdump s hsf
  exact hdump.trans (hread rest hrest)

end Runs

/-! ## A font with two names -/

def twoNames : Bytes :=
  layout [⟨1, 0, 0, 1, 2, 0⟩, ⟨3, 1, 1033, 4, 2, 2⟩] [0x41, 0x42, 0x00, 0x43]

/-- A font with `head` and two names. -/
def namedFont : Bytes :=
  offsetTableBytes ⟨0x00010000, 2, 32, 1, 0⟩ ++ entryBytes ⟨headTag, 0, 44, 54⟩ ++
    entryBytes ⟨0x6E616D65, 0, 98, 34⟩ ++ List.replicate 54 0 ++ twoNames

theorem directory_namedFont : directory namedFont =
    [⟨headTag, 0, 44, 54⟩, ⟨0x6E616D65, 0, 98, 34⟩] := by
  rfl

theorem namedFont_length : namedFont.length = 132 := by
  rfl

theorem wellFormed_namedFont : WellFormed namedFont := by
  have hlen := namedFont_length
  have hcount : tableCount namedFont = 2 := rfl
  constructor
  · omega
  · rw [directory_namedFont]
    decide
  · rw [directory_namedFont, hlen]
    decide
  · rw [directory_namedFont]
    decide

theorem kept_namedFont : byOffset (kept namedFont) =
    [⟨headTag, 0, 44, 54⟩, ⟨0x6E616D65, 0, 98, 34⟩] := by
  rw [FixName.kept, directory_namedFont]
  decide

theorem roomy_namedFont : Roomy namedFont := by
  refine ⟨by rw [namedFont_length]; decide, ?_⟩
  intro name h
  have hin : ∀ td ∈ byOffset (kept namedFont), FixName.InRange namedFont td :=
    fun td htd => FixName.kept_inRange wellFormed_namedFont htd
  have hstart : startOfTables (kept namedFont) = 44 := by
    rw [startOfTables, ← byOffset_length, kept_namedFont]
    rfl
  have h1 : FixName.tableLength name ⟨headTag, 0, 44, 54⟩ = 54 := rfl
  have h2 : FixName.tableLength name ⟨0x6E616D65, 0, 98, 34⟩ = name.length := rfl
  have h4 : 4 ∣ startOfTables (kept namedFont) := by
    rw [hstart]
    exact ⟨11, rfl⟩
  rw [tablesOf, ← FixName.sizeFrom_eq name _ _ hin h4, hstart, kept_namedFont]
  simp only [FixName.sizeFrom, h1, h2, Layout.roundUp]
  omega

theorem fix_dump_texts_named : ∃ dst' text,
    FixName.run (openFile namedFont filling) (oneName (jstr "A")) (openFile [] filling) = .ok dst' ∧
      (∀ s, (openFile dst'.content s).Fills → DumpTable.run (openFile dst'.content s) =
        .ok (textDocument [⟨1, 0, 0, 1, 1, 0, some [0x41], some (jstr "A")⟩] [0] text)) ∧
      text 0 = jstr "A" := by
  have htd : ⟨0x6E616D65, 0, 98, 34⟩ ∈ directory namedFont := by
    rw [directory_namedFont]
    exact List.mem_cons_of_mem _ List.mem_cons_self
  have hload := loadNameRecord_oneName (jstr "A")
  obtain ⟨dst', text, hrun, hdump, hiff⟩ := fix_dump_texts wellFormed_namedFont (Or.inl rfl)
    roomy_namedFont htd (by decide) (openFile_fills namedFont) (openFile_fills []) hload
    (fun r hr => by
      rw [List.mem_singleton.mp hr]
      exact ⟨jstr "A", rfl, .single (by decide) .nil, by decide⟩) (by decide)
  have htext := (hiff 0 (List.mem_singleton_self 0)).mpr fun _ value hv d hd => by
    cases hv
    rw [List.mem_singleton.mp hd]
    decide
  exact ⟨dst', text, hrun, hdump, (Option.some.inj htext).symm⟩

end Pipeline
end Otf
end I18nZh
