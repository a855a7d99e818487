import I18nZh.Otf.CheckCorrect
import I18nZh.Otf.FixFont
import I18nZh.Otf.NameCorrect

/-!
# What `FixName` keeps
-/

namespace I18nZh
namespace Otf
namespace FixName

open Java Storage BigEndian RandomAccessFile Tookit Writes Layout

/-! ## A small font -/

/-- The tables `head`, `name`, `abcd` and `DSIG`, of 54, 2, 3 and 1 bytes. -/
def smallFont : Bytes :=
  offsetTableBytes ⟨0x00010000, 4, 64, 2, 0⟩ ++ entryBytes ⟨headTag, 0, 76, 54⟩ ++
    entryBytes ⟨0x6E616D65, 0, 130, 2⟩ ++ entryBytes ⟨0x61626364, 0, 132, 3⟩ ++
    entryBytes ⟨0x44534947, 0, 135, 1⟩ ++ List.replicate 54 0 ++ [1, 2] ++ [3, 4, 5] ++ [6]

/-- An XML document without names. -/
def emptyXml : XmlFile := [.endDocument]

theorem directory_smallFont : directory smallFont =
    [⟨headTag, 0, 76, 54⟩, ⟨0x6E616D65, 0, 130, 2⟩, ⟨0x61626364, 0, 132, 3⟩,
      ⟨0x44534947, 0, 135, 1⟩] := by
  rfl

theorem wellFormed_smallFont : WellFormed smallFont := by
  have hlen : smallFont.length = 136 := rfl
  have hcount : tableCount smallFont = 4 := rfl
  constructor
  · omega
  · rw [directory_smallFont]
    decide
  · rw [directory_smallFont, hlen]
    decide
  · rw [directory_smallFont]
    decide

theorem emptyXml_loads : ∃ table, loadNameTable emptyXml = .ok table := by
  have hload : loadNameRecord emptyXml = .ok ([], []) := rfl
  rw [loadNameTable_of_load hload]
  have hnone : ∀ r ∈ ([] : List Nat), ∃ b, bytesOf [] r = some b ∧ b.length ≤ 32767 := by
    intro r hr
    cases hr
  have hfew : ([] : List Nat).length ≤ 2730 := Nat.zero_le 2730
  obtain ⟨table, hok, _⟩ := packNameTable_represents (loadNameRecord_measured hload)
    hfew hnone (by decide)
  exact ⟨table, hok⟩

theorem kept_smallFont : byOffset (kept smallFont) =
    [⟨headTag, 0, 76, 54⟩, ⟨0x6E616D65, 0, 130, 2⟩, ⟨0x61626364, 0, 132, 3⟩] := by
  rw [kept, directory_smallFont]
  decide

theorem smallFont_size {name : Bytes} (h : name.length ≤ 65536) :
    startOfTables (kept smallFont) + (tableBody (tablesOf smallFont name)).length < 2 ^ 31 := by
  have hin : ∀ td ∈ byOffset (kept smallFont), InRange smallFont td :=
    fun td htd => kept_inRange wellFormed_smallFont htd
  have hstart : startOfTables (kept smallFont) = 60 := by
    rw [startOfTables, ← byOffset_length, kept_smallFont]
    rfl
  have h1 : tableLength name ⟨headTag, 0, 76, 54⟩ = 54 := rfl
  have h2 : tableLength name ⟨0x6E616D65, 0, 130, 2⟩ = name.length := rfl
  have h3 : tableLength name ⟨0x61626364, 0, 132, 3⟩ = 3 := rfl
  have h4 : 4 ∣ startOfTables (kept smallFont) := by
    rw [hstart]
    exact ⟨15, rfl⟩
  rw [tablesOf, ← sizeFrom_eq name _ _ hin h4, hstart, kept_smallFont]
  simp only [sizeFrom, h1, h2, h3, roundUp]
  omega

theorem readable_smallFont : ∀ td ∈ kept smallFont, Readable emptyXml td := by
  intro td htd
  rw [← mem_byOffset, kept_smallFont] at htd
  simp only [List.mem_cons, List.not_mem_nil, or_false] at htd
  rcases htd with rfl | rfl | rfl
  · exact (if_neg (by decide)).mpr ⟨by decide, by decide⟩
  · exact emptyXml_loads
  · exact (if_neg (by decide)).mpr ⟨by decide, by decide⟩

theorem run_smallFont : ∃ dst', run (openFile smallFont filling) emptyXml (openFile [] filling) =
    .ok dst' := by
  have hsize := smallFont_size (builtName_length emptyXml)
  obtain ⟨dst', hrun, _⟩ := run_of_font (openFile_fills smallFont) rfl (openFile_fills []) rfl
    wellFormed_smallFont
    (sourceFont wellFormed_smallFont (builtName emptyXml) (by decide) hsize) rfl rfl
    readable_smallFont
  exact ⟨dst', hrun⟩

section Keeps

variable {xmlfile : XmlFile} {content : Bytes} {r w : Nat → Nat → Nat}

/-- What an entry of the output is about, for a table other than `name` and
`head`, for `head`, and for `name`. -/
structure Keeps (xmlfile : XmlFile) (content output : Bytes) (td out : TableDirectory) : Prop where
  inside : out.offset.toNat + out.length.toNat ≤ output.length
  other : ¬ isName td → ¬ isHead td →
    out.length = td.length ∧ tableBytes output out = tableBytes content td
  head : isHead td → out.length = td.length ∧
    (tableBytes output out).take 8 = (tableBytes content td).take 8 ∧
    (tableBytes output out).drop 12 = (tableBytes content td).drop 12
  name : isName td → loadNameTable xmlfile = .ok (tableBytes output out)

theorem stored_other (font : Font) (name : Bytes) {td : TableDirectory} (hh : ¬ isHead td) :
    font.stored (tableOf content name td) = tableData content name td := by
  have hnot : (tableOf content name td).tag ≠ headTag := fun h => hh (toTag_eq_head.mpr h)
  rw [Font.stored, if_neg hnot, tableOf, if_neg hh]

/-- `head` keeps what is in front of the adjustment and what is behind it. -/
theorem stored_head (font : Font) {name : Bytes} {td : TableDirectory} (hh : isHead td)
    (h12 : 12 ≤ (tableData content name td).length) :
    (font.stored (tableOf content name td)).take 8 = (tableData content name td).take 8 ∧
      (font.stored (tableOf content name td)).drop 12 =
        (tableData content name td).drop 12 := by
  have htag : (tableOf content name td).tag = headTag := toTag_eq_head.mp hh
  have hcleared : (overwrite 0 (tableData content name td) 8 (intBytes 0)).length =
      (tableData content name td).length :=
    overwrite_length_of_le 0 (by rw [intBytes_length]; omega)
  have hd1 := drop_overwrite 0 (intBytes font.adjustment)
    (by omega : 8 ≤ (overwrite 0 (tableData content name td) 8 (intBytes 0)).length)
  have hd2 := drop_overwrite 0 (intBytes 0) (by omega : 8 ≤ (tableData content name td).length)
  rw [intBytes_length] at hd1 hd2
  rw [Font.stored, if_pos htag, tableOf, if_pos hh]
  simp only
  constructor
  · rw [take_overwrite 0 _ (by omega), take_overwrite 0 _ (by omega)]
  · rw [hd1, hd2]

/-- The table at a place keeps what there is to keep. -/
theorem keeps_placed (hw : WellFormed content) (font : Font)
    (htables : font.tables = tablesOf content (builtName xmlfile))
    (hread : ∀ td ∈ kept content, Readable xmlfile td) {td out : TableDirectory}
    (htd : td ∈ kept content) (hout : out ∈ directory font.bytes) (htag : out.tag = td.tag) :
    Keeps xmlfile content font.bytes td out := by
  obtain ⟨p, hp, rfl⟩ := font.mem_directory_bytes.mp hout
  have hmem := Font.mem_tables hp
  rw [htables] at hmem
  obtain ⟨src, hsrc, hpsrc⟩ := List.mem_map.mp hmem
  have hsrctag : src.tag = td.tag := by
    rw [← htag, ← hpsrc]
    rfl
  have hdir : src ∈ directory content := (mem_kept.mp (mem_byOffset.mp hsrc)).1
  have heq : src = td :=
    List.inj_on_of_nodup_map hw.tags_nodup hdir (mem_kept.mp htd).1 hsrctag
  rw [heq] at hpsrc hsrc
  have hin := kept_inRange hw hsrc
  have hbytes := font.tableBytes_entry hp
  obtain ⟨hoff, hlen⟩ := font.entry_toNat hp
  have hbounds := Font.placed_bounds hp
  have hlong := tableOf_length (builtName xmlfile) hin
  have hdata := tableData_length (builtName xmlfile) hin
  have hlength (hn : ¬ isName td) : (p.2.entry p.1).length = td.length := by
    show BitVec.ofNat 32 p.2.data.length = _
    rw [← hpsrc, hlong, tableLength, if_neg hn, ofNat_toNat_self]
  rw [← hpsrc] at hbytes
  constructor
  · rw [hoff, hlen, font.bytes_length]
    exact hbounds.2
  · intro hn hh
    refine ⟨hlength hn, ?_⟩
    rw [← hpsrc, hbytes, stored_other font _ hh, tableData, if_neg hn]
  · intro hh
    have hn : ¬ isName td := fun hn => isName_not_isHead hn hh
    have h12 := head_le_tableLength (builtName xmlfile) hin hh
    have hsource : tableData content (builtName xmlfile) td = tableBytes content td := by
      rw [tableData, if_neg hn]
    obtain ⟨htake, hdrop⟩ := stored_head font hh (by omega :
      12 ≤ (tableData content (builtName xmlfile) td).length)
    rw [← hpsrc, hbytes, ← hsource]
    exact ⟨by rw [hpsrc]; exact hlength hn, htake, hdrop⟩
  · intro hn
    have hh : ¬ isHead td := isName_not_isHead hn
    have hready := hread td htd
    rw [Readable, if_pos hn] at hready
    obtain ⟨table, htable⟩ := hready
    rw [← hpsrc, hbytes, stored_other font _ hh, tableData, if_pos hn, builtName_eq htable,
      htable]

/-- The output has the tables of the source but `DSIG`, each with its content. -/
theorem run_keeps_tables (hw : WellFormed content) (hf : (openFile content r).Fills)
    (hd : (openFile [] w).Fills) {dst' : RandomAccessFile}
    (h : run (openFile content r) xmlfile (openFile [] w) = .ok dst') :
    (offsetTableOf dst'.content).sfnt = (offsetTableOf content).sfnt ∧
      (offsetTableOf dst'.content).numTables.toNat =
        ((directory content).filter fun td => ¬ isDSIG td).length ∧
      (directory dst'.content).length = (offsetTableOf dst'.content).numTables.toNat ∧
      ((directory dst'.content).map TableDirectory.tag).Nodup ∧
      (∀ tag, tag ∈ (directory dst'.content).map TableDirectory.tag ↔
        tag ∈ (directory content).map TableDirectory.tag ∧ toTag tag ≠ jstr "DSIG") ∧
      ∀ td ∈ directory content, ¬ isDSIG td → ∀ out ∈ directory dst'.content,
        out.tag = td.tag → Keeps xmlfile content dst'.content td out := by
  obtain ⟨font, hsfnt, htables, hcontent, hread⟩ := run_font hf rfl hd rfl hw h
  have hlen : font.tables.length = (kept content).length := by
    rw [htables, tablesOf_length]
    rfl
  have hnum : (offsetTableOf font.bytes).numTables.toNat = font.tables.length := by
    have hle := font.count_le
    rw [font.offsetTableOf_font]
    show (BitVec.ofNat 16 font.tables.length).toNat = _
    rw [BitVec.toNat_ofNat]
    exact Nat.mod_eq_of_lt (by omega)
  have hperm := font.directory_tags
  rw [hcontent]
  refine ⟨?_, ?_, ?_, ?_, ?_, ?_⟩
  · rw [font.sfnt_font, hsfnt]
    rfl
  · rw [hnum, hlen]
    rfl
  · rw [directory_length, font.tableCount_font, hnum]
  · exact hperm.nodup_iff.mpr font.tags_nodup
  · intro tag
    rw [hperm.mem_iff, htables, List.mem_map, List.mem_map]
    constructor
    · intro h
      obtain ⟨t, ht, rfl⟩ := h
      obtain ⟨td, htd, rfl⟩ := List.mem_map.mp ht
      obtain ⟨hmem, hno⟩ := mem_kept.mp (mem_byOffset.mp htd)
      exact ⟨⟨td, hmem, rfl⟩, hno⟩
    · intro h
      obtain ⟨⟨td, htd, rfl⟩, hno⟩ := h
      have hmem : td ∈ byOffset (kept content) := mem_byOffset.mpr (mem_kept.mpr ⟨htd, hno⟩)
      exact ⟨tableOf content (builtName xmlfile) td, List.mem_map_of_mem hmem, rfl⟩
  · intro td htd hno out hout htag
    exact keeps_placed hw font htables hread (mem_kept.mpr ⟨htd, hno⟩) hout htag

theorem run_keeps_tables_small : ∃ dst',
    run (openFile smallFont filling) emptyXml (openFile [] filling) = .ok dst' ∧
      (offsetTableOf dst'.content).numTables.toNat = 3 ∧
      ∀ out ∈ directory dst'.content, out.tag = 0x61626364 →
        Keeps emptyXml smallFont dst'.content ⟨0x61626364, 0, 132, 3⟩ out := by
  obtain ⟨dst', hrun⟩ := run_smallFont
  obtain ⟨_, hnum, _, _, _, hkeeps⟩ := run_keeps_tables wellFormed_smallFont
    (openFile_fills smallFont) (openFile_fills []) hrun
  rw [directory_smallFont] at hnum hkeeps
  refine ⟨dst', hrun, by rw [hnum]; decide, ?_⟩
  intro out hout htag
  exact hkeeps _ (by decide) (by decide) out hout htag

end Keeps

/-- The font file is one the tool can work on. -/
theorem wellFormed_font (font : Font) : WellFormed font.bytes := by
  constructor
  · rw [font.tableCount_font, font.bytes_length]
    exact Nat.le_add_right _ _
  · exact font.directory_tags.nodup_iff.mpr font.tags_nodup
  · intro td htd
    obtain ⟨p, hp, rfl⟩ := font.mem_directory_bytes.mp htd
    obtain ⟨hoff, hlen⟩ := font.entry_toNat hp
    rw [hoff, hlen, font.bytes_length]
    exact (Font.placed_bounds hp).2
  · obtain ⟨t, ht, htag, h54, _⟩ := font.headAt_spec
    obtain ⟨_, hlen⟩ := font.entry_toNat ht
    refine ⟨t.entry font.headAt, font.mem_directory_bytes.mpr ⟨_, ht, rfl⟩,
      toTag_eq_head.mpr htag, ?_⟩
    rw [hlen]
    exact h54

/-! ## Sums -/

section Sums

/-- The sums of the directory, the adjustment in `head` taken as zero. -/
theorem checkSum_font (font : Font) {out : TableDirectory} (hout : out ∈ directory font.bytes) :
    out.checkSum = wordSum (if isHead out then
      overwrite 0 (tableBytes font.bytes out) 8 (intBytes 0)
    else tableBytes font.bytes out) := by
  obtain ⟨p, hp, rfl⟩ := font.mem_directory_bytes.mp hout
  rw [font.tableBytes_entry hp]
  by_cases hh : isHead (p.2.entry p.1)
  · rw [if_pos hh, font.clear_stored hp (toTag_eq_head.mp hh)]
    rfl
  · have hnot : p.2.tag ≠ headTag := fun h => hh (toTag_eq_head.mpr h)
    rw [if_neg hh, font.stored_of_ne hnot]
    rfl

/-- The font file is one that can be checked. -/
theorem checkable_font (font : Font) (hmax : ∀ t ∈ font.tables, t.tag = headTag →
    t.data.length ≤ 65536) : ∃ head, CheckSum.Checkable font.bytes head := by
  obtain ⟨t, ht, htag, h54, _⟩ := font.headAt_spec
  obtain ⟨hoff, hlen⟩ := font.entry_toNat ht
  have hw := wellFormed_font font
  have hmem : t.entry font.headAt ∈ directory font.bytes :=
    font.mem_directory_bytes.mpr ⟨_, ht, rfl⟩
  obtain ⟨before, after, hsplit⟩ := List.append_of_mem hmem
  have hnodup := hw.tags_nodup
  rw [hsplit, List.map_append, List.map_cons, List.nodup_middle, ← List.map_append,
    List.nodup_cons] at hnodup
  refine ⟨t.entry font.headAt, font.isFont_bytes, hw.directory_le, hw.range,
    ⟨before, after, hsplit, toTag_eq_head.mpr htag, ?_⟩, ?_, ?_, ?_⟩
  · intro td htd hh
    apply hnodup.1
    have heq : td.tag = (t.entry font.headAt).tag := (toTag_eq_head.mp hh).trans htag.symm
    rw [← heq]
    exact List.mem_map_of_mem htd
  · rw [hoff]
    exact Font.four_dvd_place ht
  · rw [hlen]
    exact h54
  · rw [hlen]
    exact hmax t (Font.mem_tables ht) htag

/-- `CheckSum` has nothing to say about the font file. -/
theorem output_font (font : Font) {head : TableDirectory}
    (h : CheckSum.Checkable font.bytes head) {s : Nat → Nat → Nat}
    (hs : (openFile font.bytes s).Fills) (tag : JString) :
    CheckSum.Line.fail tag ∉ CheckSum.output (openFile font.bytes s) := by
  have hsize : font.bytes.length < 2 ^ 31 := by
    rw [font.bytes_length]
    exact font.size_lt_two_pow
  have hrange := h.range head h.mem
  have haligned := h.aligned
  have h54 := h.length_ge
  intro hfail
  rcases (CheckSum.fail_mem_output hs h hsize).mp hfail with ⟨td, htd, hh, hsum, _⟩ | ⟨hadj, _⟩
  · have hcheck := checkSum_font font htd
    have hnot : ¬ isHead td := hh
    rw [if_neg hnot] at hcheck
    exact hsum hcheck.symm
  · apply hadj
    rw [CheckSum.withoutAdjustment, wordSum_overwrite (by omega) (by omega), font.wordSum_bytes,
      CheckSum.storedAdjustment]
    ring

/-- The sums in the output are right, and the check of the output passes. -/
theorem run_sums {xmlfile : XmlFile} {content : Bytes} {r w : Nat → Nat → Nat}
    (hw : WellFormed content)
    (hmax : ∀ td ∈ directory content, isHead td → td.length.toNat ≤ 65536)
    (hf : (openFile content r).Fills) (hd : (openFile [] w).Fills) {dst' : RandomAccessFile}
    (h : run (openFile content r) xmlfile (openFile [] w) = .ok dst') :
    (∀ out ∈ directory dst'.content, out.checkSum = wordSum (if isHead out then
        overwrite 0 (tableBytes dst'.content out) 8 (intBytes 0)
      else tableBytes dst'.content out)) ∧
      wordSum dst'.content = 0xB1B0AFBA#32 ∧
      ∀ s, (openFile dst'.content s).Fills → ∀ tag,
        CheckSum.Line.fail tag ∉ CheckSum.output (openFile dst'.content s) := by
  obtain ⟨font, _, htables, hcontent, _⟩ := run_font hf rfl hd rfl hw h
  have hhead : ∀ t ∈ font.tables, t.tag = headTag → t.data.length ≤ 65536 := by
    intro t ht htag
    rw [htables] at ht
    obtain ⟨td, htd, rfl⟩ := List.mem_map.mp ht
    have hh : isHead td := toTag_eq_head.mpr htag
    have hn : ¬ isName td := fun hn => isName_not_isHead hn hh
    have hlen := tableOf_length (builtName xmlfile) (kept_inRange hw htd)
    rw [tableLength, if_neg hn] at hlen
    rw [openFile, hlen]
    exact hmax td (mem_kept.mp (mem_byOffset.mp htd)).1 hh
  obtain ⟨head, hcheck⟩ := checkable_font font hhead
  rw [hcontent]
  refine ⟨fun out hout => checkSum_font font hout, font.wordSum_bytes, ?_⟩
  intro s hs tag
  exact output_font font hcheck hs tag

theorem run_sums_small : ∃ dst',
    run (openFile smallFont filling) emptyXml (openFile [] filling) = .ok dst' ∧
      wordSum dst'.content = 0xB1B0AFBA#32 ∧
      ∀ tag, CheckSum.Line.fail tag ∉ CheckSum.output (openFile dst'.content filling) := by
  obtain ⟨dst', hrun⟩ := run_smallFont
  obtain ⟨_, hsum, hcheck⟩ := run_sums wellFormed_smallFont
    (by rw [directory_smallFont]; decide) (openFile_fills smallFont) (openFile_fills []) hrun
  exact ⟨dst', hrun, hsum, hcheck filling (openFile_fills _)⟩

end Sums

/-! ## A second run -/

section Again

/-- Without empty tables the entries ascend strictly. -/
theorem entries_ascending (font : Font) (hne : ∀ t ∈ font.tables, t.data ≠ []) :
    font.entries.Pairwise fun a b => a.offset.toInt < b.offset.toInt := by
  have hpair : font.placed.Pairwise fun p q => p.1 + roundUp 4 p.2.data.length ≤ q.1 :=
    place_pairwise Table.data 4 font.tables font.start
  rw [Font.entries, entriesFrom, List.pairwise_map]
  refine List.Pairwise.imp_of_mem ?_ hpair
  intro p q hp hq hpq
  have hpos := List.length_pos_iff.mpr (hne p.2 (Font.mem_tables hp))
  have hge := roundUp_ge (by decide : 0 < 4) p.2.data.length
  have hbp := Font.placed_bounds hp
  have hbq := Font.placed_bounds hq
  have hsmall := font.size_lt_two_pow
  have h1 : (BitVec.ofNat 32 p.1).toInt = p.1 := toInt_ofNat_of_lt (by omega)
  have h2 : (BitVec.ofNat 32 q.1).toInt = q.1 := toInt_ofNat_of_lt (by omega)
  show (BitVec.ofNat 32 p.1).toInt < (BitVec.ofNat 32 q.1).toInt
  omega

/-- The tables of the file are those it was made of. -/
theorem tablesOf_font (font : Font) (name : Bytes) (hne : ∀ t ∈ font.tables, t.data ≠ [])
    (hdsig : ∀ t ∈ font.tables, toTag t.tag ≠ jstr "DSIG")
    (hname : ∀ t ∈ font.tables, toTag t.tag = jstr "name" → t.data = name) :
    tablesOf font.bytes name = font.tables := by
  have hkept : kept font.bytes = byTag font.entries := by
    rw [kept, font.directory_bytes, List.filter_eq_self]
    intro td htd
    obtain ⟨p, hp, rfl⟩ := List.mem_map.mp (mem_byTag.mp htd)
    exact decide_eq_true (hdsig p.2 (Font.mem_tables hp))
  have hsort : byOffset (byTag font.entries) = font.entries :=
    byOffset_of_perm (List.perm_insertionSort _ _) (entries_ascending font hne)
  have htable : ∀ p ∈ font.placed, tableOf font.bytes name (p.2.entry p.1) = p.2 := by
    intro p hp
    have hbytes := font.tableBytes_entry hp
    by_cases hn : isName (p.2.entry p.1)
    · have hh := isName_not_isHead hn
      rw [tableOf, if_neg hh, tableData, if_pos hn, ← hname p.2 (Font.mem_tables hp) hn]
      rfl
    · by_cases hh : isHead (p.2.entry p.1)
      · rw [tableOf, if_pos hh, tableData, if_neg hn, hbytes,
          font.clear_stored hp (toTag_eq_head.mp hh)]
        rfl
      · have hnot : p.2.tag ≠ headTag := fun h => hh (toTag_eq_head.mpr h)
        rw [tableOf, if_neg hh, tableData, if_neg hn, hbytes, font.stored_of_ne hnot]
        rfl
  rw [tablesOf, hkept, hsort, Font.entries, entriesFrom, List.map_map]
  show font.placed.map (tableOf font.bytes name ∘ _) = _
  calc
    _ = font.placed.map Prod.snd := List.map_congr_left htable
    _ = font.tables := place_map_snd Table.data 4 font.tables font.start

/-- Fixing a font that was fixed changes nothing. -/
theorem run_idempotent {xmlfile : XmlFile} {content : Bytes} {r w r' w' : Nat → Nat → Nat}
    (hw : WellFormed content) (hne : ∀ td ∈ directory content, td.length.toNat ≠ 0)
    (hf : (openFile content r).Fills) (hd : (openFile [] w).Fills) {dst' : RandomAccessFile}
    (h : run (openFile content r) xmlfile (openFile [] w) = .ok dst')
    (hf' : (openFile dst'.content r').Fills) (hd' : (openFile [] w').Fills) :
    ∃ dst'', run (openFile dst'.content r') xmlfile (openFile [] w') = .ok dst'' ∧
      dst''.content = dst'.content := by
  obtain ⟨font, hsfnt, htables, hcontent, hread⟩ := run_font hf rfl hd rfl hw h
  have hmem : ∀ t ∈ font.tables, ∃ td ∈ kept content,
      t = tableOf content (builtName xmlfile) td ∧ InRange content td := by
    intro t ht
    rw [htables] at ht
    obtain ⟨td, htd, rfl⟩ := List.mem_map.mp ht
    exact ⟨td, mem_byOffset.mp htd, rfl, kept_inRange hw htd⟩
  have hname : ∀ td ∈ kept content, isName td →
      loadNameTable xmlfile = .ok (builtName xmlfile) := by
    intro td htd hn
    have hready := hread td htd
    rw [Readable, if_pos hn] at hready
    obtain ⟨table, htable⟩ := hready
    rw [builtName_eq htable, htable]
  have hsame : tablesOf font.bytes (builtName xmlfile) = font.tables := by
    apply tablesOf_font
    · intro t ht hnil
      obtain ⟨td, htd, rfl, hin⟩ := hmem t ht
      have hlen := tableOf_length (builtName xmlfile) hin
      rw [hnil, List.length_nil, tableLength] at hlen
      by_cases hn : isName td
      · have h6 := loadNameTable_length (hname td htd hn)
        rw [if_pos hn] at hlen
        omega
      · rw [if_neg hn] at hlen
        exact hne td (mem_kept.mp htd).1 hlen.symm
    · intro t ht
      obtain ⟨td, htd, rfl, _⟩ := hmem t ht
      exact (mem_kept.mp htd).2
    · intro t ht hn
      obtain ⟨td, htd, rfl, _⟩ := hmem t ht
      have hn' : isName td := hn
      have hh := isName_not_isHead hn'
      rw [tableOf, if_neg hh, tableData, if_pos hn']
  rw [hcontent] at hf' ⊢
  refine run_of_font hf' rfl hd' rfl (wellFormed_font font) font ?_ hsame.symm ?_
  · exact font.sfnt_font.symm
  · intro td htd
    obtain ⟨p, hp, rfl⟩ := font.mem_directory_bytes.mp (mem_kept.mp htd).1
    obtain ⟨hoff, hlen⟩ := font.entry_toNat hp
    have hb := Font.placed_bounds hp
    have hsmall := font.size_lt_two_pow
    by_cases hn : isName (p.2.entry p.1)
    · obtain ⟨src, hsrc, heq, _⟩ := hmem p.2 (Font.mem_tables hp)
      have hn' : isName src := by
        have htag : (p.2.entry p.1).tag = src.tag := by
          show p.2.tag = src.tag
          rw [heq]
          rfl
        unfold isName
        rw [← htag]
        exact hn
      rw [Readable, if_pos hn]
      exact ⟨_, hname src hsrc hn'⟩
    · rw [Readable, if_neg hn, hoff, hlen]
      omega

theorem run_idempotent_small : ∃ dst' dst'',
    run (openFile smallFont filling) emptyXml (openFile [] filling) = .ok dst' ∧
      run (openFile dst'.content filling) emptyXml (openFile [] filling) = .ok dst'' ∧
      dst''.content = dst'.content := by
  obtain ⟨dst', hrun⟩ := run_smallFont
  obtain ⟨dst'', hagain, hsame⟩ := run_idempotent wellFormed_smallFont
    (by rw [directory_smallFont]; decide) (openFile_fills smallFont) (openFile_fills []) hrun
    (openFile_fills dst'.content) (openFile_fills [])
  exact ⟨dst', dst'', hrun, hagain, hsame⟩

end Again

end FixName
end Otf
end I18nZh
