import I18nZh.Otf.FixOutput

/-!
# The font `FixName` makes

When directory and tables of the source lie inside the file, and the output file
is new, a run leaves the font put together from the tables of the source in the
order of their offsets, with the name table that was built.
-/

namespace I18nZh
namespace Otf
namespace FixName

open Java Storage BigEndian RandomAccessFile Tookit Writes Layout

/-! ## One table -/

section Table

variable (src name : Bytes)

/-- The table that is made of an entry. -/
def tableOf (td : TableDirectory) : Table :=
  { tag := td.tag
    data := if isHead td then overwrite 0 (tableData src name td) 8 (intBytes 0)
      else tableData src name td }

/-- The entry does not reach past the source, and an adjustment fits in `head`. -/
structure InRange (td : TableDirectory) : Prop where
  range : ¬ isName td → td.offset.toNat + td.length.toNat ≤ src.length
  head : isHead td → 12 ≤ td.length.toNat

variable {src} {td : TableDirectory} (h : InRange src td)

include h

theorem tableData_length : (tableData src name td).length = tableLength name td := by
  unfold tableData tableLength
  by_cases hn : isName td
  · rw [if_pos hn, if_pos hn]
  · rw [if_neg hn, if_neg hn, tableBytes, slice_length_of_le (h.range hn)]

theorem head_le_tableLength (hh : isHead td) : 12 ≤ tableLength name td := by
  have hn : ¬ isName td := fun hn => isName_not_isHead hn hh
  rw [tableLength, if_neg hn]
  exact h.head hh

theorem tableOf_length : (tableOf src name td).data.length = tableLength name td := by
  have hlen := tableData_length name h
  unfold tableOf
  simp only
  by_cases hh : isHead td
  · have := head_le_tableLength name h hh
    rw [if_pos hh, overwrite_length_of_le 0 (by rw [intBytes_length]; omega), hlen]
  · rw [if_neg hh, hlen]

/-- The writes of the table itself. -/
theorem copyWrites_extend {c : Bytes} {s : Nat} (hc : c.length ≤ s) :
    extend 0 (applyWrites 0 c (copyWrites src name td s)) (s + tableLength name td) =
      extend 0 c s ++ (tableOf src name td).data := by
  have hlen := tableData_length name h
  have hext := extend_overwrite 0 hc (tableData src name td)
  have hs := extend_length 0 hc
  rw [hlen] at hext
  unfold copyWrites tableOf
  simp only
  by_cases hh : isHead td
  · have h12 := head_le_tableLength name h hh
    have hone : (overwrite 0 c s (tableData src name td)).length =
        s + tableLength name td := by
      rw [overwrite_length, if_neg (by intro hnil; rw [hnil] at hlen; simp at hlen; omega)]
      omega
    rw [extend_of_le 0 (by omega)] at hext
    have hclear := overwrite_append_right 0 (extend 0 c s) (tableData src name td) 8 (intBytes 0)
    rw [hs] at hclear
    rw [if_pos hh, if_pos hh, applyWrites_cons, applyWrites_cons, applyWrites_nil]
    simp only
    rw [hext, hclear, extend_of_le]
    rw [List.length_append, overwrite_length_of_le 0 (by rw [intBytes_length]; omega), hlen, hs]
  · rw [if_neg hh, if_neg hh, applyWrites_cons, applyWrites_nil]
    exact hext

theorem copyWrites_length {c : Bytes} {s : Nat} (hc : c.length ≤ s) :
    (applyWrites 0 c (copyWrites src name td s)).length ≤ s + tableLength name td := by
  have hext := congrArg List.length (copyWrites_extend name h hc)
  have hs := extend_length 0 hc
  rw [List.length_append, hs, tableOf_length name h, extend, List.length_append] at hext
  omega

/-- The entry after the table was put in place. -/
theorem newEntry_eq {c : Bytes} {s : Nat} (hc : c.length ≤ s) :
    newEntry name td s (applyWrites 0 c (copyWrites src name td s)) =
      (tableOf src name td).entry s := by
  have hlen := tableOf_length name h
  have hext := copyWrites_extend name h hc
  have hs := extend_length 0 hc
  have hcells : ∀ j, j < tableLength name td →
      (applyWrites 0 c (copyWrites src name td s)).getD (s + j) 0 =
        (extend 0 c s ++ (tableOf src name td).data).getD (s + j) 0 := by
    intro j _
    rw [← hext, getD_extend]
  have hblock := slice_append_block (extend 0 c s) (tableOf src name td).data []
  rw [List.append_nil, hs, hlen] at hblock
  unfold newEntry Table.entry
  rw [wordSum_slice_congr hcells, hblock, hlen]
  rfl

end Table

/-! ## The loop over the tables -/

section Body

variable {src : Bytes} (name : Bytes)

/-- What the body of the loop appends. -/
theorem tableWrites_extend {td : TableDirectory} (h : InRange src td) {c : Bytes} {s : Nat}
    (hc : c.length ≤ s) (h4 : 4 ∣ s) :
    extend 0 (applyWrites 0 c (copyWrites src name td s ++ [padWrite (s + tableLength name td)]))
        (roundUp 4 (s + tableLength name td)) =
      extend 0 c s ++ padded 0 4 (tableOf src name td).data := by
  have hround := roundUp_add (by decide : 0 < 4) h4 (tableLength name td)
  have hge := roundUp_ge (by decide : 0 < 4) (tableLength name td)
  have hpad := extend_overwrite 0 (copyWrites_length name h hc)
    (List.replicate (roundUp 4 (s + tableLength name td) - (s + tableLength name td)) (0 : JByte))
  rw [List.length_replicate, Nat.add_sub_cancel' (by omega), copyWrites_extend name h hc,
    List.append_assoc] at hpad
  rw [applyWrites_append, padded, tableOf_length name h, hround]
  rw [hround, Nat.add_sub_add_left] at hpad
  show extend 0 (overwrite 0 _ _ (List.replicate
    (roundUp 4 (s + tableLength name td) - (s + tableLength name td)) 0)) _ = _
  rw [hround, Nat.add_sub_add_left]
  exact hpad

theorem tableWrites_length {td : TableDirectory} (h : InRange src td) {c : Bytes} {s : Nat}
    (hc : c.length ≤ s) :
    (applyWrites 0 c (copyWrites src name td s ++
      [padWrite (s + tableLength name td)])).length ≤ roundUp 4 (s + tableLength name td) := by
  have hcopy := copyWrites_length name h hc
  have hge := roundUp_ge (by decide : 0 < 4) (s + tableLength name td)
  rw [applyWrites_append, applyWrites_cons, applyWrites_nil, padWrite, overwrite_length,
    List.length_replicate]
  split_ifs <;> omega

/-- The whole loop, on a file that ends before the first table. -/
theorem bodyWrites_extend : ∀ (tds : List TableDirectory) (c : Bytes) (s : Nat),
    (∀ td ∈ tds, InRange src td) → c.length ≤ s → 4 ∣ s →
    extend 0 (applyWrites 0 c (bodyWrites src name tds s)) (sizeFrom name tds s) =
        extend 0 c s ++ tableBody (tds.map (tableOf src name)) ∧
      newEntries src name tds s c = entriesFrom (tds.map (tableOf src name)) s := by
  intro tds
  induction tds with
  | nil =>
    intro c s _ _ _
    exact ⟨(List.append_nil _).symm, rfl⟩
  | cons td rest ih =>
    intro c s hin hc h4
    have htd := hin td List.mem_cons_self
    have hround := roundUp_add (by decide : 0 < 4) h4 (tableLength name td)
    have hone := tableWrites_extend name htd hc h4
    have hnew := newEntry_eq name htd hc
    obtain ⟨hbytes, hentries⟩ := ih
      (applyWrites 0 c (copyWrites src name td s ++ [padWrite (s + tableLength name td)]))
      (roundUp 4 (s + tableLength name td)) (fun t ht => hin t (List.mem_cons_of_mem td ht))
      (tableWrites_length name htd hc) (dvd_roundUp 4 _)
    constructor
    · rw [bodyWrites, sizeFrom, applyWrites_append, hbytes, hone, List.append_assoc]
      rfl
    · rw [newEntries, hentries, hnew, hround, ← tableOf_length name htd]
      rfl

theorem sizeFrom_eq : ∀ (tds : List TableDirectory) (s : Nat), (∀ td ∈ tds, InRange src td) →
    4 ∣ s → sizeFrom name tds s = s + (tableBody (tds.map (tableOf src name))).length := by
  intro tds
  induction tds with
  | nil => intro s _ _; rfl
  | cons td rest ih =>
    intro s hin h4
    have hlen := tableOf_length name (hin td List.mem_cons_self)
    have hround := roundUp_add (by decide : 0 < 4) h4 (tableLength name td)
    have hpad := padded_length (0 : JByte) (by decide : 0 < 4) (tableOf src name td).data
    rw [sizeFrom, ih _ (fun t ht => hin t (List.mem_cons_of_mem td ht)) (dvd_roundUp 4 _),
      List.map_cons, tableBody_cons, List.length_append, hpad, hlen, hround, Nat.add_assoc]

theorem le_sizeFrom : ∀ (tds : List TableDirectory) (s : Nat), s ≤ sizeFrom name tds s := by
  intro tds
  induction tds with
  | nil => intro s; exact Nat.le_refl s
  | cons td rest ih =>
    intro s
    have hge := roundUp_ge (by decide : 0 < 4) (s + tableLength name td)
    have := ih (roundUp 4 (s + tableLength name td))
    rw [sizeFrom]
    omega

/-- The writes of a table stay below the place of the next one. -/
theorem reach_tableWrites {td : TableDirectory} (h : InRange src td) {s : Nat} :
    reach (copyWrites src name td s ++ [padWrite (s + tableLength name td)]) ≤
        roundUp 4 (s + tableLength name td) ∧
      (0 < tableLength name td →
        reach (copyWrites src name td s ++ [padWrite (s + tableLength name td)]) =
          roundUp 4 (s + tableLength name td)) := by
  have hlen := tableData_length name h
  have hge := roundUp_ge (by decide : 0 < 4) (s + tableLength name td)
  have hle : reach (copyWrites src name td s ++ [padWrite (s + tableLength name td)]) ≤
      roundUp 4 (s + tableLength name td) := by
    apply reach_le
    intro w hw
    simp only [copyWrites, List.cons_append, List.mem_cons, List.mem_append, List.not_mem_nil,
      or_false] at hw
    rcases hw with rfl | hw | rfl
    · simp only
      omega
    · by_cases hh : isHead td
      · have := head_le_tableLength name h hh
        rw [if_pos hh, List.mem_singleton] at hw
        rw [hw]
        simp only [intBytes_length]
        omega
      · rw [if_neg hh] at hw
        cases hw
    · simp only [padWrite, List.length_replicate]
      omega
  refine ⟨hle, ?_⟩
  intro hpos
  have hdata : (s, tableData src name td) ∈ copyWrites src name td s ++
      [padWrite (s + tableLength name td)] := List.mem_append_left _ List.mem_cons_self
  have hreach := le_reach hdata (by
    intro hnil
    simp only at hnil
    rw [hnil, List.length_nil] at hlen
    omega)
  have hpad : padWrite (s + tableLength name td) ∈ copyWrites src name td s ++
      [padWrite (s + tableLength name td)] := List.mem_append_right _ List.mem_cons_self
  by_cases heq : roundUp 4 (s + tableLength name td) = s + tableLength name td
  · simp only at hreach
    omega
  · have hreach' := le_reach hpad (by
      intro hnil
      have := congrArg List.length hnil
      simp only [padWrite, List.length_replicate, List.length_nil] at this
      omega)
    simp only [padWrite, List.length_replicate] at hreach'
    simp only [padWrite] at hle ⊢
    omega

/-- The writes of all tables reach the end, unless all are empty. -/
theorem reach_bodyWrites : ∀ (tds : List TableDirectory) (s : Nat),
    (∀ td ∈ tds, InRange src td) → 4 ∣ s →
    reach (bodyWrites src name tds s) ≤ sizeFrom name tds s ∧
      (s < sizeFrom name tds s → reach (bodyWrites src name tds s) = sizeFrom name tds s) := by
  intro tds
  induction tds with
  | nil =>
    intro s _ _
    exact ⟨Nat.zero_le s, fun h => absurd h (Nat.lt_irrefl s)⟩
  | cons td rest ih =>
    intro s hin h4
    obtain ⟨hle, heq⟩ := reach_tableWrites name (hin td List.mem_cons_self) (s := s)
    obtain ⟨hle', heq'⟩ := ih (roundUp 4 (s + tableLength name td))
      (fun t ht => hin t (List.mem_cons_of_mem td ht)) (dvd_roundUp 4 _)
    have hnext := le_sizeFrom name rest (roundUp 4 (s + tableLength name td))
    rw [bodyWrites, sizeFrom, reach_append]
    refine ⟨by omega, ?_⟩
    intro hlt
    by_cases hrest : roundUp 4 (s + tableLength name td) <
        sizeFrom name rest (roundUp 4 (s + tableLength name td))
    · have := heq' hrest
      omega
    · have hpos : 0 < tableLength name td := by
        by_contra hzero
        rw [Nat.eq_zero_of_not_pos hzero, Nat.add_zero,
          roundUp_of_dvd (by decide) h4] at hlt hrest
        exact hrest hlt
      have := heq hpos
      omega

end Body

/-- What it takes for all tables to fit. -/
theorem fitsAll_of {xmlfile : XmlFile} : ∀ (tds : List TableDirectory) (s : Nat),
    (∀ td ∈ tds, Readable xmlfile td) →
    (∀ td ∈ tds, isHead td → 12 ≤ tableLength (builtName xmlfile) td) →
    sizeFrom (builtName xmlfile) tds s < 2 ^ 31 → FitsAll xmlfile tds s := by
  intro tds
  induction tds with
  | nil =>
    intro s _ _ h
    exact h
  | cons td rest ih =>
    intro s hread hhead hsize
    have hnext := le_sizeFrom (builtName xmlfile) rest
      (roundUp 4 (s + tableLength (builtName xmlfile) td))
    have hge := roundUp_ge (by decide : 0 < 4) (s + tableLength (builtName xmlfile) td)
    rw [sizeFrom] at hsize
    refine ⟨by omega, ⟨hread td List.mem_cons_self, ?_⟩, ?_⟩
    · intro hh
      have := hhead td List.mem_cons_self hh
      omega
    · exact ih _ (fun t ht => hread t (List.mem_cons_of_mem td ht))
        (fun t ht => hhead t (List.mem_cons_of_mem td ht)) hsize

theorem FitsAll.readable {xmlfile : XmlFile} : ∀ {tds : List TableDirectory} {s : Nat},
    FitsAll xmlfile tds s → ∀ td ∈ tds, Readable xmlfile td := by
  intro tds
  induction tds with
  | nil =>
    intro s _ td htd
    cases htd
  | cons t rest ih =>
    intro s h td htd
    rcases List.mem_cons.mp htd with rfl | htd
    · exact h.2.1.1
    · exact ih h.2.2 td htd

/-! ## The source -/

/-- The entries that stay. -/
def kept (content : Bytes) : List TableDirectory :=
  (directory content).filter fun td => ¬ isDSIG td

theorem mem_kept {content : Bytes} {td : TableDirectory} :
    td ∈ kept content ↔ td ∈ directory content ∧ ¬ isDSIG td := by
  rw [kept, List.mem_filter, decide_eq_true_iff]

/-- Directory and tables lie inside the file, no tag comes twice, and `head` is
long enough for its fields. -/
structure WellFormed (content : Bytes) : Prop where
  directory_le : 12 + 16 * tableCount content ≤ content.length
  tags_nodup : ((directory content).map TableDirectory.tag).Nodup
  range : ∀ td ∈ directory content, td.offset.toNat + td.length.toNat ≤ content.length
  head : ∃ td ∈ directory content, isHead td ∧ 54 ≤ td.length.toNat

/-- The directory loop on a directory inside the file. -/
theorem readDirectory_eq : ∀ (n i : Nat) (f : RandomAccessFile) (buf : Bytes)
    (tdl : List TableDirectory) (head : Option Nat), f.Fills → f.pointer = 12 + 16 * i →
    buf.length = 65536 → 12 + 16 * (i + n) ≤ f.content.length →
    ∃ head' g, readDirectory n f buf tdl head =
        .ok (tdl ++ ((List.range' i n).map (directoryEntry f.content)).filter
          fun td => ¬ isDSIG td, head', g) ∧
      (head' = none → head = none ∧
        ∀ td ∈ (List.range' i n).map (directoryEntry f.content), ¬ isDSIG td → ¬ isHead td) := by
  intro n
  induction n with
  | zero =>
    intro i f buf tdl head _ _ _ _
    refine ⟨head, f, ?_, ?_⟩
    · simp [readDirectory, pure, Except.pure]
    · intro h
      refine ⟨h, ?_⟩
      intro td htd
      cases htd
  | succ n ih =>
    intro i f buf tdl head hf hp hb hle
    obtain ⟨r, buf1, g, hread, hb1, htd, hc, hg, hgf⟩ := read_entry buf hf hp hb (by omega)
    have htd' : getTableDirectory buf1 0 = .ok (directoryEntry f.content i) := htd
    rw [readDirectory, hread, ok_bind]
    simp only
    rw [htd', ok_bind, List.range'_succ, List.map_cons]
    by_cases hd : isDSIG (directoryEntry f.content i)
    · obtain ⟨head', g', hrun, hnone⟩ := ih (i + 1) g buf1 tdl head hgf (by rw [hg]; omega) hb1
        (by rw [hc]; omega)
      rw [hc] at hrun hnone
      refine ⟨head', g', ?_, ?_⟩
      · rw [if_pos hd, hrun, List.filter_cons_of_neg (by simpa using hd)]
      · intro h
        obtain ⟨h1, h2⟩ := hnone h
        refine ⟨h1, ?_⟩
        intro td htd hkeep
        rcases List.mem_cons.mp htd with rfl | htd
        · exact absurd hd hkeep
        · exact h2 td htd hkeep
    · obtain ⟨head', g', hrun, hnone⟩ := ih (i + 1) g buf1
        (tdl ++ [directoryEntry f.content i])
        (if isHead (directoryEntry f.content i) then some tdl.length else head) hgf
        (by rw [hg]; omega) hb1 (by rw [hc]; omega)
      rw [hc] at hrun hnone
      refine ⟨head', g', ?_, ?_⟩
      · rw [if_neg hd, hrun, List.filter_cons_of_pos (by simpa using hd), List.append_assoc]
        rfl
      · intro h
        obtain ⟨h1, h2⟩ := hnone h
        by_cases hh : isHead (directoryEntry f.content i)
        · rw [if_pos hh] at h1
          cases h1
        · rw [if_neg hh] at h1
          refine ⟨h1, ?_⟩
          intro td htd hkeep
          rcases List.mem_cons.mp htd with rfl | htd
          · exact hh
          · exact h2 td htd hkeep

/-- A font's directory is loaded without `DSIG`. -/
theorem loadDirectory_eq {src : RandomAccessFile} (hf : src.Fills) (hp : src.pointer = 0)
    (hfont : isFont src.content)
    (hdir : 12 + 16 * tableCount src.content ≤ src.content.length) :
    ∃ head src', loadDirectory src =
        .ok (offsetTableOf src.content, kept src.content, head, src') ∧
      (head = none → ∀ td ∈ kept src.content, ¬ isHead td) := by
  obtain ⟨r, buf1, g, hread, hb1, hot, hc, hg, hgf⟩ := read_header (List.replicate 65536 0)
    hf hp List.length_replicate (by omega)
  obtain ⟨head, g', hrun, hnone⟩ := readDirectory_eq (tableCount src.content) 0 g buf1 [] none hgf
    hg hb1 (by rw [hc]; omega)
  have hlist : (List.range' 0 (tableCount src.content)).map (directoryEntry src.content) =
      directory src.content := by
    rw [← List.range_eq_range']
    rfl
  rw [hc, hlist, List.nil_append] at hrun
  rw [hc, hlist] at hnone
  refine ⟨head, g', ?_, ?_⟩
  · rw [loadDirectory]
    simp only
    rw [hread, ok_bind]
    simp only
    rw [hot, ok_bind, if_neg (by rcases hfont with h | h <;> simp [h])]
    show (readDirectory (tableCount src.content) g buf1 [] none >>= _) = _
    rw [hrun]
    rfl
  · intro h td htd
    exact (hnone h).2 td (mem_kept.mp htd).1 (mem_kept.mp htd).2

/-- What is no font is not loaded. -/
theorem isFont_of_load {src : RandomAccessFile} (hf : src.Fills) (hp : src.pointer = 0)
    (hdir : 12 ≤ src.content.length)
    {r : OffsetTable × List TableDirectory × Option Nat × RandomAccessFile}
    (h : loadDirectory src = .ok r) : isFont src.content := by
  obtain ⟨k, buf1, g, hread, hb1, hot, hc, hg, hgf⟩ := read_header (List.replicate 65536 0)
    hf hp List.length_replicate hdir
  rw [loadDirectory] at h
  simp only at h
  rw [hread, ok_bind] at h
  simp only at h
  rw [hot, ok_bind] at h
  by_contra hno
  rw [isFont, not_or] at hno
  rw [if_pos hno] at h
  cases h

/-- A run that returns had a font as its source. -/
theorem isFont_of_run {xmlfile : XmlFile} {src dst dst' : RandomAccessFile} (hf : src.Fills)
    (hp : src.pointer = 0) (hw : WellFormed src.content) (h : run src xmlfile dst = .ok dst') :
    isFont src.content := by
  have hdir := hw.directory_le
  rw [run] at h
  obtain ⟨r, hload, _⟩ := bind_eq_ok h
  exact isFont_of_load hf hp (by omega) hload

/-! ## The font that is made -/

def tablesOf (src name : Bytes) : List Table := (byOffset (kept src)).map (tableOf src name)

theorem tablesOf_length (src name : Bytes) : (tablesOf src name).length = (kept src).length := by
  rw [tablesOf, List.length_map, byOffset_length]

section Source

variable {src : Bytes} (hw : WellFormed src)

include hw

theorem kept_inRange {td : TableDirectory} (h : td ∈ byOffset (kept src)) : InRange src td := by
  have hmem := (mem_kept.mp (mem_byOffset.mp h)).1
  constructor
  · intro _
    exact hw.range td hmem
  · intro hh
    obtain ⟨t, ht, hth, h54⟩ := hw.head
    have htag : td.tag = t.tag := toTag_injective (by rw [hh, hth])
    have heq : td = t := List.inj_on_of_nodup_map hw.tags_nodup hmem ht htag
    rw [heq]
    omega

theorem tablesOf_tags_nodup (name : Bytes) : ((tablesOf src name).map Table.tag).Nodup := by
  have hmap : (tablesOf src name).map Table.tag =
      (byOffset (kept src)).map TableDirectory.tag := by
    rw [tablesOf, List.map_map]
    rfl
  have hkept : ((kept src).map TableDirectory.tag).Nodup :=
    hw.tags_nodup.sublist (List.filter_sublist.map TableDirectory.tag)
  have hperm : (byOffset (kept src)).Perm (kept src) := List.perm_insertionSort _ _
  rw [hmap]
  exact (hperm.map TableDirectory.tag).nodup_iff.mpr hkept

theorem tablesOf_head (name : Bytes) : ∃ t ∈ tablesOf src name, t.tag = headTag ∧
    54 ≤ t.data.length ∧ slice t.data 8 4 = [0, 0, 0, 0] := by
  obtain ⟨td, htd, hh, h54⟩ := hw.head
  have hdsig : ¬ isDSIG td := by
    unfold isDSIG
    rw [hh]
    decide
  have hname : ¬ isName td := fun hn => isName_not_isHead hn hh
  have hmem : td ∈ byOffset (kept src) := mem_byOffset.mpr (mem_kept.mpr ⟨htd, hdsig⟩)
  have hlen := tableOf_length name (kept_inRange hw hmem)
  refine ⟨tableOf src name td, List.mem_map_of_mem hmem, toTag_eq_head.mp hh, ?_, ?_⟩
  · rw [hlen, tableLength, if_neg hname]
    exact h54
  · show slice (if isHead td then _ else _) 8 4 = _
    rw [if_pos hh]
    exact slice_overwrite_self 0 _ 8 (intBytes 0)

/-- The tables of a source, as a font. -/
def sourceFont (name : Bytes) (hfont : isFont src)
    (hsize : startOfTables (kept src) + (tableBody (tablesOf src name)).length < 2 ^ 31) :
    Font where
  sfnt := (offsetTableOf src).sfnt
  tables := tablesOf src name
  isSfnt := hfont
  count_le := by
    have hle : (kept src).length ≤ (directory src).length := List.length_filter_le _ _
    have hmax : (offsetTableOf src).numTables.toInt < 32768 :=
      BitVec.toInt_lt (x := (offsetTableOf src).numTables)
    have hcount : tableCount src = (offsetTableOf src).numTables.toInt.toNat := rfl
    rw [tablesOf_length]
    rw [directory_length] at hle
    omega
  tags_nodup := tablesOf_tags_nodup hw name
  size_lt := by
    rw [tablesOf_length]
    exact hsize
  head := tablesOf_head hw name

end Source

/-- What a run leaves in a new file. -/
theorem outcome_font {src name : Bytes} {tdl : List TableDirectory} {k : Nat} (font : Font)
    (htables : font.tables = (byOffset tdl).map (tableOf src name))
    (hin : ∀ td ∈ byOffset tdl, InRange src td) (hk : k < tdl.length)
    (hh : isHead (derefTable tdl k)) :
    outcome src name font.sfnt tdl [] k = font.bytes := by
  have hlen : font.tables.length = tdl.length := by
    rw [htables, List.length_map, byOffset_length]
  have hstart : startOfTables tdl = font.start := by
    rw [startOfTables, Font.start, hlen]
  have h4 : 4 ∣ startOfTables tdl := by
    rw [hstart]
    exact Font.four_dvd_start
  have hheaded : headed font.sfnt tdl [] = font.header := by
    rw [headed, ← hlen, overwrite_zero, List.drop_nil, List.append_nil]
    rfl
  have hshort : (headed font.sfnt tdl []).length ≤ startOfTables tdl := by
    have h12 : font.header.length = 12 := rfl
    rw [hheaded, h12, startOfTables]
    omega
  have hsize : fixedSize name tdl = font.size := by
    rw [fixedSize, sizeFrom_eq name _ _ hin h4, ← htables, hstart]
    rfl
  have hlt := font.headAt_lt
  obtain ⟨hbytes, hentries⟩ := bodyWrites_extend name (byOffset tdl) (headed font.sfnt tdl [])
    (startOfTables tdl) hin hshort h4
  have hcopied : copied src name font.sfnt tdl [] =
      extend 0 (headed font.sfnt tdl []) (startOfTables tdl) ++ tableBody font.tables := by
    have hreach := (reach_bodyWrites name (byOffset tdl) (startOfTables tdl) hin h4).2
    have hfixed : sizeFrom name (byOffset tdl) (startOfTables tdl) = font.size := hsize
    have hlength : (copied src name font.sfnt tdl []).length = font.size := by
      rw [copied, applyWrites_length, hreach (by omega), hfixed]
      omega
    rw [htables, ← hbytes, hfixed]
    exact (extend_of_le 0 hlength.ge).symm
  have hmoved : movedEntries src name font.sfnt tdl [] = font.entries := by
    rw [movedEntries, hentries, ← htables, hstart]
    rfl
  have hlisted : listed src name font.sfnt tdl [] = font.unsealed := by
    have hzeros : extend 0 font.header font.start =
        font.header ++ List.replicate (16 * font.tables.length) 0 := by
      have h12 : font.header.length = 12 := rfl
      rw [extend, h12, Font.start, Nat.add_sub_cancel_left]
    have hblock := overwrite_block 0 font.header (List.replicate (16 * font.tables.length) 0)
      (tableBody font.tables) (d := font.directoryBytes)
      (by rw [font.directoryBytes_length, List.length_replicate])
    rw [listed, hmoved, hcopied, hheaded, hstart, hzeros]
    exact hblock
  have hadj : adjustment src name font.sfnt tdl [] = font.adjustment := by
    rw [adjustment, hlisted, hsize, slice_all (by rw [font.unsealed_length])]
    rfl
  have hoffset : (derefTable (movedStore src name font.sfnt tdl []) k).offset.toNat =
      font.headAt := by
    have hmem := movedStore_mem src name font.sfnt tdl [] hk
    have htag := movedStore_tag src name font.sfnt tdl [] hk
    rw [hmoved] at hmem
    obtain ⟨p, hp, hentry⟩ := List.mem_map.mp hmem
    obtain ⟨t, ht, hthead, _, _⟩ := font.headAt_spec
    have hptag : p.2.tag = headTag := by
      rw [← toTag_eq_head.mp hh, ← htag, ← hentry]
      rfl
    have hpt : p = (font.headAt, t) := Font.placed_unique hp ht (by rw [hptag, hthead])
    have hsmall := font.size_lt_two_pow
    rw [← hentry, hpt]
    exact toNat_ofNat_of_lt (by omega)
  rw [outcome, hlisted, hadj, hoffset]
  rfl

/-! ## Runs into a new file -/

section Run

variable {xmlfile : XmlFile} {src dst : RandomAccessFile}
variable (hf : src.Fills) (hp : src.pointer = 0) (hd : dst.Fills) (hnew : dst.content = [])
variable (hw : WellFormed src.content)

include hf hp hd hnew hw

/-- A run that returns leaves the font made of the tables of the source. -/
theorem run_font {dst' : RandomAccessFile} (h : run src xmlfile dst = .ok dst') :
    ∃ font : Font, font.sfnt = (offsetTableOf src.content).sfnt ∧
      font.tables = tablesOf src.content (builtName xmlfile) ∧ dst'.content = font.bytes ∧
      ∀ td ∈ kept src.content, Readable xmlfile td := by
  have hfont := isFont_of_run hf hp hw h
  obtain ⟨head, src', hload, _⟩ := loadDirectory_eq hf hp hfont hw.directory_le
  rcases run_cases xmlfile hload hd with
    ⟨k, hk, hfits, dst1, hrun, hout⟩ | ⟨_, e, he⟩
  · obtain ⟨hlt, hh⟩ := (loadDirectory_loaded hload).1.head_lt k hk
    have hin : ∀ td ∈ byOffset (kept src.content), InRange src.content td :=
      fun td htd => kept_inRange hw htd
    have hstart : 4 ∣ startOfTables (kept src.content) := by
      unfold startOfTables
      omega
    have hsize := hfits.sizeFrom_lt
    rw [sizeFrom_eq _ _ _ hin hstart] at hsize
    refine ⟨sourceFont hw (builtName xmlfile) hfont hsize, rfl, rfl, ?_, ?_⟩
    · rw [hrun] at h
      cases h
      rw [hout, hnew]
      exact outcome_font (sourceFont hw (builtName xmlfile) hfont hsize) rfl hin hlt hh
    · intro td htd
      exact hfits.readable td (mem_byOffset.mpr htd)
  · rw [he] at h
    cases h

/-- A run returns if the tables make a font and can be read. -/
theorem run_of_font (font : Font) (hsfnt : font.sfnt = (offsetTableOf src.content).sfnt)
    (htables : font.tables = tablesOf src.content (builtName xmlfile))
    (hread : ∀ td ∈ kept src.content, Readable xmlfile td) :
    ∃ dst', run src xmlfile dst = .ok dst' ∧ dst'.content = font.bytes := by
  have hfont : isFont src.content := by
    have := font.isSfnt
    rw [hsfnt] at this
    exact this
  have hin : ∀ td ∈ byOffset (kept src.content), InRange src.content td :=
    fun td htd => kept_inRange hw htd
  have hlen : font.tables.length = (kept src.content).length := by
    rw [htables, tablesOf_length]
  have hfits : FitsAll xmlfile (byOffset (kept src.content))
      (startOfTables (kept src.content)) := by
    apply fitsAll_of
    · intro td htd
      exact hread td (mem_byOffset.mp htd)
    · intro td htd hh
      exact head_le_tableLength _ (hin td htd) hh
    · have hsize := font.size_lt
      rw [hlen, htables] at hsize
      rw [sizeFrom_eq _ _ _ hin (by unfold startOfTables; omega)]
      exact hsize
  obtain ⟨head, src', hload, hnone⟩ := loadDirectory_eq hf hp hfont hw.directory_le
  rcases run_cases xmlfile hload hd with
    ⟨k, hk, _, dst1, hrun, hout⟩ | ⟨hno, _⟩
  · obtain ⟨hlt, hh⟩ := (loadDirectory_loaded hload).1.head_lt k hk
    refine ⟨dst1, hrun, ?_⟩
    rw [hout, hnew, ← hsfnt]
    exact outcome_font font htables hin hlt hh
  · rcases hno with hno | hno
    · obtain ⟨t, ht, htag, _, _⟩ := tablesOf_head hw (builtName xmlfile)
      obtain ⟨td, htd, rfl⟩ := List.mem_map.mp ht
      exact absurd (toTag_eq_head.mpr htag) (hnone hno td (mem_byOffset.mp htd))
    · exact absurd hfits hno

end Run

end FixName
end Otf
end I18nZh
