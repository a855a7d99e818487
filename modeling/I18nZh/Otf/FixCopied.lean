import I18nZh.Otf.FixPrior

/-!
# Tables that are cut off

`copyTo` takes the end of the file for the end of the table, and the entry keeps
the length it had.  When a run returns, the tables are copied if their bytes are
there, on condition that the adjustment is not written over one of them.
-/

namespace I18nZh
namespace Otf
namespace FixName

open Java Storage BigEndian RandomAccessFile Tookit Writes Layout

/-- A table that is neither `name` nor `head`. -/
def Other (td : TableDirectory) : Prop := ¬ isName td ∧ ¬ isHead td

instance (td : TableDirectory) : Decidable (Other td) := inferInstanceAs (Decidable (_ ∧ _))

/-- All bytes of the range of an entry exist. -/
def Within (content : Bytes) (td : TableDirectory) : Prop :=
  td.length.toNat = 0 ∨ td.offset.toNat + td.length.toNat ≤ content.length

theorem within_iff {content : Bytes} {td : TableDirectory} :
    Within content td ↔ (tableBytes content td).length = td.length.toNat := by
  unfold Within
  rw [tableBytes, slice_length]
  omega

/-- The entry `out` of the output is about the table the entry `td` of the source
is about: the table is in the file, in both, and has the same bytes. -/
structure Transferred (content output : Bytes) (td out : TableDirectory) : Prop where
  exist : Within content td
  inside : Within output out
  bytes : tableBytes output out = tableBytes content td

/-- The output has an entry for every one in `source`, and the tables but `name` and
`head` are copied. -/
def AllCopied (source : List TableDirectory) (content output : Bytes) : Prop :=
  ∃ tds outs : List TableDirectory, tds.Perm source ∧ outs.Perm (directory output) ∧
    List.Forall₂ (fun td out => out.tag = td.tag ∧
      (Other td → out.length = td.length ∧ Transferred content output td out)) tds outs

/-- The bytes behind the eighth of the last `head`, where the adjustment is written, are
in no table that is copied. -/
def Unharmed (name : Bytes) (tdl : List TableDirectory) : Prop :=
  ∀ a, HeadAt name tdl a → ∀ p ∈ places name tdl, Other p.2 →
    p.2.length.toNat = 0 ∨ p.1 + p.2.length.toNat ≤ a + 8 ∨ a + 12 ≤ p.1

/-! ## What is written -/

theorem le_of_mem_tableWrites {src name : Bytes} {td : TableDirectory} {s : Nat}
    {w : Write JByte}
    (h : w ∈ copyWrites src name td s ++ [padWrite (s + tableLength name td)]) : s ≤ w.1 := by
  rcases List.mem_append.mp h with h | h
  · unfold copyWrites at h
    rcases List.mem_cons.mp h with rfl | h
    · exact Nat.le_refl s
    · by_cases hh : isHead td
      · rw [if_pos hh, List.mem_singleton] at h
        rw [h]
        exact Nat.le_add_right s 8
      · rw [if_neg hh] at h
        cases h
  · rw [List.mem_singleton.mp h]
    exact Nat.le_add_right s _

theorem le_of_mem_bodyWrites {src name : Bytes} {w : Write JByte} :
    ∀ {tds : List TableDirectory} {s : Nat}, w ∈ bodyWrites src name tds s → s ≤ w.1 := by
  intro tds
  induction tds with
  | nil =>
    intro s h
    cases h
  | cons td rest ih =>
    intro s h
    have hge := roundUp_ge (by decide : 0 < 4) (s + tableLength name td)
    rw [bodyWrites] at h
    rcases List.mem_append.mp h with h | h
    · exact le_of_mem_tableWrites h
    · have := ih h
      omega

/-- A table that is copied and has all its bytes is in its place after the loop. -/
theorem slice_bodyWrites {src name : Bytes} : ∀ {tds : List TableDirectory} {s : Nat}
    {p : Nat × TableDirectory} (c : Bytes), p ∈ placesFrom name tds s → Other p.2 →
    Within src p.2 →
    slice (applyWrites 0 c (bodyWrites src name tds s)) p.1 p.2.length.toNat =
      tableBytes src p.2 := by
  intro tds
  induction tds with
  | nil =>
    intro s p c h
    cases h
  | cons td rest ih =>
    intro s p c h hother hin
    rw [bodyWrites, applyWrites_append]
    rcases List.mem_cons.mp h with rfl | h
    · have hdata : tableData src name td = tableBytes src td := if_neg hother.1
      have hlen : tableLength name td = td.length.toNat := if_neg hother.1
      have hbytes : (tableBytes src td).length = td.length.toNat := within_iff.mp hin
      have hge := roundUp_ge (by decide : 0 < 4) (s + tableLength name td)
      have hwritten := slice_overwrite_self 0 c s (tableBytes src td)
      rw [hbytes] at hwritten
      by_cases hzero : td.length.toNat = 0
      · simp only
        rw [hzero, slice_zero]
        exact (List.length_eq_zero_iff.mp (hbytes.trans hzero)).symm
      · have hlong : s + td.length.toNat ≤ (overwrite 0 c s (tableBytes src td)).length := by
          have := congrArg List.length hwritten
          rw [slice_length, hbytes] at this
          omega
        rw [copyWrites, if_neg hother.2, List.singleton_append, applyWrites_cons, hdata,
          ← applyWrites_append, slice_applyWrites_outside 0 _ ?_ hlong, hwritten]
        intro w hw
        rcases List.mem_append.mp hw with hw | hw
        · rw [List.mem_singleton.mp hw]
          exact Or.inl (by rw [padWrite, hlen])
        · have := le_of_mem_bodyWrites hw
          exact Or.inl (by omega)
    · exact ih _ h hother hin

/-! ## The finished file -/

section Sealed

variable {src name : Bytes} {sfnt : JInt} {tdl es : List TableDirectory} {prior : Bytes}

theorem copied_header (src name : Bytes) (sfnt : JInt) (tdl : List TableDirectory)
    (prior : Bytes) : ∃ rest, copied src name sfnt tdl prior =
      offsetTableBytes (offsetTableFor sfnt tdl.length) ++ rest := by
  have hheaded : headed sfnt tdl prior =
      offsetTableBytes (offsetTableFor sfnt tdl.length) ++ prior.drop 12 := overwrite_zero 0 _ _
  have hlen : (offsetTableBytes (offsetTableFor sfnt tdl.length)).length = 12 :=
    offsetTableBytes_length _
  have hslice : slice (copied src name sfnt tdl prior) 0 12 =
      offsetTableBytes (offsetTableFor sfnt tdl.length) := by
    rw [copied, slice_applyWrites_outside, hheaded, slice_append_left (by omega),
      slice_all hlen.le]
    · intro w hw
      have h12 := startOfTables_ge tdl
      have hle := le_of_mem_bodyWrites hw
      exact Or.inl (by omega)
    · rw [hheaded, List.length_append]
      omega
  refine ⟨(copied src name sfnt tdl prior).drop 12, ?_⟩
  rw [← hslice]
  exact (List.take_append_drop 12 _).symm

variable (hes : es.length = tdl.length) (k : Nat) (sum : JInt)

include hes

theorem listBytes_length :
    12 + ((byTag es).flatMap entryBytes).length = startOfTables tdl := by
  rw [flatMap_length entryBytes_length, byTag_length, hes, startOfTables]

/-- What neither directory nor adjustment touches. -/
theorem slice_sealedWith (c : Bytes) {q n : Nat} (hq : startOfTables tdl ≤ q)
    (hc : q + n ≤ c.length)
    (hout : q + n ≤ (derefTable (setEntries tdl
        (arraysSort (compareOffset tdl) (List.range tdl.length)) es) k).offset.toNat + 8 ∨
      (derefTable (setEntries tdl
        (arraysSort (compareOffset tdl) (List.range tdl.length)) es) k).offset.toNat + 12 ≤ q) :
    slice (sealedWith c tdl es k sum) q n = slice c q n := by
  have hlist := listBytes_length hes
  have hle : c.length ≤ (overwrite 0 c 12 ((byTag es).flatMap entryBytes)).length := by
    rw [overwrite_length]
    split_ifs <;> omega
  rw [sealedWith, slice_overwrite_outside 0 _ (by omega)]
  · exact slice_overwrite_outside 0 (Or.inr (by omega)) hc
  · rw [intBytes_length]
    exact hout

variable (hat : startOfTables tdl ≤ (derefTable (setEntries tdl
  (arraysSort (compareOffset tdl) (List.range tdl.length)) es) k).offset.toNat)

include hat

/-- The directory of the output has the entries that were written. -/
theorem directory_sealedWith (hcount : tdl.length ≤ 32767) :
    directory (sealedWith (copied src name sfnt tdl prior) tdl es k sum) = byTag es := by
  obtain ⟨rest, hrest⟩ := copied_header src name sfnt tdl prior
  have hlen : (offsetTableBytes (offsetTableFor sfnt tdl.length)).length = 12 :=
    offsetTableBytes_length _
  have hlist := listBytes_length hes
  have hdir := overwrite_at_length 0 (offsetTableBytes (offsetTableFor sfnt tdl.length)) rest
    ((byTag es).flatMap entryBytes)
  rw [hlen] at hdir
  rw [sealedWith, hrest, hdir]
  have hfront : (offsetTableBytes (offsetTableFor sfnt tdl.length) ++
      (byTag es).flatMap entryBytes).length = startOfTables tdl := by
    rw [List.length_append, hlen, hlist]
  obtain ⟨d, hd⟩ := Nat.exists_eq_add_of_le hat
  rw [hd, ← hfront, Nat.add_assoc, overwrite_append_right]
  apply directory_of_bytes
  rw [offsetTableFor_count sfnt hcount, byTag_length, hes]

end Sealed

/-! ## What is copied -/

/-- All tables but `name` and `head` that a run works on have all their bytes in the
source. -/
def NoneCut (src : RandomAccessFile) : Prop :=
  ∀ td ∈ sourceTables src, Other td → Within src.content td

section Copies

variable {src : Bytes} {xmlfile : XmlFile} {sfnt : JInt} {tdl es : List TableDirectory}
variable {prior : Bytes} {k : Nat} (sum : JInt)
variable (hfits : FitsAll xmlfile (byOffset tdl) (startOfTables tdl))
variable (hplaced : List.Forall₂ (Placed (builtName xmlfile)) (places (builtName xmlfile) tdl) es)

include hfits hplaced

/-- With all bytes there, the copies are right where the adjustment leaves them. -/
theorem allCopied_sealedWith (hcount : tdl.length ≤ 32767)
    (hlast : lastHead tdl = some k)
    (hall : ∀ td ∈ tdl, Other td → Within src td) (hun : Unharmed (builtName xmlfile) tdl) :
    AllCopied tdl src
      (sealedWith (copied src (builtName xmlfile) sfnt tdl prior) tdl es k sum) := by
  obtain ⟨a, ha⟩ := exists_refPlace (builtName xmlfile) (isHead_of_lastHead hlast).1
  have hstart : startOfTables tdl ≤ a := le_of_mem_placesFrom (mem_places_of_refPlaces ha)
  have hat := offset_of_refPlaces hfits hplaced ha
  have hsnd : (places (builtName xmlfile) tdl).map Prod.snd = byOffset tdl :=
    placesFrom_map_snd _ _ _
  have hes : es.length = tdl.length := by rw [← hplaced.length_eq, places_length]
  have hdir : directory (sealedWith (copied src (builtName xmlfile) sfnt tdl prior) tdl es k sum) =
      byTag es := directory_sealedWith hes k sum (by omega) hcount
  refine ⟨byOffset tdl, es, List.perm_insertionSort _ _, ?_, ?_⟩
  · rw [hdir]
    exact (List.perm_insertionSort _ _).symm
  · rw [← hsnd, List.forall₂_map_left_iff]
    have hboth := (List.forall₂_and_left (p := fun p => p ∈ places (builtName xmlfile) tdl)
      _ _).mpr ⟨fun p hp => hp, hplaced⟩
    refine hboth.imp ?_
    intro p e h
    obtain ⟨hp, htag, hoff, hlen⟩ := h
    refine ⟨htag, ?_⟩
    intro hother
    have hown : tableLength (builtName xmlfile) p.2 = p.2.length.toNat := if_neg hother.1
    have hin := hall p.2 (mem_of_mem_places hp) hother
    have hplace : e.offset.toNat = p.1 := by
      have hlt : p.1 < 2 ^ 31 := (placesFrom_fits hfits _ hp).1
      rw [hoff]
      exact toNat_ofNat_of_lt (by omega)
    have hsame : e.length = p.2.length := by
      rw [hlen, hown]
      exact ofNat_toNat_self _
    have hbody : slice (copied src (builtName xmlfile) sfnt tdl prior) p.1 p.2.length.toNat =
        tableBytes src p.2 := slice_bodyWrites _ hp hother hin
    have hbytes := within_iff.mp hin
    have hfinal : tableBytes
        (sealedWith (copied src (builtName xmlfile) sfnt tdl prior) tdl es k sum) e =
          tableBytes src p.2 := by
      rw [tableBytes, hplace, hsame]
      by_cases hzero : p.2.length.toNat = 0
      · rw [hzero, slice_zero]
        exact (List.length_eq_zero_iff.mp (hbytes.trans hzero)).symm
      · have hlong := congrArg List.length hbody
        rw [slice_length, hbytes] at hlong
        have hle : startOfTables tdl ≤ p.1 := le_of_mem_placesFrom hp
        have hfree := hun a ⟨k, hlast, ha⟩ p hp hother
        rw [slice_sealedWith hes k sum _ hle (by omega) (by omega), hbody]
    exact ⟨hsame, hin, within_iff.mpr (by rw [hfinal, hbytes, hsame]), hfinal⟩

end Copies

/-- With more than 8 bytes in the last `head` the adjustment is in its range, or in
the padding behind. -/
theorem unharmed_of_long {name : Bytes} {tdl : List TableDirectory}
    (hlong : ∀ k, lastHead tdl = some k → 8 < (derefTable tdl k).length.toNat) :
    Unharmed name tdl := by
  intro a ha p hp hother
  have hown : tableLength name p.2 = p.2.length.toNat := if_neg hother.1
  rcases ha.apart hlong hp with ⟨hh, _⟩ | hbefore | hbehind
  · exact absurd hh hother.2
  · exact Or.inr (Or.inl (by omega))
  · exact Or.inr (Or.inr hbehind)

/-- What is copied has its bytes in the source. -/
theorem within_of_allCopied {source : List TableDirectory} {content output : Bytes}
    (h : AllCopied source content output) : ∀ td ∈ source, Other td → Within content td := by
  obtain ⟨tds, outs, hperm, _, hall⟩ := h
  intro td htd hother
  obtain ⟨i, hi, rfl⟩ := List.getElem_of_mem (hperm.mem_iff.mpr htd)
  exact ((hall.get hi (by rw [← hall.length_eq]; exact hi)).2 hother).2.exist

/-- A run that returns has copied its tables if none is cut off in the source and the
adjustment is written over none, and only if none is cut off. -/
theorem run_copies {xmlfile : XmlFile} {src dst dst' : RandomAccessFile}
    (h : run src xmlfile dst = .ok dst') :
    (NoneCut src ∧ Unharmed (builtName xmlfile) (sourceTables src) →
      AllCopied (sourceTables src) src.content dst'.content) ∧
    (AllCopied (sourceTables src) src.content dst'.content → NoneCut src) := by
  refine ⟨?_, within_of_allCopied⟩
  intro hgood
  obtain ⟨hcut, hun⟩ := hgood
  have hload := h
  rw [run] at hload
  obtain ⟨⟨ot, tdl, head, src'⟩, hload, _⟩ := bind_eq_ok hload
  unfold NoneCut at hcut
  rw [sourceTables_of_load hload] at hcut hun ⊢
  rcases run_writes xmlfile dst hload with
    ⟨k, hhead, hfits, dst'', es, sum, hrun, hes, hout, _⟩ | ⟨_, e, he⟩
  · rw [h] at hrun
    cases hrun
    rw [hhead] at hload
    have hl := (loadDirectory_loaded hload).1
    rw [hout]
    exact allCopied_sealedWith sum hfits (newEntries_placed hes) hl.length_le
      (loadDirectory_lastHead hload).symm hcut hun
  · rw [he] at h
    cases h

theorem run_copies_small : ∃ dst',
    run (openFile smallFont filling) emptyXml (openFile [] filling) = .ok dst' ∧
      AllCopied (kept smallFont) smallFont dst'.content := by
  obtain ⟨dst', hrun⟩ := run_smallFont
  have hfont := isFont_of_run (openFile_fills smallFont) rfl wellFormed_smallFont hrun
  have htables : sourceTables (openFile smallFont filling) = kept smallFont :=
    sourceTables_eq (openFile_fills smallFont) rfl hfont wellFormed_smallFont
  have hcut : NoneCut (openFile smallFont filling) := by
    intro td htd _
    rw [htables] at htd
    exact Or.inr (wellFormed_smallFont.range td (mem_kept.mp htd).1)
  have hun : Unharmed (builtName emptyXml) (sourceTables (openFile smallFont filling)) := by
    apply unharmed_of_long
    intro k hk
    obtain ⟨hlt, hh⟩ := isHead_of_lastHead hk
    have hmem := derefTable_mem hlt
    generalize derefTable (sourceTables (openFile smallFont filling)) k = td at hh hmem ⊢
    rw [htables, ← mem_byOffset, kept_smallFont] at hmem
    revert hh
    revert td
    decide
  have hcopied := (run_copies hrun).1 ⟨hcut, hun⟩
  rw [htables] at hcopied
  exact ⟨dst', hrun, hcopied⟩

/-! ## A font that is cut off -/

/-- The small font without its last two bytes: a byte of `abcd` is missing. -/
def cutFont : Bytes :=
  offsetTableBytes ⟨0x00010000, 4, 64, 2, 0⟩ ++ entryBytes ⟨headTag, 0, 76, 54⟩ ++
    entryBytes ⟨0x6E616D65, 0, 130, 2⟩ ++ entryBytes ⟨0x61626364, 0, 132, 3⟩ ++
    entryBytes ⟨0x44534947, 0, 135, 1⟩ ++ List.replicate 54 0 ++ [1, 2] ++ [3, 4]

theorem cutFont_length : cutFont.length = 134 := by
  rfl

theorem directory_cutFont : directory cutFont =
    [⟨headTag, 0, 76, 54⟩, ⟨0x6E616D65, 0, 130, 2⟩, ⟨0x61626364, 0, 132, 3⟩,
      ⟨0x44534947, 0, 135, 1⟩] := by
  rfl

theorem kept_cutFont : kept cutFont = kept smallFont := by
  rw [kept, kept, directory_cutFont, directory_smallFont]

theorem load_cutFont : ∃ k src', loadDirectory (openFile cutFont filling) =
    .ok (offsetTableOf cutFont, kept smallFont, some k, src') := by
  have hfont : isFont cutFont := Or.inl rfl
  have hcount : tableCount cutFont = 4 := rfl
  have hdir : 12 + 16 * tableCount cutFont ≤ cutFont.length := by
    rw [hcount, cutFont_length]
    omega
  obtain ⟨head, src', hload, hnone⟩ := loadDirectory_eq (openFile_fills cutFont) rfl hfont hdir
  have hkept : kept (openFile cutFont filling).content = kept smallFont := kept_cutFont
  rw [hkept] at hload hnone
  cases head with
  | some k => exact ⟨k, src', hload⟩
  | none =>
    exfalso
    apply hnone rfl ⟨headTag, 0, 76, 54⟩
    · rw [← mem_byOffset, kept_smallFont]
      exact List.mem_cons_self
    · decide

theorem run_cutFont : ∃ dst', run (openFile cutFont filling) emptyXml (openFile [] filling) =
    .ok dst' := by
  obtain ⟨k, src', hload⟩ := load_cutFont
  have hfits : FitsAll emptyXml (byOffset (kept smallFont)) (startOfTables (kept smallFont)) := by
    have hin : ∀ td ∈ byOffset (kept smallFont), InRange smallFont td :=
      fun td htd => kept_inRange wellFormed_smallFont htd
    apply fitsAll_of
    · intro td htd
      exact readable_smallFont td (mem_byOffset.mp htd)
    · intro td htd hh
      exact head_le_tableLength _ (hin td htd) hh
    · have hsize := smallFont_size (builtName_length emptyXml)
      rw [tablesOf, ← sizeFrom_eq _ _ _ hin (startOfTables_dvd _)] at hsize
      exact hsize
  rcases run_writes emptyXml (openFile [] filling) hload with
    ⟨_, _, _, dst', _, _, hrun, _⟩ | ⟨hno, _⟩
  · exact ⟨dst', hrun⟩
  · rcases hno with hno | hno
    · cases hno
    · exact absurd hfits hno

/-- A run on a font that is cut off returns, and the entry for the table has a length
the source does not have. -/
theorem run_copies_cut : ∃ dst',
    run (openFile cutFont filling) emptyXml (openFile [] filling) = .ok dst' ∧
      ¬ AllCopied (sourceTables (openFile cutFont filling)) cutFont dst'.content := by
  obtain ⟨dst', hrun⟩ := run_cutFont
  obtain ⟨k, src', hload⟩ := load_cutFont
  refine ⟨dst', hrun, ?_⟩
  intro hall
  rw [sourceTables_of_load hload] at hall
  have hmem : (⟨0x61626364, 0, 132, 3⟩ : TableDirectory) ∈ kept smallFont := by
    rw [← mem_byOffset, kept_smallFont]
    decide
  have hin := within_of_allCopied hall _ hmem (by decide)
  rw [Within, cutFont_length] at hin
  revert hin
  decide

end FixName
end Otf
end I18nZh
