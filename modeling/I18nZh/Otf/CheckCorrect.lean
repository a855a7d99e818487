import I18nZh.Otf.CheckSum
import I18nZh.Otf.Font

/-!
# What `CheckSum` accepts
-/

namespace I18nZh
namespace Otf
namespace CheckSum

open Java Storage BigEndian RandomAccessFile Tookit

/-! ## Printing -/

section Prints

variable {α β : Type} {x : PrintM α} {f : α → PrintM β} {a : α} {r : JavaM α} {q : JavaM β}
  {ls ms : List Line}

/-- The method prints `ls` and returns or throws as `r` says. -/
def Prints (x : PrintM α) (r : JavaM α) (ls : List Line) : Prop :=
  ∀ out, x.run.run out = (r, out ++ ls)

theorem Prints.printed (h : Prints x r ls) : printed x = ls := by
  rw [CheckSum.printed, h []]
  rfl

theorem prints_pure (a : α) : Prints (pure a) (.ok a) [] := by
  intro out
  rw [List.append_nil]
  rfl

theorem prints_println (line : Line) : Prints (println line) (.ok ()) [line] := by
  intro out
  rfl

theorem prints_bind (hx : Prints x (.ok a) ls) (hf : Prints (f a) q ms) :
    Prints (x >>= f) q (ls ++ ms) := by
  intro out
  have h1 := hx out
  have h2 := hf (out ++ ls)
  show ExceptT.bindCont f (x.run.run out).1 (x.run.run out).2 = _
  rw [h1, ← List.append_assoc]
  exact h2

theorem perform_bind (a : α) : (perform (.ok a) >>= f) = f a := rfl

theorem prints_throw (e : JavaError) : Prints (perform (.error e) >>= f) (.error e) [] := by
  intro out
  rw [List.append_nil]
  rfl

theorem prints_compareSums (sum expected : JInt) (tag : JString) :
    Prints (compareSums sum expected tag) (.ok ())
      (if sum ≠ expected then [.fail tag] else []) := by
  unfold compareSums
  by_cases h : sum ≠ expected
  · rw [if_pos h, if_pos h]
    exact prints_println _
  · rw [if_neg h, if_neg h]
    exact prints_pure ()

end Prints

/-! ## The tables -/

/-- The lines about a directory entry. -/
def tableLines (content : Bytes) (td : TableDirectory) : List Line :=
  if toTag td.tag = jstr "head" then []
  else .table td ::
    if wordSum (tableBytes content td) ≠ td.checkSum then [.fail (toTag td.tag)] else []

theorem fail_mem_tableLines {content : Bytes} {td : TableDirectory} {tag : JString} :
    .fail tag ∈ tableLines content td ↔ toTag td.tag ≠ jstr "head" ∧
      wordSum (tableBytes content td) ≠ td.checkSum ∧ tag = toTag td.tag := by
  unfold tableLines
  by_cases hh : toTag td.tag = jstr "head"
  · rw [if_pos hh]
    constructor
    · intro h
      cases h
    · intro h
      exact absurd hh h.1
  · rw [if_neg hh]
    by_cases hs : wordSum (tableBytes content td) ≠ td.checkSum
    · rw [if_pos hs]
      simp [hh, hs]
    · rw [if_neg hs]
      simp only [List.mem_singleton, reduceCtorEq, false_iff]
      intro h
      exact hs h.2.1

theorem checkTables_prints {content : Bytes} : ∀ (n i : Nat) (f : RandomAccessFile)
    (buf : Bytes) (tds : List TableDirectory) (hi : Nat), f.content = content → f.Fills →
    buf.length = 65536 → i + n ≤ 32767 → 12 + 16 * (i + n) ≤ content.length →
    (∀ td ∈ (List.range' i n).map (directoryEntry content),
      td.offset.toNat < 2 ^ 31 ∧ td.length.toNat < 2 ^ 31) →
    ∃ g buf', Prints (checkTables n i f buf tds hi)
        (.ok (tds ++ (List.range' i n).map (directoryEntry content),
          lastIndex (jstr "head") ((List.range' i n).map (directoryEntry content)) i hi, g, buf'))
        (((List.range' i n).map (directoryEntry content)).flatMap (tableLines content)) ∧
      g.content = content ∧ g.Fills ∧ buf'.length = 65536 := by
  intro n
  induction n with
  | zero =>
    intro i f buf tds hi hc hf hb _ _ _
    refine ⟨f, buf, ?_, hc, hf, hb⟩
    rw [List.range'_zero, List.map_nil, List.append_nil]
    exact prints_pure (tds, hi, f, buf)
  | succ n ih =>
    intro i f buf tds hi hc hf hb hmax hle hrange
    have hnat : (BitVec.ofNat 32 (12 + 16 * i)).toNat = 12 + 16 * i :=
      toNat_ofNat_of_lt (by omega)
    have hseek : f.seek (BitVec.ofNat 32 (12 + 16 * i)) =
        .ok { f with pointer := 12 + 16 * i } := by
      rw [seek_eq (by omega), hnat]
    have hentry : 12 + 16 * i + 16 ≤ f.content.length := by
      rw [hc]
      omega
    rw [List.range'_succ, List.map_cons] at hrange ⊢
    obtain ⟨r, buf1, g, hread, hb1, htd, hg, _, hgf⟩ := read_entry buf
      (f := { f with pointer := 12 + 16 * i }) (hf.of_schedule rfl) rfl hb hentry
    have htd' : getTableDirectory buf1 0 = .ok (directoryEntry content i) := by
      rw [← hc]
      exact htd
    have hgc : g.content = content := hg.trans hc
    have hhere := hrange _ List.mem_cons_self
    have hrest : ∀ td ∈ (List.range' (i + 1) n).map (directoryEntry content),
        td.offset.toNat < 2 ^ 31 ∧ td.length.toNat < 2 ^ 31 :=
      fun td htd => hrange td (List.mem_cons_of_mem _ htd)
    have hadd : tds ++ directoryEntry content i ::
          (List.range' (i + 1) n).map (directoryEntry content) =
        tds ++ [directoryEntry content i] ++
          (List.range' (i + 1) n).map (directoryEntry content) := by
      rw [List.append_assoc]
      rfl
    rw [checkTables, hseek, perform_bind, hread, perform_bind]
    simp only
    rw [htd', perform_bind, List.flatMap_cons, lastIndex, tableLines, hadd]
    by_cases hh : toTag (directoryEntry content i).tag = jstr "head"
    · rw [if_pos hh, if_pos hh, if_pos hh]
      exact ih (i + 1) g buf1 _ i hgc hgf hb1 (by omega) (by omega) hrest
    · obtain ⟨g1, hsum, hg1, hgf1⟩ := calcTableChecksumFile_eq g hgf hhere.1 hhere.2
      obtain ⟨g2, buf2, hrun, hend⟩ := ih (i + 1) g1 buf1 (tds ++ [directoryEntry content i]) hi
        (hg1.trans hgc) hgf1 hb1 (by omega) (by omega) hrest
      rw [hgc] at hsum
      rw [if_neg hh, if_neg hh, if_neg hh]
      refine ⟨g2, buf2, ?_, hend⟩
      show Prints _ _ ([Line.table (directoryEntry content i)] ++ ((if _ then _ else _) ++ _))
      apply prints_bind (prints_println _)
      rw [hsum, perform_bind]
      exact prints_bind (prints_compareSums _ _ _) hrun

/-! ## The adjustment -/

/-- The file with the adjustment of a table at zero. -/
def withoutAdjustment (content : Bytes) (td : TableDirectory) : Bytes :=
  overwrite 0 content (td.offset.toNat + 8) (intBytes 0)

def storedAdjustment (content : Bytes) (td : TableDirectory) : JInt :=
  intAt content (td.offset.toNat + 8)

/-- The line about the adjustment. -/
def headLines (content : Bytes) (td : TableDirectory) : List Line :=
  if 0xB1B0AFBA#32 - wordSum (withoutAdjustment content td) ≠ storedAdjustment content td then
    [.fail (jstr "head")]
  else []

theorem fail_mem_headLines {content : Bytes} {td : TableDirectory} {tag : JString} :
    .fail tag ∈ headLines content td ↔
      0xB1B0AFBA#32 - wordSum (withoutAdjustment content td) ≠ storedAdjustment content td ∧
        tag = jstr "head" := by
  unfold headLines
  split_ifs with h
  · simp [h]
  · simp [h]

theorem checkHead_prints {f : RandomAccessFile} {buf : Bytes} {tds : List TableDirectory}
    {hi : Nat} {td : TableDirectory} (hf : f.Fills) (hb : buf.length = 65536)
    (hsmall : f.content.length < 2 ^ 31) (htd : tds[hi]? = some td)
    (hrange : td.offset.toNat + td.length.toNat ≤ f.content.length) (h4 : 4 ∣ td.offset.toNat)
    (h54 : 54 ≤ td.length.toNat) (hmax : td.length.toNat ≤ 65536) :
    Prints (checkHead f buf tds hi) (.ok ()) (headLines f.content td ++ [.done]) := by
  have hnat : (BitVec.ofNat 32 f.content.length).toNat = f.content.length :=
    toNat_ofNat_of_lt (by omega)
  have h0 : (0 : JInt).toNat = 0 := rfl
  obtain ⟨g, hsum, hgc, hgf⟩ := calcTableChecksumFile_eq f hf
    (by omega : (0 : JInt).toNat < 2 ^ 31)
    (by omega : (BitVec.ofNat 32 f.content.length).toNat < 2 ^ 31)
  rw [h0, hnat, slice_all (Nat.le_refl _)] at hsum
  obtain ⟨r, g2, hread, _⟩ := read_within (f := { g with pointer := td.offset.toNat }) buf
    (n := td.length.toNat) (hgf.of_schedule rfl) rfl (by omega) (by omega)
    (by rw [hgc]; exact hrange)
  have hslice : (slice f.content td.offset.toNat td.length.toNat).length = td.length.toNat :=
    slice_length_of_le hrange
  rw [ofNat_toNat_self] at hread
  have hlong : 54 ≤ (slice f.content td.offset.toNat td.length.toNat ++
      buf.drop td.length.toNat).length := by
    rw [List.length_append, hslice]
    omega
  obtain ⟨fh, hfh, hadj⟩ := getFontHeader_adjustment hlong
  rw [intAt_append_left _ (by omega), intAt_slice (by omega)] at hadj
  have hcleared := wordSum_overwrite (c := f.content) (p := td.offset.toNat + 8) (by omega)
    (by omega) 0
  rw [add_zero] at hcleared
  rw [checkHead, RandomAccessFile.length, hsum, perform_bind]
  simp only
  rw [htd]
  simp only
  rw [seek_eq (by omega), perform_bind, hread, perform_bind]
  simp only
  rw [hgc, hfh, perform_bind, hadj, headLines, withoutAdjustment, storedAdjustment, hcleared]
  exact prints_bind (prints_compareSums _ _ _) (prints_println _)

/-! ## The whole run -/

/-- A run, given what the check of the adjustment does. -/
theorem run_prints {content : Bytes} {schedule : Nat → Nat → Nat} {r : JavaM Unit}
    {ls : List Line} (hf : (openFile content schedule).Fills) (hfont : isFont content)
    (hdir : 12 + 16 * tableCount content ≤ content.length) (hpos : 0 < tableCount content)
    (hints : ∀ td ∈ directory content, td.offset.toNat < 2 ^ 31 ∧ td.length.toNat < 2 ^ 31)
    (hhead : ∀ g buf, g.content = content → g.Fills → buf.length = 65536 →
      Prints (checkHead g buf (directory content)
        (lastIndex (jstr "head") (directory content) 0 0)) r ls) :
    Prints (run (openFile content schedule)) r
      (.header (offsetTableOf content) ::
        ((directory content).flatMap (tableLines content) ++ ls)) := by
  obtain ⟨hn, hnat⟩ := numTables_of_pos hpos
  obtain ⟨k, buf1, g, hread, hb1, hot, hc, _, hgf⟩ := read_header (List.replicate 65536 0)
    hf rfl List.length_replicate (by show 12 ≤ content.length; omega)
  have hot' : getOffsetTable buf1 0 = .ok (offsetTableOf content) := hot
  have hgc : g.content = content := hc
  have hlist : (List.range' 0 (tableCount content)).map (directoryEntry content) =
      directory content := by
    rw [← List.range_eq_range']
    rfl
  have hmax : tableCount content ≤ 32767 := by
    have hcases := short_toInt_cases (offsetTableOf content).numTables
    omega
  obtain ⟨g2, buf2, hrun, hc2, hgf2, hb2⟩ := checkTables_prints (tableCount content) 0 g
    buf1 [] 0 hgc hgf hb1 (by omega) (by omega) (by rw [hlist]; exact hints)
  rw [hlist, List.nil_append] at hrun
  rw [run]
  simp only
  rw [hread, perform_bind]
  simp only
  rw [hot', perform_bind, if_neg (by rcases hfont with hs | hs <;> simp [hs])]
  show Prints _ _ ([Line.header (offsetTableOf content)] ++ _)
  apply prints_bind (prints_println _)
  rw [if_neg hn, hnat]
  exact prints_bind hrun (hhead g2 buf2 hc2 hgf2 hb2)

/-- A font whose directory and tables lie inside the file, with one table `head`. -/
structure Checkable (content : Bytes) (head : TableDirectory) : Prop where
  isFont : isFont content
  directory_le : 12 + 16 * tableCount content ≤ content.length
  range : ∀ td ∈ directory content, td.offset.toNat + td.length.toNat ≤ content.length
  head_entry : ∃ before after, directory content = before ++ head :: after ∧
    toTag head.tag = jstr "head" ∧ ∀ td ∈ before ++ after, toTag td.tag ≠ jstr "head"
  aligned : 4 ∣ head.offset.toNat
  length_ge : 54 ≤ head.length.toNat
  length_le : head.length.toNat ≤ 65536

section Run

variable {content : Bytes} {head : TableDirectory} {schedule : Nat → Nat → Nat}
variable (hf : (openFile content schedule).Fills) (h : Checkable content head)

include h

theorem Checkable.mem : head ∈ directory content := by
  obtain ⟨before, after, hsplit, _⟩ := h.head_entry
  rw [hsplit]
  exact List.mem_append_right _ List.mem_cons_self

theorem Checkable.tableCount_pos : 0 < tableCount content := by
  rw [← directory_length]
  exact List.length_pos_of_mem h.mem

/-- The index the loop ends with is that of `head`. -/
theorem Checkable.get_lastIndex :
    (directory content)[lastIndex (jstr "head") (directory content) 0 0]? = some head := by
  obtain ⟨before, after, hsplit, htag, hothers⟩ := h.head_entry
  have hafter : ∀ td ∈ after, toTag td.tag ≠ jstr "head" :=
    fun td htd => hothers td (List.mem_append_right _ htd)
  rw [hsplit, lastIndex_last before after htag hafter, Nat.zero_add]
  simp

include hf

/-- From 2^31 bytes on the length is a negative `int`, and the adjustment is not
looked at. -/
theorem output_of_large (hlarge : 2 ^ 31 ≤ content.length) (hlt : content.length < 2 ^ 32)
    (hints : ∀ td ∈ directory content, td.offset.toNat < 2 ^ 31 ∧ td.length.toNat < 2 ^ 31) :
    output (openFile content schedule) =
      .header (offsetTableOf content) :: (directory content).flatMap (tableLines content) := by
  have hhead : ∀ g buf, g.content = content → g.Fills → buf.length = 65536 →
      Prints (checkHead g buf (directory content)
        (lastIndex (jstr "head") (directory content) 0 0)) (.error .negativeArraySize) [] := by
    intro g buf hc _ _
    have hneg : (BitVec.ofNat 32 g.length).toInt < 0 := by
      rw [toInt_neg_iff, RandomAccessFile.length, hc, toNat_ofNat_of_lt hlt]
      exact hlarge
    have hsum : calcTableChecksumFile g 0 (BitVec.ofNat 32 g.length) =
        .error .negativeArraySize := by
      rw [calcTableChecksumFile, newArray_error _ (mathMin_neg (by decide) hneg)]
      rfl
    rw [checkHead, hsum]
    exact prints_throw _
  have hrun := (run_prints hf h.isFont h.directory_le h.tableCount_pos hints hhead).printed
  rw [List.append_nil] at hrun
  exact hrun

variable (hsize : content.length < 2 ^ 31)

include hsize

theorem output_eq : output (openFile content schedule) =
    .header (offsetTableOf content) ::
      ((directory content).flatMap (tableLines content) ++
        (headLines content head ++ [.done])) := by
  have hints : ∀ td ∈ directory content,
      td.offset.toNat < 2 ^ 31 ∧ td.length.toNat < 2 ^ 31 := by
    intro td htd
    have := h.range td htd
    omega
  have hhead : ∀ g buf, g.content = content → g.Fills → buf.length = 65536 →
      Prints (checkHead g buf (directory content)
        (lastIndex (jstr "head") (directory content) 0 0)) (.ok ())
        (headLines content head ++ [.done]) := by
    intro g buf hc hgf hb
    have hprints := checkHead_prints hgf hb (by rw [hc]; exact hsize) h.get_lastIndex
      (by rw [hc]; exact h.range head h.mem) h.aligned h.length_ge h.length_le
    rw [hc] at hprints
    exact hprints
  exact (run_prints hf h.isFont h.directory_le h.tableCount_pos hints hhead).printed

theorem mem_output {line : Line} : line ∈ output (openFile content schedule) ↔
    line = .header (offsetTableOf content) ∨
      (∃ td ∈ directory content, line ∈ tableLines content td) ∨
      line ∈ headLines content head ∨ line = .done := by
  rw [output_eq hf h hsize]
  simp only [List.mem_cons, List.mem_append, List.mem_flatMap, List.not_mem_nil,
    or_false]

/-- The lines about sums that fail. -/
theorem fail_mem_output {tag : JString} : Line.fail tag ∈ output (openFile content schedule) ↔
    (∃ td ∈ directory content, toTag td.tag ≠ jstr "head" ∧
      wordSum (tableBytes content td) ≠ td.checkSum ∧ tag = toTag td.tag) ∨
    0xB1B0AFBA#32 - wordSum (withoutAdjustment content head) ≠ storedAdjustment content head ∧
      tag = jstr "head" := by
  rw [mem_output hf h hsize]
  simp only [reduceCtorEq, false_or, or_false, fail_mem_tableLines, fail_mem_headLines]

/-- `CheckSum` finds a wrong sum of every table but `head`, and a wrong adjustment,
and reports nothing else. -/
theorem run_fails_iff : (∃ tag, Line.fail tag ∈ output (openFile content schedule)) ↔
    (∃ td ∈ directory content, toTag td.tag ≠ jstr "head" ∧
      td.checkSum ≠ wordSum (tableBytes content td)) ∨
    storedAdjustment content head ≠ 0xB1B0AFBA#32 - wordSum (withoutAdjustment content head) := by
  simp only [fail_mem_output hf h hsize]
  constructor
  · intro hfail
    obtain ⟨tag, ⟨td, htd, hh, hs, _⟩ | ⟨hs, _⟩⟩ := hfail
    · exact Or.inl ⟨td, htd, hh, Ne.symm hs⟩
    · exact Or.inr (Ne.symm hs)
  · intro hwrong
    rcases hwrong with ⟨td, htd, hh, hs⟩ | hs
    · exact ⟨toTag td.tag, Or.inl ⟨td, htd, hh, Ne.symm hs, rfl⟩⟩
    · exact ⟨jstr "head", Or.inr ⟨Ne.symm hs, rfl⟩⟩

end Run

/-! ## A font with no table but `head` -/

def headEntry (checkSum : JInt) : TableDirectory :=
  { tag := headTag, checkSum, offset := 28, length := 54 }

/-- The sum of `head` is 0, whatever the entry says; `rest` follows the table. -/
def headFont (checkSum adjustment : JInt) (rest : Bytes) : Bytes :=
  offsetTableBytes ⟨0x00010000, 1, 16, 0, 0⟩ ++ entryBytes (headEntry checkSum) ++
    (List.replicate 8 0 ++ intBytes adjustment ++ List.replicate 42 0 ++ rest)

theorem headFont_length (c a : JInt) (rest : Bytes) :
    (headFont c a rest).length = 82 + rest.length := by
  simp only [headFont, List.length_append, offsetTableBytes_length, entryBytes_length,
    List.length_replicate, intBytes_length]
  omega

theorem directory_headFont (c a : JInt) (rest : Bytes) :
    directory (headFont c a rest) = [headEntry c] := by
  have hot : offsetTableOf (headFont c a rest) = ⟨0x00010000, 1, 16, 0, 0⟩ := by
    rw [headFont, List.append_assoc]
    exact offsetTableOf_bytes _ _
  have hslice : slice (headFont c a rest) 12 16 = entryBytes (headEntry c) :=
    slice_append_block (offsetTableBytes ⟨0x00010000, 1, 16, 0, 0⟩) (entryBytes (headEntry c)) _
  have hentry := tableDirectoryAt_slice (headFont c a rest) [] (p := 12)
    (by rw [headFont_length]; omega)
  rw [hslice, List.append_nil, tableDirectoryAt_bytes] at hentry
  rw [directory, tableCount, hot]
  show [directoryEntry (headFont c a rest) 0] = _
  rw [directoryEntry, ← hentry]

theorem checkable_headFont (c a : JInt) (rest : Bytes) :
    Checkable (headFont c a rest) (headEntry c) := by
  have hdir := directory_headFont c a rest
  have hlen := headFont_length c a rest
  have hcount : tableCount (headFont c a rest) = 1 := by
    rw [← directory_length, hdir]
    rfl
  constructor
  · exact Or.inl (intAt_intBytes 0x00010000 _)
  · omega
  · intro td htd
    rw [hdir, List.mem_singleton] at htd
    rw [htd, hlen]
    show 28 + 54 ≤ 82 + rest.length
    omega
  · refine ⟨[], [], hdir, toTag_eq_head.mpr rfl, ?_⟩
    intro td htd
    cases htd
  · exact ⟨7, rfl⟩
  · exact Nat.le_refl 54
  · show 54 ≤ 65536
    omega

theorem run_fails_iff_adjustment :
    ∃ tag, Line.fail tag ∈ output (openFile (headFont 0 0 []) filling) :=
  (run_fails_iff (openFile_fills _) (checkable_headFont 0 0 []) (by decide)).mpr
    (Or.inr (by decide))

/-- The font followed by zeros, 2^31 bytes in all. -/
def largeFont : Bytes := headFont 0 0 (List.replicate (2 ^ 31 - 82) 0)

theorem largeFont_wrong : storedAdjustment largeFont (headEntry 0) ≠
    0xB1B0AFBA#32 - wordSum (withoutAdjustment largeFont (headEntry 0)) := by
  have hsplit : largeFont = headFont 0 0 [] ++ List.replicate (2 ^ 31 - 82) 0 := by
    simp only [largeFont, headFont, List.append_assoc, List.nil_append]
  have hoff : (headEntry 0).offset.toNat + 8 = 36 := rfl
  have hstored : storedAdjustment largeFont (headEntry 0) = 0 := by
    rw [storedAdjustment, hsplit, hoff, intAt_append_left _ (by decide)]
    decide
  have hcleared : withoutAdjustment largeFont (headEntry 0) =
      withoutAdjustment (headFont 0 0 []) (headEntry 0) ++ List.replicate (2 ^ 31 - 82) 0 := by
    rw [withoutAdjustment, withoutAdjustment, hsplit, hoff,
      overwrite_append_left 0 _ (by decide)]
  rw [hstored, hcleared, wordSum_append_zeros]
  decide

/-- A wrong sum of `head` goes unnoticed, and so does a wrong adjustment in a file
of 2^31 bytes. -/
theorem run_misses :
    (Checkable (headFont 1 0x49494DF3 []) (headEntry 1) ∧
      (openFile (headFont 1 0x49494DF3 []) filling).Fills ∧
      headEntry 1 ∈ directory (headFont 1 0x49494DF3 []) ∧
      (headEntry 1).checkSum ≠
        wordSum (overwrite 0 (tableBytes (headFont 1 0x49494DF3 []) (headEntry 1)) 8
          (intBytes 0)) ∧
      ¬ ∃ tag, Line.fail tag ∈ output (openFile (headFont 1 0x49494DF3 []) filling)) ∧
    (Checkable largeFont (headEntry 0) ∧ (openFile largeFont filling).Fills ∧
      storedAdjustment largeFont (headEntry 0) ≠
        0xB1B0AFBA#32 - wordSum (withoutAdjustment largeFont (headEntry 0)) ∧
      ¬ ∃ tag, Line.fail tag ∈ output (openFile largeFont filling)) := by
  have hdir := directory_headFont 1 0x49494DF3 []
  have hdir' : directory largeFont = [headEntry 0] := directory_headFont 0 0 _
  have hlen : largeFont.length = 2 ^ 31 := by
    rw [largeFont, headFont_length, List.length_replicate]
    omega
  refine ⟨⟨checkable_headFont _ _ _, openFile_fills _, ?_, by decide, ?_⟩,
    checkable_headFont _ _ _, openFile_fills _, largeFont_wrong, ?_⟩
  · rw [hdir]
    exact List.mem_singleton_self _
  · intro h
    obtain ⟨tag, htag⟩ := h
    rcases (fail_mem_output (openFile_fills _) (checkable_headFont _ _ _) (by decide)).mp htag
      with ⟨td, htd, hh, _⟩ | ⟨hs, _⟩
    · rw [hdir, List.mem_singleton] at htd
      rw [htd] at hh
      exact hh (toTag_eq_head.mpr rfl)
    · exact hs (by decide)
  · have hout := output_of_large (openFile_fills largeFont) (checkable_headFont 0 0 _)
      (Nat.le_of_eq hlen.symm) (by rw [hlen]; decide) (by
        intro td htd
        rw [hdir', List.mem_singleton] at htd
        rw [htd]
        decide)
    have hlines : tableLines largeFont (headEntry 0) = [] := if_pos (toTag_eq_head.mpr rfl)
    rw [hout, hdir', List.flatMap_cons, hlines]
    intro h
    obtain ⟨tag, htag⟩ := h
    cases List.mem_singleton.mp htag

end CheckSum
end Otf
end I18nZh
