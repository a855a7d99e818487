import I18nZh.Po.OutFile

/-!
# Reading back what the merge wrote
-/

namespace I18nZh
namespace Po
namespace Merge

open Lines

/-! ## What the merge writes -/

/-- Comments and msgstr of a block as they are written, without the count. -/
def replaced (source : Source) (comments : List Text) (msgid msgstr : Text) :
    List Text × Text :=
  if msgid ≠ emptyString ∧ (source.get msgid).1 ≠ emptyString then
    ((splitComments comments).2 ++ (source.get msgid).2, (source.get msgid).1)
  else (comments, msgstr)

theorem updateMessage_eq (source : Source) (comments : List Text) (msgid msgstr : Text)
    (n : Nat) : ∃ m, updateMessage source comments msgid msgstr n =
      ((replaced source comments msgid msgstr).1,
        (replaced source comments msgid msgstr).2, m) := by
  unfold updateMessage replaced
  by_cases h : msgid ≠ emptyString ∧ (source.get msgid).1 ≠ emptyString
  · rw [if_pos h, if_pos h]
    simp only
    by_cases hdiff : (source.get msgid).1 ≠ msgstr ∨
        (splitComments comments).2 ++ (source.get msgid).2 ≠ comments
    · rw [if_pos hdiff]
      exact ⟨n + 1, rfl⟩
    · rw [if_neg hdiff]
      rw [not_or, not_not, not_not] at hdiff
      exact ⟨n, by rw [hdiff.1, hdiff.2]⟩
  · rw [if_neg h, if_neg h]
    exact ⟨n, rfl⟩

theorem updateBlock_none (source : Source) (comments : List Text) :
    updateBlock source ⟨comments, none⟩ = ⟨comments, none⟩ := rfl

theorem updateBlock_some (source : Source) (comments : List Text) (msgid msgstr : Text) :
    updateBlock source ⟨comments, some (msgid, msgstr)⟩ =
      ⟨(replaced source comments msgid msgstr).1,
        some (msgid, (replaced source comments msgid msgstr).2)⟩ := by
  obtain ⟨m, hm⟩ := updateMessage_eq source comments msgid msgstr 0
  rw [updateBlock]
  simp only
  rw [hm]

/-- One turn of the main loop appends the block. -/
theorem mergeBlock_outfile (source : Source) (st : MergeState) (block : Block) :
    (mergeBlock source st block).first = false ∧ (mergeBlock source st block).outfile =
      (if st.first then st.outfile else st.outfile ++ text "\n") ++
        blockText (updateBlock source block) := by
  obtain ⟨comments, message⟩ := block
  cases message with
  | none =>
    refine ⟨rfl, ?_⟩
    rw [updateBlock_none, blockText, List.append_nil]
    rfl
  | some strings =>
    obtain ⟨msgid, msgstr⟩ := strings
    obtain ⟨m, hm⟩ := updateMessage_eq source comments msgid msgstr st.updateCount
    rw [updateBlock_some, blockText, mergeBlock]
    simp only
    rw [hm]
    exact ⟨trivial, by simp only [List.append_assoc]⟩

/-- After the first block. -/
theorem foldl_mergeBlock (source : Source) : ∀ (blocks : List Block) (st : MergeState),
    st.first = false → (blocks.foldl (mergeBlock source) st).outfile =
      st.outfile ++ tailText (blocks.map (updateBlock source)) := by
  intro blocks
  induction blocks with
  | nil =>
    intro st _
    exact (List.append_nil _).symm
  | cons block blocks ih =>
    intro st hst
    obtain ⟨hfirst, hout⟩ := mergeBlock_outfile source st block
    rw [List.foldl_cons, ih _ hfirst, hout, hst, List.map_cons, tailText, tailText,
      List.flatMap_cons]
    simp [text]

theorem foldl_mergeBlock_start (source : Source) (blocks : List Block) :
    (blocks.foldl (mergeBlock source) startState).outfile =
      outText (blocks.map (updateBlock source)) := by
  cases blocks with
  | nil => rfl
  | cons block blocks =>
    obtain ⟨hfirst, hout⟩ := mergeBlock_outfile source startState block
    rw [List.foldl_cons, foldl_mergeBlock source _ _ hfirst, hout]
    rfl

/-! ## The hash of the source -/

def sourceOf (stdin : Text) : Source := (forBlocks addTranslation stdin fun _ => none).1

/-- What is in the hash was read from a file. -/
def Sound (source : Source) : Prop :=
  ∀ msgid msgstr flags, source msgid = some (msgstr, flags) →
    (∃ l : Literal, msgstr = l.text ∨ msgstr = l.text ++ ['\n']) ∧ ∀ c ∈ flags, IsComment c

theorem mem_splitComments {comments : List Text} {c : Text}
    (h : c ∈ (splitComments comments).1 ∨ c ∈ (splitComments comments).2) : c ∈ comments := by
  rw [splitComments, List.partition_eq_filter_filter] at h
  rcases h with h | h
  · exact (List.mem_filter.mp h).1
  · exact (List.mem_filter.mp h).1

theorem Parsed.isComment {block : Block} (h : Parsed block) (hne : block.message ≠ none) :
    ∀ c ∈ block.comments, IsComment c := by
  intro c hc
  rcases h.comments c hc with hc | ⟨_, hnone⟩
  · exact hc
  · exact absurd hnone hne

theorem Sound.add {source : Source} (h : Sound source) {block : Block} (hp : Parsed block) :
    Sound (addTranslation source block) := by
  obtain ⟨comments, message⟩ := block
  cases message with
  | none => exact h
  | some strings =>
    obtain ⟨msgid, msgstr⟩ := strings
    intro id str flags heq
    rw [addTranslation] at heq
    simp only at heq
    by_cases hid : id = msgid
    · rw [hid, Function.update_self, Option.some.injEq, Prod.mk.injEq] at heq
      obtain ⟨rfl, rfl⟩ := heq
      refine ⟨(hp.message msgid msgstr rfl).2, ?_⟩
      intro c hc
      exact hp.isComment (Option.some_ne_none _) c (mem_splitComments (Or.inl hc))
    · rw [Function.update_of_ne hid] at heq
      exact h id str flags heq

theorem sound_foldl : ∀ (blocks : List Block) (source : Source), Sound source →
    (∀ block ∈ blocks, Parsed block) → Sound (blocks.foldl addTranslation source) := by
  intro blocks
  induction blocks with
  | nil =>
    intro source h _
    exact h
  | cons block blocks ih =>
    intro source h hp
    exact ih _ (h.add (hp block List.mem_cons_self)) fun b hb =>
      hp b (List.mem_cons_of_mem block hb)

theorem sourceOf_sound (stdin : Text) : Sound (sourceOf stdin) := by
  rw [sourceOf, forBlocks_eq]
  apply sound_foldl
  · intro _ _ _ h
    cases h
  · exact fun block hb => (readBlocks_parsed stdin block hb).1

theorem Sound.get {source : Source} (h : Sound source) (msgid : Text)
    (hne : (source.get msgid).1 ≠ emptyString) :
    (∃ l : Literal, (source.get msgid).1 = l.text ∨ (source.get msgid).1 = l.text ++ ['\n']) ∧
      ∀ c ∈ (source.get msgid).2, IsComment c := by
  unfold Source.get at hne ⊢
  cases hs : source msgid with
  | none =>
    rw [hs] at hne
    exact absurd rfl hne
  | some r => exact h msgid r.1 r.2 hs

/-! ## The blocks that are written -/

/-- What it takes for a block of the file to be read back as it is written. -/
def Returns (source : Source) (block : Block) : Prop :=
  match block.message with
  | none => ∀ c ∈ block.comments, c ≠ []
  | some (msgid, msgstr) =>
    if msgid ≠ emptyString ∧ (source.get msgid).1 ≠ emptyString then
      ((splitComments block.comments).2 ≠ [] ∨ (source.get msgid).2 ≠ []) ∧
        (source.get msgid).1.getLast? ≠ some '\n'
    else block.comments ≠ [] ∧ msgstr.getLast? ≠ some '\n'

instance (source : Source) (block : Block) : Decidable (Returns source block) :=
  match block with
  | ⟨comments, none⟩ => inferInstanceAs (Decidable (∀ c ∈ comments, c ≠ []))
  | ⟨comments, some (msgid, msgstr)⟩ =>
    inferInstanceAs (Decidable (if msgid ≠ emptyString ∧ (source.get msgid).1 ≠ emptyString then
        ((splitComments comments).2 ≠ [] ∨ (source.get msgid).2 ≠ []) ∧
          (source.get msgid).1.getLast? ≠ some '\n'
      else comments ≠ [] ∧ msgstr.getLast? ≠ some '\n'))

section Update

variable {source : Source} {block : Block} (hs : Sound source) (hp : Parsed block)
variable (hend : ¬ block.isEnd)

include hs hp hend

theorem updateBlock_parsed :
    Parsed (updateBlock source block) ∧ ¬ (updateBlock source block).isEnd := by
  obtain ⟨comments, message⟩ := block
  cases message with
  | none => exact ⟨hp, hend⟩
  | some strings =>
    obtain ⟨msgid, msgstr⟩ := strings
    obtain ⟨hid, hstr⟩ := hp.message msgid msgstr rfl
    have hcs := hp.isComment (Option.some_ne_none _)
    rw [updateBlock_some]
    refine ⟨?_, fun h => Option.some_ne_none _ h.2⟩
    unfold replaced
    by_cases h : msgid ≠ emptyString ∧ (source.get msgid).1 ≠ emptyString
    · obtain ⟨hnew, hflags⟩ := hs.get msgid h.2
      rw [if_pos h]
      constructor
      · intro c hc
        rcases List.mem_append.mp hc with hc | hc
        · exact Or.inl (hcs c (mem_splitComments (Or.inr hc)))
        · exact Or.inl (hflags c hc)
      · intro id str heq
        cases heq
        exact ⟨hid, hnew⟩
    · rw [if_neg h]
      exact hp

theorem plain_updateBlock_iff : Plain (updateBlock source block) ↔ Returns source block := by
  obtain ⟨hparsed, hwritten⟩ := updateBlock_parsed hs hp hend
  obtain ⟨comments, message⟩ := block
  cases message with
  | none =>
    rw [updateBlock_none]
    constructor
    · intro h
      exact h.comments
    · intro h
      refine ⟨fun hnil => hend ⟨hnil, rfl⟩, h, ?_⟩
      intro _ _ heq
      cases heq
  | some strings =>
    obtain ⟨msgid, msgstr⟩ := strings
    rw [updateBlock_some] at hparsed ⊢
    have hcs := hparsed.isComment (Option.some_ne_none _)
    have hplain : Plain ⟨(replaced source comments msgid msgstr).1,
          some (msgid, (replaced source comments msgid msgstr).2)⟩ ↔
        (replaced source comments msgid msgstr).1 ≠ [] ∧
          (replaced source comments msgid msgstr).2.getLast? ≠ some '\n' := by
      constructor
      · intro h
        exact ⟨h.comments_ne, h.message _ _ rfl⟩
      · intro h
        refine ⟨h.1, ?_, ?_⟩
        · intro c hc hnil
          have hhead := (hcs c hc).1
          rw [hnil] at hhead
          cases hhead
        · intro _ _ heq
          cases heq
          exact h.2
    rw [hplain, replaced, Returns]
    simp only
    by_cases h : msgid ≠ emptyString ∧ (source.get msgid).1 ≠ emptyString
    · rw [if_pos h, if_pos h, Ne, List.append_eq_nil_iff, not_and_or]
    · rw [if_neg h, if_neg h]

end Update

/-! ## The run -/

/-- What the main loop has done after some blocks. -/
def stateAfter (source : Source) (bs : List Block) : MergeState :=
  bs.foldl (mergeBlock source) startState

theorem sourceOf_eq (stdin : Text) :
    sourceOf stdin = (readBlocks stdin).1.foldl addTranslation fun _ => none := by
  rw [sourceOf, forBlocks_eq]

theorem main_of_source_error {stdin : Text} {e : PyError} (h : (readBlocks stdin).2 = some e)
    (prog lang : Text) (fs : FileSystem) : main [prog, lang] stdin fs = (fs, .error e) := by
  rw [main]
  simp only
  rw [forBlocks_eq, h]

theorem main_of_no_file {lang stdin : Text} {fs : FileSystem} (h : (readBlocks stdin).2 = none)
    (hfile : fs lang = none) (prog : Text) :
    main [prog, lang] stdin fs = (fs, .error .osError) := by
  rw [main]
  simp only
  rw [forBlocks_eq, h]
  simp only
  rw [hfile]

/-- A run that gets to the file: what is in the two files then, and how it ends. -/
theorem main_of_file {lang stdin infile : Text} {fs : FileSystem}
    (h : (readBlocks stdin).2 = none) (hfile : fs lang = some infile) (prog : Text) :
    main [prog, lang] stdin fs =
      (Function.update (Function.update (Function.update fs lang none) (lang ++ text ".bak")
          (some infile)) lang (some (outText ((readBlocks infile).1.map
            (updateBlock (sourceOf stdin))))),
        match (readBlocks infile).2 with
        | some e => .error e
        | none =>
          if (stateAfter (sourceOf stdin) (readBlocks infile).1).stringCount = 0 then
            .error .zeroDivisionError
          else
            .ok ⟨(stateAfter (sourceOf stdin) (readBlocks infile).1).updateCount,
              (stateAfter (sourceOf stdin) (readBlocks infile).1).untranslated,
              (stateAfter (sourceOf stdin) (readBlocks infile).1).stringCount⟩) := by
  rw [main]
  simp only
  rw [forBlocks_eq, ← sourceOf_eq, h]
  simp only
  rw [hfile]
  simp only
  rw [forBlocks_eq, foldl_mergeBlock_start]
  cases (readBlocks infile).2 with
  | some e => rfl
  | none =>
    simp only
    rw [stateAfter]
    split_ifs <;> rfl

/-- A run that completes. -/
theorem main_completes {prog lang stdin infile : Text} {fs fs' : FileSystem} {report : Report}
    (hfile : fs lang = some infile) (h : main [prog, lang] stdin fs = (fs', .ok report)) :
    (readBlocks stdin).2 = none ∧ (readBlocks infile).2 = none ∧
      fs' lang = some (outText ((readBlocks infile).1.map (updateBlock (sourceOf stdin)))) := by
  cases hs : (readBlocks stdin).2 with
  | some e =>
    rw [main_of_source_error hs] at h
    cases h
  | none =>
    rw [main_of_file hs hfile] at h
    cases hi : (readBlocks infile).2 with
    | some e =>
      rw [hi] at h
      cases h
    | none =>
      refine ⟨rfl, rfl, ?_⟩
      have hfs := congrArg Prod.fst h
      simp only at hfs
      rw [← hfs]
      exact Function.update_self _ _ _

/-- What it reports. -/
theorem main_report {prog lang stdin infile : Text} {fs fs' : FileSystem} {report : Report}
    (hfile : fs lang = some infile) (h : main [prog, lang] stdin fs = (fs', .ok report)) :
    report = ⟨(stateAfter (sourceOf stdin) (readBlocks infile).1).updateCount,
      (stateAfter (sourceOf stdin) (readBlocks infile).1).untranslated,
      (stateAfter (sourceOf stdin) (readBlocks infile).1).stringCount⟩ := by
  obtain ⟨hs, hi, _⟩ := main_completes hfile h
  rw [main_of_file hs hfile, hi] at h
  have hreport := congrArg Prod.snd h
  simp only at hreport
  by_cases hzero : (stateAfter (sourceOf stdin) (readBlocks infile).1).stringCount = 0
  · rw [if_pos hzero] at hreport
    cases hreport
  · rw [if_neg hzero] at hreport
    cases hreport
    rfl

/-- What the merge wrote is read back, the same blocks in the same order, if and only
if each block of the file returns. -/
theorem main_reads_back_iff {prog lang stdin infile : Text} {fs fs' : FileSystem}
    {report : Report} (hfile : fs lang = some infile)
    (h : main [prog, lang] stdin fs = (fs', .ok report)) :
    ∃ outfile, fs' lang = some outfile ∧
      (readBlocks outfile = ((readBlocks infile).1.map (updateBlock (sourceOf stdin)), none) ↔
        ∀ block ∈ (readBlocks infile).1, Returns (sourceOf stdin) block) := by
  obtain ⟨_, _, hout⟩ := main_completes hfile h
  refine ⟨_, hout, ?_⟩
  have hs := sourceOf_sound stdin
  have hp := readBlocks_parsed infile
  have hwritten : ∀ block ∈ (readBlocks infile).1.map (updateBlock (sourceOf stdin)),
      Parsed block ∧ ¬ block.isEnd := by
    intro block hblock
    obtain ⟨b, hb, rfl⟩ := List.mem_map.mp hblock
    exact updateBlock_parsed hs (hp b hb).1 (hp b hb).2
  rw [readBlocks_eq, blocksOf_outText _ _ hwritten (Nat.lt_succ_self _), List.forall_mem_map]
  constructor
  · intro hall b hb
    exact (plain_updateBlock_iff hs (hp b hb).1 (hp b hb).2).mp (hall b hb)
  · intro hall b hb
    exact (plain_updateBlock_iff hs (hp b hb).1 (hp b hb).2).mpr (hall b hb)

/-- A file system with the one file `lang.po`. -/
def inFile (file : Text) : FileSystem :=
  fun path => if path = text "lang.po" then some file else none

/-- A block with a flag, for which the source has a translation, and one without
any comment, for which it has a flag. -/
def commented : Text :=
  text "# a\n#, fuzzy\nmsgid \"a\"\nmsgstr \"\"\n\nmsgid \"b\"\n\"c\"\nmsgstr \"\"\n"

def translations : Text :=
  text "msgid \"a\"\nmsgstr \"x\"\n\n#, c-format\nmsgid \"b\"\n\"c\"\nmsgstr \"y\"\n"

theorem main_reads_back_iff_commented : ∃ fs' report outfile,
    main [text "po-merge.py", text "lang.po"] translations (inFile commented) =
        (fs', .ok report) ∧
      fs' (text "lang.po") = some outfile ∧
      readBlocks outfile =
        ((readBlocks commented).1.map (updateBlock (sourceOf translations)), none) := by
  have hrun : main [text "po-merge.py", text "lang.po"] translations (inFile commented) =
      ((main [text "po-merge.py", text "lang.po"] translations (inFile commented)).1,
        .ok ⟨2, 0, 2⟩) := rfl
  have hfile : inFile commented (text "lang.po") = some commented := rfl
  obtain ⟨outfile, hout, hiff⟩ := main_reads_back_iff hfile hrun
  exact ⟨_, _, outfile, hrun, hout, hiff.mpr (by decide)⟩

/-- A block without comments. -/
def uncommented : Text := text "msgid \"a\"\nmsgstr \"b\"\n"

theorem main_loses_block : ∃ fs' report outfile,
    main [text "po-merge.py", text "lang.po"] [] (inFile uncommented) = (fs', .ok report) ∧
      fs' (text "lang.po") = some outfile ∧
      (readBlocks uncommented).1.map (updateBlock (sourceOf [])) =
        [⟨[], some (text "\"a\"", text "\"b\"")⟩] ∧
      readBlocks outfile = ([], none) :=
  ⟨_, ⟨0, 0, 1⟩, _, rfl, rfl, rfl, rfl⟩

end Merge
end Po
end I18nZh
