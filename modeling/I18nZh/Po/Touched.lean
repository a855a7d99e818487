import I18nZh.Po.Lossless
import I18nZh.Po.ReadBack

/-!
# What the merge touches

A block for which the source says what is already there: when its lines are written
as they are.  The comments are compared with the other comments followed by the
flags, so that it matters where the flags stand.
-/

namespace I18nZh
namespace Po
namespace Merge

open Lines

/-! ## The blocks of a file and their places -/

/-- The loop over a file comes to the lines `f` with the blocks `bs` behind it. -/
inductive Reaches (file : Text) : List Block → List Text → Prop
  | start : Reaches file [] (fileLines file)
  | next {bs : List Block} {f g : List Text} {block : Block} (h : Reaches file bs f)
      (hparse : parseTranslation f = .ok (block, g)) (hend : ¬ block.isEnd) :
      Reaches file (bs ++ [block]) g

theorem Reaches.suffix {file : Text} {bs : List Block} {f : List Text}
    (h : Reaches file bs f) : f <:+ fileLines file := by
  induction h with
  | start => exact List.suffix_rfl
  | next _ hparse _ ih => exact (parseTranslation_suffix hparse).trans ih

theorem Reaches.cut {file : Text} {bs : List Block} {f : List Text}
    (h : Reaches file bs f) : Cut '\n' f := by
  obtain ⟨pre, hpre⟩ := h.suffix
  have hcut : Cut '\n' (fileLines file) := keepLines_cut '\n' file
  rw [← hpre] at hcut
  exact hcut.of_append

/-- The other blocks are those of the lines that are left. -/
theorem Reaches.readBlocks {file : Text} {bs : List Block} {f : List Text}
    (h : Reaches file bs f) : ∃ fuel, f.length < fuel ∧
      readBlocks file = (bs ++ (blocksOf fuel f).1, (blocksOf fuel f).2) := by
  induction h with
  | start => exact ⟨_, Nat.lt_succ_self _, readBlocks_eq file⟩
  | @next bs f g block _ hparse hend ih =>
    obtain ⟨fuel, hfuel, hread⟩ := ih
    obtain ⟨fuel, rfl⟩ : ∃ n, fuel = n + 1 := ⟨fuel - 1, by omega⟩
    have hshort := parseTranslation_length hparse hend
    have hstep : blocksOf (fuel + 1) f = (block :: (blocksOf fuel g).1, (blocksOf fuel g).2) := by
      rw [blocksOf, hparse]
      simp only
      rw [if_neg hend]
    refine ⟨fuel, by omega, ?_⟩
    rw [hread, hstep, List.append_assoc, List.singleton_append]

/-- A block in its place among the blocks of the file. -/
theorem Reaches.split {file : Text} {bs : List Block} {f g : List Text} {block : Block}
    (h : Reaches file bs f) (hparse : parseTranslation f = .ok (block, g))
    (hend : ¬ block.isEnd) : ∃ later, (Merge.readBlocks file).1 = bs ++ block :: later := by
  obtain ⟨fuel, _, hread⟩ := (h.next hparse hend).readBlocks
  refine ⟨(blocksOf fuel g).1, ?_⟩
  rw [hread, List.append_assoc, List.singleton_append]

/-! ## The text of a block -/

theorem unlines_splitOn (t : Text) : unlines (t.splitOn '\n') = t ++ ['\n'] := by
  have hne : t.splitOn '\n' ≠ [] := List.splitOn_ne_nil _ _
  rw [← join_newline hne, join]
  exact congrArg (· ++ ['\n']) (List.intercalate_splitOn '\n')

/-- What is written of a block is its lines, and a line feed more without comments. -/
theorem blockText_eq (block : Block) : blockText block =
    (if block.comments = [] then ['\n'] else []) ++ unlines (valueLines block) := by
  have hjoin : join block.comments ++ text "\n" =
      (if block.comments = [] then ['\n'] else []) ++ unlines block.comments := by
    by_cases hnil : block.comments = []
    · rw [if_pos hnil, hnil]
      rfl
    · rw [if_neg hnil, join_newline hnil, List.nil_append]
  rw [blockText, valueLines, hjoin, unlines_append, List.append_assoc]
  cases block.message with
  | none => rfl
  | some strings =>
    simp only
    rw [unlines_append, unlines_splitOn, unlines_splitOn]
    rfl

/-- Lines are the text of other lines only if they are these lines. -/
theorem flatten_eq_unlines_iff {ls ms : List Text} (hls : Cut '\n' ls)
    (hms : ∀ m ∈ ms, '\n' ∉ m) : ls.flatten = unlines ms ↔ ls = ms.map (· ++ ['\n']) := by
  constructor
  · intro h
    have hlines := fileLines_unlines hms []
    rw [List.append_nil, ← h] at hlines
    calc ls = fileLines ls.flatten := (hls.keepLines_flatten '\n').symm
      _ = ms.map (· ++ ['\n']) ++ fileLines [] := hlines
      _ = ms.map (· ++ ['\n']) := List.append_nil _
  · intro h
    rw [h]
    rfl

theorem map_dropLast_newline {ls : List Text} (hne : ∀ l ∈ ls, l ≠ []) :
    ls = (ls.map List.dropLast).map (· ++ ['\n']) ↔ ∀ l ∈ ls, l.getLast? = some '\n' := by
  rw [List.map_map]
  conv_lhs =>
    lhs
    rw [← List.map_id ls]
  rw [List.map_inj_left]
  apply forall₂_congr
  intro l hl
  rcases List.eq_nil_or_concat l with hnil | ⟨m, c, rfl⟩
  · exact absurd hnil (hne l hl)
  · simp

/-- A block is written as its own lines if and only if it has comments and all its lines
are closed. -/
theorem flatten_blockLines_iff {f g : List Text} {block written : Block} (hcut : Cut '\n' f)
    (hparse : parseTranslation f = .ok (block, g))
    (hms : ∀ m ∈ valueLines written, '\n' ∉ m) :
    blockText written = (blockLines f).flatten ↔
      written.comments ≠ [] ∧ valueLines written = valueLines block ∧
        ∀ l ∈ blockLines f, l.getLast? = some '\n' := by
  have hlines : Cut '\n' (blockLines f) := by
    rw [← List.takeWhile_append_dropWhile (p := fun line => strip line ≠ []) (l := f)] at hcut
    exact hcut.append_left
  have hblank : ∀ l ∈ blockLines f, strip l ≠ [] := by
    intro l hl
    simpa using List.mem_takeWhile_imp hl
  have hne : ∀ l ∈ blockLines f, l ≠ [] := by
    rintro l hl rfl
    exact hblank [] hl rfl
  have hvalues := valueLines_eq hcut.sep_not_mem hparse
  rw [blockText_eq]
  by_cases hnil : written.comments = []
  · rw [if_pos hnil]
    refine iff_of_false ?_ fun h => h.1 hnil
    intro heq
    have hmore : ∀ m ∈ [] :: valueLines written, '\n' ∉ m := by
      intro m hm
      rcases List.mem_cons.mp hm with rfl | hm
      · exact List.not_mem_nil
      · exact hms m hm
    have hfirst := (flatten_eq_unlines_iff hlines hmore).mp heq.symm
    have hmem : ['\n'] ∈ blockLines f := by
      rw [hfirst]
      exact List.mem_cons_self
    exact hblank ['\n'] hmem (by decide)
  · rw [if_neg hnil, List.nil_append, eq_comm, flatten_eq_unlines_iff hlines hms,
      and_iff_right hnil, ← map_dropLast_newline hne, ← hvalues]
    constructor
    · intro h
      have hsame : valueLines written = valueLines block := by
        rw [hvalues, h, List.map_map]
        conv_lhs => rw [← List.map_id (valueLines written)]
        exact List.map_congr_left fun m _ => (List.dropLast_concat).symm
      exact ⟨hsame, by rw [← hsame]; exact h⟩
    · intro h
      rw [h.1]
      exact h.2

/-! ## Flags behind the other comments -/

/-- No flag comment stands in front of another comment. -/
def FlagsLast (comments : List Text) : Prop := comments.Pairwise fun c d => isFlag c → isFlag d

instance (comments : List Text) : Decidable (FlagsLast comments) :=
  inferInstanceAs (Decidable (List.Pairwise _ comments))

theorem flagsLast_iff {comments : List Text} :
    (splitComments comments).2 ++ (splitComments comments).1 = comments ↔ FlagsLast comments := by
  rw [splitComments, List.partition_eq_filter_filter]
  simp only
  constructor
  · intro h
    rw [FlagsLast, ← h, List.pairwise_append]
    refine ⟨?_, ?_, ?_⟩
    · apply List.pairwise_of_forall_mem_list
      intro c hc d _ hflag
      have hother := (List.mem_filter.mp hc).2
      simp [hflag] at hother
    · apply List.pairwise_of_forall_mem_list
      intro c _ d hd _
      exact (List.mem_filter.mp hd).2
    · intro c _ d hd _
      exact (List.mem_filter.mp hd).2
  · intro h
    induction comments with
    | nil => rfl
    | cons c cs ih =>
      rw [FlagsLast, List.pairwise_cons] at h
      by_cases hc : isFlag c
      · have hall : ∀ d ∈ cs, isFlag d := fun d hd => h.1 d hd hc
        have hnone : cs.filter (not ∘ isFlag) = [] := by
          rw [List.filter_eq_nil_iff]
          intro d hd
          simp [hall d hd]
        rw [List.filter_cons_of_pos hc, List.filter_cons_of_neg (by simp [hc]), hnone,
          List.filter_eq_self.mpr hall, List.nil_append]
      · rw [List.filter_cons_of_neg hc, List.filter_cons_of_pos (by simp [hc]), List.cons_append,
          ih h.2]

/-! ## One turn of the main loop -/

/-- The turn of the main loop for `block`, which begins the lines `f`, writes them as
they are and counts nothing. -/
structure Untouched (source : Source) (bs : List Block) (f : List Text) (block : Block) :
    Prop where
  written : (stateAfter source (bs ++ [block])).outfile =
    (stateAfter source bs).outfile ++ (if bs = [] then [] else ['\n']) ++ (blockLines f).flatten
  uncounted : (stateAfter source (bs ++ [block])).updateCount = (stateAfter source bs).updateCount

theorem stateAfter_concat (source : Source) (bs : List Block) (block : Block) :
    stateAfter source (bs ++ [block]) = mergeBlock source (stateAfter source bs) block := by
  rw [stateAfter, List.foldl_append]
  rfl

theorem stateAfter_first (source : Source) (bs : List Block) :
    (stateAfter source bs).first = decide (bs = []) := by
  rcases List.eq_nil_or_concat bs with rfl | ⟨init, last, rfl⟩
  · rfl
  · rw [List.concat_eq_append, stateAfter_concat, (mergeBlock_outfile _ _ _).1]
    simp

theorem written_iff (source : Source) (bs : List Block) (f : List Text) (block : Block) :
    (stateAfter source (bs ++ [block])).outfile = (stateAfter source bs).outfile ++
        (if bs = [] then [] else ['\n']) ++ (blockLines f).flatten ↔
      blockText (updateBlock source block) = (blockLines f).flatten := by
  have hsep : (if (stateAfter source bs).first then (stateAfter source bs).outfile
      else (stateAfter source bs).outfile ++ text "\n") =
        (stateAfter source bs).outfile ++ (if bs = [] then [] else ['\n']) := by
    rw [stateAfter_first]
    by_cases hbs : bs = []
    · simp [hbs]
    · simp [hbs, text]
  rw [stateAfter_concat, (mergeBlock_outfile source _ block).2, hsep, List.append_cancel_left_eq]

/-- A message is counted if and only if comments or msgstr are replaced by others. -/
theorem updateMessage_count_iff (source : Source) (comments : List Text) (msgid msgstr : Text)
    (n : Nat) : (updateMessage source comments msgid msgstr n).2.2 = n ↔
      replaced source comments msgid msgstr = (comments, msgstr) := by
  unfold updateMessage replaced
  by_cases h : msgid ≠ emptyString ∧ (source.get msgid).1 ≠ emptyString
  · rw [if_pos h, if_pos h]
    simp only
    by_cases hdiff : (source.get msgid).1 ≠ msgstr ∨
        (splitComments comments).2 ++ (source.get msgid).2 ≠ comments
    · rw [if_pos hdiff]
      refine iff_of_false (by simp) ?_
      intro heq
      rw [Prod.mk.injEq] at heq
      rcases hdiff with hdiff | hdiff
      · exact hdiff heq.2
      · exact hdiff heq.1
    · rw [if_neg hdiff]
      rw [not_or, not_not, not_not] at hdiff
      exact iff_of_true rfl (by rw [hdiff.1, hdiff.2])
  · rw [if_neg h, if_neg h]
    exact iff_of_true rfl rfl

theorem mergeBlock_count (source : Source) (st : MergeState) (comments : List Text)
    (msgid msgstr : Text) : (mergeBlock source st ⟨comments, some (msgid, msgstr)⟩).updateCount =
      (updateMessage source comments msgid msgstr st.updateCount).2.2 := rfl

section Same

variable {source : Source} {comments : List Text} {msgid msgstr : Text}
variable (hsame : source msgid = some (msgstr, (splitComments comments).1))

include hsame

/-- What the merge makes of a message for which the source has the same. -/
theorem replaced_same : (replaced source comments msgid msgstr).2 = msgstr ∧
    (∀ c ∈ (replaced source comments msgid msgstr).1, c ∈ comments) ∧
    ((replaced source comments msgid msgstr).1 = comments ↔
      msgid = emptyString ∨ msgstr = emptyString ∨ FlagsLast comments) := by
  have hget : source.get msgid = (msgstr, (splitComments comments).1) := by
    rw [Source.get, hsame]
    rfl
  rw [replaced, hget]
  by_cases h : msgid ≠ emptyString ∧ msgstr ≠ emptyString
  · rw [if_pos h]
    refine ⟨rfl, ?_, ?_⟩
    · intro c hc
      exact mem_splitComments (List.mem_append.mp hc).symm
    · simp only
      rw [flagsLast_iff]
      simp [h.1, h.2]
  · rw [if_neg h]
    refine ⟨rfl, fun c hc => hc, iff_of_true rfl ?_⟩
    by_contra hno
    rw [not_or, not_or] at hno
    exact h ⟨hno.1, hno.2.1⟩

/-- The turn leaves such a block alone if and only if it has comments, all its lines are
closed, and nothing is to be replaced or the flags are its last comments. -/
theorem untouched_iff {bs : List Block} {f g : List Text} (hcut : Cut '\n' f)
    (hparse : parseTranslation f = .ok (⟨comments, some (msgid, msgstr)⟩, g)) :
    Untouched source bs f ⟨comments, some (msgid, msgstr)⟩ ↔
      comments ≠ [] ∧ (∀ line ∈ blockLines f, line.getLast? = some '\n') ∧
        (msgid = emptyString ∨ msgstr = emptyString ∨ FlagsLast comments) := by
  obtain ⟨hstr, hsub, hkeep⟩ := replaced_same hsame
  have hfree : ∀ m ∈ valueLines ⟨comments, some (msgid, msgstr)⟩, '\n' ∉ m := by
    rw [valueLines_eq hcut.sep_not_mem hparse]
    intro m hm
    obtain ⟨l, hl, rfl⟩ := List.mem_map.mp hm
    exact hcut.sep_not_mem l (List.takeWhile_subset _ hl)
  have hvalues : ∀ cs, valueLines ⟨cs, some (msgid, msgstr)⟩ =
      cs ++ valueLines ⟨[], some (msgid, msgstr)⟩ := fun _ => rfl
  have hms : ∀ m ∈ valueLines ⟨(replaced source comments msgid msgstr).1, some (msgid, msgstr)⟩,
      '\n' ∉ m := by
    intro m hm
    rw [hvalues] at hm hfree
    rcases List.mem_append.mp hm with hm | hm
    · exact hfree m (List.mem_append_left _ (hsub m hm))
    · exact hfree m (List.mem_append_right _ hm)
  have hwritten := flatten_blockLines_iff hcut hparse hms
  simp only at hwritten
  rw [hvalues, hvalues comments, List.append_left_inj] at hwritten
  have hcount : (stateAfter source (bs ++ [⟨comments, some (msgid, msgstr)⟩])).updateCount =
        (stateAfter source bs).updateCount ↔
      (replaced source comments msgid msgstr).1 = comments := by
    rw [stateAfter_concat, mergeBlock_count, updateMessage_count_iff]
    constructor
    · intro h
      rw [h]
    · intro h
      exact Prod.ext h hstr
  have hturn : Untouched source bs f ⟨comments, some (msgid, msgstr)⟩ ↔
      blockText ⟨(replaced source comments msgid msgstr).1, some (msgid, msgstr)⟩ =
          (blockLines f).flatten ∧ (replaced source comments msgid msgstr).1 = comments := by
    rw [← hcount]
    have hblock : updateBlock source ⟨comments, some (msgid, msgstr)⟩ =
        ⟨(replaced source comments msgid msgstr).1, some (msgid, msgstr)⟩ := by
      rw [updateBlock_some, hstr]
    rw [← hblock, ← written_iff source bs f]
    exact ⟨fun h => ⟨h.written, h.uncounted⟩, fun h => ⟨h.1, h.2⟩⟩
  rw [hturn, hwritten, ← hkeep]
  constructor
  · intro h
    obtain ⟨⟨hne, heq, hclosed⟩, _⟩ := h
    rw [heq] at hne
    exact ⟨hne, hclosed, heq⟩
  · intro h
    obtain ⟨hne, hclosed, heq⟩ := h
    rw [heq]
    exact ⟨⟨hne, rfl, hclosed⟩, rfl⟩

end Same

/-! ## The run -/

theorem updateMessage_count (source : Source) (comments : List Text) (msgid msgstr : Text)
    (n : Nat) : (updateMessage source comments msgid msgstr n).2.2 =
      n + (updateMessage source comments msgid msgstr 0).2.2 := by
  unfold updateMessage
  by_cases h : msgid ≠ emptyString ∧ (source.get msgid).1 ≠ emptyString
  · rw [if_pos h, if_pos h]
    simp only
    by_cases hdiff : (source.get msgid).1 ≠ msgstr ∨
        (splitComments comments).2 ++ (source.get msgid).2 ≠ comments
    · rw [if_pos hdiff, if_pos hdiff]
    · rw [if_neg hdiff, if_neg hdiff]
      rfl
  · rw [if_neg h, if_neg h]
    rfl

/-- The updates are counted block by block. -/
theorem foldl_updateCount (source : Source) : ∀ (bs : List Block) (st : MergeState),
    (bs.foldl (mergeBlock source) st).updateCount =
      st.updateCount + (stateAfter source bs).updateCount := by
  intro bs
  induction bs with
  | nil =>
    intro st
    rfl
  | cons block bs ih =>
    intro st
    have hturn : (mergeBlock source st block).updateCount =
        st.updateCount + (mergeBlock source startState block).updateCount := by
      obtain ⟨comments, message⟩ := block
      cases message with
      | none => rfl
      | some strings =>
        rw [mergeBlock_count, mergeBlock_count]
        exact updateMessage_count source comments strings.1 strings.2 st.updateCount
    have hstart : (stateAfter source (block :: bs)).updateCount =
        (mergeBlock source startState block).updateCount +
          (stateAfter source bs).updateCount := ih _
    rw [List.foldl_cons, ih, hturn, hstart, Nat.add_assoc]

/-- In a run that completes, a block for which the source has the msgstr and the flags
it has itself is written as it is and not counted if and only if it has comments, its
lines are closed, and it is the header, untranslated, or has its flags last. -/
theorem main_touches_iff {prog lang stdin infile : Text} {fs fs' : FileSystem}
    {report : Report} {bs : List Block} {f g : List Text} {comments : List Text}
    {msgid msgstr : Text} (hfile : fs lang = some infile)
    (h : main [prog, lang] stdin fs = (fs', .ok report)) (hreach : Reaches infile bs f)
    (hparse : parseTranslation f = .ok (⟨comments, some (msgid, msgstr)⟩, g))
    (hsame : sourceOf stdin msgid = some (msgstr, (splitComments comments).1)) :
    ∃ later, (readBlocks infile).1 = bs ++ ⟨comments, some (msgid, msgstr)⟩ :: later ∧
      fs' lang = some ((stateAfter (sourceOf stdin)
          (bs ++ [⟨comments, some (msgid, msgstr)⟩])).outfile ++
        tailText (later.map (updateBlock (sourceOf stdin)))) ∧
      report.updateCount = (stateAfter (sourceOf stdin)
          (bs ++ [⟨comments, some (msgid, msgstr)⟩])).updateCount +
        (stateAfter (sourceOf stdin) later).updateCount ∧
      (Untouched (sourceOf stdin) bs f ⟨comments, some (msgid, msgstr)⟩ ↔
        comments ≠ [] ∧ (∀ line ∈ blockLines f, line.getLast? = some '\n') ∧
          (msgid = emptyString ∨ msgstr = emptyString ∨ FlagsLast comments)) := by
  have hend : ¬ (Block.mk comments (some (msgid, msgstr))).isEnd :=
    fun hnone => Option.some_ne_none _ hnone.2
  obtain ⟨later, hlater⟩ := hreach.split hparse hend
  obtain ⟨_, _, hout⟩ := main_completes hfile h
  have hreport := main_report hfile h
  have hsplit : bs ++ ⟨comments, some (msgid, msgstr)⟩ :: later =
      bs ++ [⟨comments, some (msgid, msgstr)⟩] ++ later := by simp
  have hstate : stateAfter (sourceOf stdin) (readBlocks infile).1 =
      later.foldl (mergeBlock (sourceOf stdin))
        (stateAfter (sourceOf stdin) (bs ++ [⟨comments, some (msgid, msgstr)⟩])) := by
    rw [hlater, hsplit, stateAfter, List.foldl_append]
    rfl
  have hfirst : (stateAfter (sourceOf stdin)
      (bs ++ [⟨comments, some (msgid, msgstr)⟩])).first = false := by
    rw [stateAfter_first]
    simp
  refine ⟨later, hlater, ?_, ?_, untouched_iff hsame hreach.cut hparse⟩
  · rw [hout, ← foldl_mergeBlock_start, ← foldl_mergeBlock _ _ _ hfirst, ← hstate]
    rfl
  · rw [hreport, hstate, foldl_updateCount]

/-- One entry, its flag in front of or behind the old msgid. -/
def withFlag (first second : String) : Text :=
  text first ++ text second ++ text "msgid \"a\"\nmsgstr \"x\"\n"

def oldMsgid : String := "#| msgid \"b\"\n"

def fuzzy : String := "#, fuzzy\n"

theorem main_touches_iff_withFlag :
    main [text "po-merge.py", text "lang.po"] (withFlag oldMsgid fuzzy)
          (inFile (withFlag oldMsgid fuzzy)) =
        ((main [text "po-merge.py", text "lang.po"] (withFlag oldMsgid fuzzy)
          (inFile (withFlag oldMsgid fuzzy))).1, .ok ⟨0, 0, 1⟩) ∧
      Untouched (sourceOf (withFlag oldMsgid fuzzy)) [] (fileLines (withFlag oldMsgid fuzzy))
        ⟨[text "#| msgid \"b\"", text "#, fuzzy"], some (text "\"a\"", text "\"x\"")⟩ := by
  have hrun : main [text "po-merge.py", text "lang.po"] (withFlag oldMsgid fuzzy)
      (inFile (withFlag oldMsgid fuzzy)) =
        ((main [text "po-merge.py", text "lang.po"] (withFlag oldMsgid fuzzy)
          (inFile (withFlag oldMsgid fuzzy))).1, .ok ⟨0, 0, 1⟩) := rfl
  have hparse : parseTranslation (fileLines (withFlag oldMsgid fuzzy)) =
      .ok (⟨[text "#| msgid \"b\"", text "#, fuzzy"], some (text "\"a\"", text "\"x\"")⟩, []) :=
    rfl
  have hfile : inFile (withFlag oldMsgid fuzzy) (text "lang.po") =
      some (withFlag oldMsgid fuzzy) := rfl
  have hsame : sourceOf (withFlag oldMsgid fuzzy) (text "\"a\"") = some (text "\"x\"",
      (splitComments [text "#| msgid \"b\"", text "#, fuzzy"]).1) := rfl
  obtain ⟨_, _, _, _, hiff⟩ := main_touches_iff hfile hrun Reaches.start hparse hsame
  exact ⟨hrun, hiff.mpr (by decide)⟩

/-- With the flag in front the comments change places, and the block is counted. -/
theorem main_moves_flag : ∃ fs', main [text "po-merge.py", text "lang.po"]
      (withFlag fuzzy oldMsgid) (inFile (withFlag fuzzy oldMsgid)) = (fs', .ok ⟨1, 0, 1⟩) ∧
    fs' (text "lang.po") = some (withFlag oldMsgid fuzzy) ∧
    parseTranslation (fileLines (withFlag fuzzy oldMsgid)) =
      .ok (⟨[text "#, fuzzy", text "#| msgid \"b\""],
        some (text "\"a\"", text "\"x\"")⟩, []) ∧
    sourceOf (withFlag fuzzy oldMsgid) (text "\"a\"") =
      some (text "\"x\"", (splitComments [text "#, fuzzy", text "#| msgid \"b\""]).1) ∧
    ¬ Untouched (sourceOf (withFlag fuzzy oldMsgid)) [] (fileLines (withFlag fuzzy oldMsgid))
      ⟨[text "#, fuzzy", text "#| msgid \"b\""], some (text "\"a\"", text "\"x\"")⟩ := by
  refine ⟨_, rfl, rfl, rfl, rfl, ?_⟩
  intro h
  have hcount := h.uncounted
  revert hcount
  decide

end Merge
end Po
end I18nZh
