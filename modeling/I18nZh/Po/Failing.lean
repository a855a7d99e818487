import Mathlib.Logic.Relation
import I18nZh.Po.BlankLines

/-!
# Runs that do not complete

The backup of `lang.po` is taken before the file is parsed, and every run replaces
it.  What the sequence of runs leaves of the first text depends on what stopped them.
-/

namespace I18nZh
namespace Po
namespace Merge

open Lines

/-! ## What was written can be parsed -/

/-- No exception comes out of the lines. -/
def Parses (f : List Text) : Prop := ∀ fuel, f.length < fuel → (blocksOf fuel f).2 = none

theorem parses_nil : Parses [] := by
  intro fuel h
  obtain ⟨fuel, rfl⟩ : ∃ n, fuel = n + 1 := ⟨fuel - 1, by omega⟩
  rw [blocksOf_nil]

theorem parses_blank {line : Text} (h : strip line = []) (f : List Text) :
    Parses (line :: f) := by
  intro fuel hfuel
  obtain ⟨fuel, rfl⟩ : ∃ n, fuel = n + 1 := ⟨fuel - 1, by omega⟩
  rw [blocksOf_blank h]

/-- One block, and then the rest. -/
theorem Parses.of_parse {f g : List Text} {block : Block}
    (h : parseTranslation f = .ok (block, g)) (hrest : Parses g) : Parses f := by
  intro fuel hfuel
  obtain ⟨fuel, rfl⟩ : ∃ n, fuel = n + 1 := ⟨fuel - 1, by omega⟩
  rw [blocksOf, h]
  simp only
  by_cases hend : block.isEnd
  · rw [if_pos hend]
  · have hshort := parseTranslation_length h hend
    rw [if_neg hend]
    exact hrest fuel (by omega)

theorem parses_newline (t : Text) : Parses (fileLines ('\n' :: t)) := by
  rw [fileLines_newline]
  exact parses_blank (by decide) _

theorem parses_tailText (bs : List Block) : Parses (fileLines (tailText bs)) := by
  cases bs with
  | nil => exact parses_nil
  | cons block bs => exact parses_newline _

/-- Lines of comments, empty ones among them, in front of what can be parsed. -/
theorem parses_comments {f f' : List Text} {line : Text} (hblank : strip line = [])
    (hstop : ∀ cs, parseComments f cs = (cs, line, f')) (hrest : Parses f') :
    ∀ (cs read : List Text), (∀ c ∈ cs, IsComment c ∨ c = []) → (∀ c ∈ read, IsComment c) →
      Parses ((read ++ cs).map (· ++ ['\n']) ++ f) := by
  intro cs
  induction cs with
  | nil =>
    intro read _ hread
    have hparse : parseTranslation ((read ++ []).map (· ++ ['\n']) ++ f) =
        .ok (⟨read, none⟩, f') := by
      rw [List.append_nil, parseTranslation, parseComments_lines _ hread, hstop]
      simp only
      rw [if_pos hblank]
      rfl
    exact hrest.of_parse hparse
  | cons c cs ih =>
    intro read hcs hread
    have htail : ∀ d ∈ cs, IsComment d ∨ d = [] := fun d hd => hcs d (List.mem_cons_of_mem c hd)
    rcases hcs c List.mem_cons_self with hc | rfl
    · have hnext := ih (read ++ [c]) htail (by
        intro d hd
        rcases List.mem_append.mp hd with hd | hd
        · exact hread d hd
        · rw [List.mem_singleton.mp hd]
          exact hc)
      rw [List.append_assoc] at hnext
      exact hnext
    · -- an empty comment is a blank line
      have hempty : strip ([] ++ ['\n']) = [] := by decide
      have hparse : parseTranslation ((read ++ [] :: cs).map (· ++ ['\n']) ++ f) =
          .ok (⟨read, none⟩, cs.map (· ++ ['\n']) ++ f) := by
        rw [List.map_append, List.append_assoc, List.map_cons, List.cons_append, parseTranslation,
          parseComments_lines _ hread, parseComments, if_pos hempty]
        simp only
        rw [if_pos hempty]
        rfl
      have hnext := ih [] htail (by simp)
      exact Parses.of_parse hparse hnext

/-- An entry in front of what can be parsed. -/
theorem parses_entry (entry : Entry) {t rest : Text} (ht : Follows t rest)
    (hrest : Parses (fileLines rest)) : Parses (fileLines (unlines entry.lines ++ t)) := by
  obtain ⟨line, hblank, hcomments, hmsgstr⟩ := ht.blank
  have hparse : parseTranslation (fileLines (unlines entry.lines ++ t)) =
      .ok (entry.block, fileLines rest) := by
    rw [fileLines_unlines entry.newline_not_mem,
      entry.parseTranslation_lines hblank hcomments hmsgstr]
  exact hrest.of_parse hparse

/-- A block, written, in front of what can be parsed. -/
theorem parses_blockText {block : Block} (hp : Parsed block) {t rest : Text}
    (ht : Follows t rest) (htext : Parses (fileLines t)) (hrest : Parses (fileLines rest)) :
    Parses (fileLines (blockText block ++ t)) := by
  by_cases hnil : block.comments = []
  · obtain ⟨r, hr⟩ := blockText_no_comments hnil t
    rw [hr]
    exact parses_newline r
  · have hcomment := hp.isComment
    obtain ⟨comments, message⟩ := block
    cases message with
    | none =>
      have hcs : ∀ c ∈ comments, IsComment c ∨ c = [] := by
        intro c hc
        rcases hp.comments c hc with h | ⟨h, _⟩
        · exact Or.inl h
        · exact Or.inr h
      have hline : ∀ c ∈ comments, '\n' ∉ c := by
        intro c hc
        rcases hcs c hc with h | rfl
        · exact h.2
        · exact List.not_mem_nil
      have hsplit : blockText ⟨comments, none⟩ ++ t = unlines comments ++ t := by
        rw [blockText, join_newline hnil, List.append_nil]
      obtain ⟨line, hblank, hstop, _⟩ := ht.blank
      rw [hsplit, fileLines_unlines hline]
      exact parses_comments hblank hstop hrest comments [] hcs (by simp)
    | some strings =>
      obtain ⟨msgid, msgstr⟩ := strings
      obtain ⟨⟨id, rfl⟩, str, hstr⟩ := hp.message msgid msgstr rfl
      have hentry {u v : Text} (hu : Follows u v) (hv : Parses (fileLines v)) :
          Parses (fileLines (unlines (comments ++ literalLines id str) ++ u)) :=
        parses_entry ⟨comments, some (id, str), hcomment (Option.some_ne_none _), Or.inl hnil⟩ hu hv
      rcases hstr with rfl | rfl
      · rw [blockText_literals hnil]
        exact hentry ht hrest
      · -- the line feed at the end of the msgstr makes the blank line
        have hsplit : blockText ⟨comments, some (id.text, str.text ++ ['\n'])⟩ ++ t =
            unlines (comments ++ literalLines id str) ++ '\n' :: t := by
          rw [← blockText_literals hnil]
          simp [blockText, text]
        rw [hsplit]
        exact hentry (Or.inr rfl) htext

theorem parses_outText : ∀ (bs : List Block), (∀ block ∈ bs, Parsed block) →
    Parses (fileLines (outText bs)) := by
  intro bs
  induction bs with
  | nil =>
    intro _
    exact parses_nil
  | cons block bs ih =>
    intro hp
    exact parses_blockText (hp block List.mem_cons_self) (follows_tailText bs)
      (parses_tailText bs) (ih fun b hb => hp b (List.mem_cons_of_mem block hb))

/-- Whatever a run wrote, a parse error is not in it. -/
theorem readBlocks_written (stdin infile : Text) : (readBlocks
    (outText ((readBlocks infile).1.map (updateBlock (sourceOf stdin))))).2 = none := by
  rw [readBlocks_eq]
  apply parses_outText
  · intro block hblock
    obtain ⟨b, hb, rfl⟩ := List.mem_map.mp hblock
    obtain ⟨hparsed, hend⟩ := readBlocks_parsed infile b hb
    exact (updateBlock_parsed (sourceOf_sound stdin) hparsed hend).1
  · exact Nat.lt_succ_self _

/-! ## One run -/

def backup (lang : Text) : Text := lang ++ text ".bak"

theorem backup_ne (lang : Text) : backup lang ≠ lang := by
  intro h
  have hlen := congrArg List.length h
  rw [backup, List.length_append] at hlen
  have hbak : (text ".bak").length = 4 := rfl
  omega

/-- What a run does to the files: nothing, when the source does not parse or there is
no file, and else the text goes to the backup. -/
theorem main_files (prog lang stdin : Text) (fs : FileSystem) :
    ((readBlocks stdin).2 ≠ none ∨ fs lang = none) ∧ (main [prog, lang] stdin fs).1 = fs ∨
    (readBlocks stdin).2 = none ∧ ∃ infile, fs lang = some infile ∧
      (main [prog, lang] stdin fs).1 (backup lang) = some infile ∧
      (main [prog, lang] stdin fs).1 lang =
        some (outText ((readBlocks infile).1.map (updateBlock (sourceOf stdin)))) := by
  cases hs : (readBlocks stdin).2 with
  | some e =>
    rw [main_of_source_error hs]
    exact Or.inl ⟨Or.inl (Option.some_ne_none e), rfl⟩
  | none =>
    cases hfile : fs lang with
    | none =>
      rw [main_of_no_file hs hfile]
      exact Or.inl ⟨Or.inr rfl, rfl⟩
    | some infile =>
      rw [main_of_file hs hfile]
      refine Or.inr ⟨rfl, infile, rfl, ?_, Function.update_self _ _ _⟩
      simp only
      rw [Function.update_of_ne (backup_ne lang)]
      exact Function.update_self _ _ _

/-! ## Sequences of runs -/

/-- A run over `lang` that does not complete. -/
def Fails (lang stdin : Text) (fs fs' : FileSystem) : Prop :=
  ∃ prog e, main [prog, lang] stdin fs = (fs', .error e)

/-- The text `first` is one of the two files. -/
def Kept (lang first : Text) (fs : FileSystem) : Prop :=
  fs lang = some first ∨ fs (backup lang) = some first

/-- The run stops at a parse error, in the source or in the file, or the file still has
the text. -/
def Guarded (lang first stdin : Text) (fs : FileSystem) : Prop :=
  fs lang = some first ∨ (readBlocks stdin).2 ≠ none ∨
    ∃ infile, fs lang = some infile ∧ (readBlocks infile).2 ≠ none

def GuardedFails (lang first : Text) (fs fs' : FileSystem) : Prop :=
  ∃ stdin, Fails lang stdin fs fs' ∧ Guarded lang first stdin fs

/-- What a run makes of a text. -/
def merged (stdin infile : Text) : Text :=
  outText ((readBlocks infile).1.map (updateBlock (sourceOf stdin)))

/-- The file is as it was, or it was written by a run over the first text, which is the
backup. -/
def Recoverable (lang first : Text) (fs : FileSystem) : Prop :=
  fs lang = some first ∨
    (fs (backup lang) = some first ∧ ∃ stdin, fs lang = some (merged stdin first))

theorem Recoverable.kept {lang first : Text} {fs : FileSystem} (h : Recoverable lang first fs) :
    Kept lang first fs := by
  rcases h with h | ⟨h, _⟩
  · exact Or.inl h
  · exact Or.inr h

/-- A guarded run that gets to the file finds the first text in it. -/
theorem Guarded.first {lang first stdin infile : Text} {fs : FileSystem}
    (h : Guarded lang first stdin fs) (hr : Recoverable lang first fs)
    (hsource : (readBlocks stdin).2 = none) (hfile : fs lang = some infile) :
    infile = first := by
  have hold : fs lang = some first := by
    rcases h with h | h | ⟨t, ht, hbad⟩
    · exact h
    · exact absurd hsource h
    · rcases hr with hr | ⟨_, old, hwritten⟩
      · exact hr
      · rw [ht, Option.some.injEq] at hwritten
        rw [hwritten] at hbad
        exact absurd (readBlocks_written old first) hbad
  rw [hfile, Option.some.injEq] at hold
  exact hold

theorem Recoverable.step {lang first : Text} {fs fs' : FileSystem}
    (h : Recoverable lang first fs) (hstep : GuardedFails lang first fs fs') :
    Recoverable lang first fs' := by
  obtain ⟨stdin, ⟨prog, e, hrun⟩, hguard⟩ := hstep
  have hfs : (main [prog, lang] stdin fs).1 = fs' := by rw [hrun]
  rcases main_files prog lang stdin fs with ⟨_, hsame⟩ | ⟨hsource, infile, hfile, hbak, hout⟩
  · rw [← hfs, hsame]
    exact h
  · rw [hfs] at hbak hout
    rw [hguard.first h hsource hfile] at hbak hout
    exact Or.inr ⟨hbak, stdin, hout⟩

/-- In a sequence of runs none of which completes, the first text is not lost as long as
each of them stops at a parse error or finds the file as it was. -/
theorem failing_keeps_text {lang first : Text} {fs fs' : FileSystem}
    (hfirst : fs lang = some first)
    (h : Relation.ReflTransGen (GuardedFails lang first) fs fs') : Kept lang first fs' := by
  have hall : Recoverable lang first fs' := by
    induction h with
    | refl => exact Or.inl hfirst
    | tail _ hstep ih => exact ih.step hstep
  exact hall.kept

/-! ## The other runs -/

/-- A run that fails though nothing is wrong with both texts has found no string. -/
theorem messages_of_fails {lang stdin infile : Text} {fs fs' : FileSystem}
    (h : Fails lang stdin fs fs') (hsource : (readBlocks stdin).2 = none)
    (hfile : fs lang = some infile) (hin : (readBlocks infile).2 = none) :
    messages (readBlocks infile).1 = [] := by
  obtain ⟨prog, e, h⟩ := h
  rw [main_of_file hsource hfile, hin] at h
  have hend := congrArg Prod.snd h
  simp only at hend
  by_contra hne
  have hpos := List.length_pos_iff.mpr hne
  rw [if_neg] at hend
  · cases hend
  · rw [stateAfter, foldl_stringCount]
    omega

/-- What is behind a block in closed lines is closed. -/
theorem parseTranslation_rest {f g : List Text} {block : Block} (hf : Closed '\n' f)
    (h : parseTranslation f = .ok (block, g)) : Closed '\n' g := by
  obtain ⟨pre, rfl⟩ := parseTranslation_suffix h
  exact hf.of_append.2

/-- A block of comments in closed lines is plain. -/
theorem blocksOf_plain : ∀ (fuel : Nat) {f : List Text}, Closed '\n' f →
    ∀ block ∈ (blocksOf fuel f).1, block.message = none → Plain block := by
  intro fuel
  induction fuel with
  | zero =>
    intro f _ block hblock
    cases hblock
  | succ fuel ih =>
    intro f hf block hblock hnone
    rw [blocksOf] at hblock
    cases hparse : parseTranslation f with
    | error e =>
      rw [hparse] at hblock
      cases hblock
    | ok r =>
      obtain ⟨b, g⟩ := r
      rw [hparse] at hblock
      simp only at hblock
      by_cases hend : b.isEnd
      · rw [if_pos hend] at hblock
        cases hblock
      · rw [if_neg hend] at hblock
        rcases List.mem_cons.mp hblock with rfl | hblock
        · obtain ⟨hcomments, hmessage⟩ := parseTranslation_closed hf hparse
          exact ⟨fun hnil => hend ⟨hnil, hnone⟩, hcomments, hmessage⟩
        · exact ih (parseTranslation_rest hf hparse) block hblock hnone

/-- Blocks without a message are merged as they are. -/
theorem map_updateBlock_none {bs : List Block} (h : messages bs = []) (source : Source) :
    bs.map (updateBlock source) = bs := by
  induction bs with
  | nil => rfl
  | cons block bs ih =>
    obtain ⟨comments, message⟩ := block
    cases message with
    | some strings => cases h
    | none => rw [List.map_cons, updateBlock_none, ih h]

/-- Comments that a run wrote are written again as they are. -/
theorem readBlocks_comments {old first : Text}
    (h : messages (readBlocks (merged old first)).1 = []) :
    readBlocks (outText (readBlocks (merged old first)).1) = readBlocks (merged old first) := by
  have hplain : ∀ block ∈ (readBlocks (merged old first)).1, Plain block := by
    intro block hblock
    have hnone : block.message = none := by
      have hnot := List.filter_eq_nil_iff.mp h block hblock
      simpa using hnot
    have hmem := hblock
    rw [readBlocks_eq] at hmem
    exact blocksOf_plain _ (outText_closed _) block hmem hnone
  have hread := (blocksOf_outText (readBlocks (merged old first)).1
    ((fileLines (outText (readBlocks (merged old first)).1)).length + 1)
    (readBlocks_parsed _) (Nat.lt_succ_self _)).mpr hplain
  have herror : (readBlocks (merged old first)).2 = none := readBlocks_written old first
  rw [readBlocks_eq, hread, ← herror]

/-- When two runs give the first text back and there was no string, the first of them
already had given it back. -/
theorem merged_first {old stdin first : Text}
    (h : messages (readBlocks (merged old first)).1 = [])
    (hback : merged stdin (merged old first) = first) : merged old first = first := by
  have hcomments : first = outText (readBlocks (merged old first)).1 := by
    rw [← map_updateBlock_none h (sourceOf stdin)]
    exact hback.symm
  have hblocks : readBlocks first = readBlocks (merged old first) := by
    conv_lhs => rw [hcomments]
    exact readBlocks_comments h
  calc merged old first = outText ((readBlocks first).1.map (updateBlock (sourceOf old))) := rfl
    _ = outText (readBlocks (merged old first)).1 := by
      rw [hblocks, map_updateBlock_none h]
    _ = first := hcomments.symm

/-- A run that is not guarded loses the first text. -/
theorem unguarded_loses_text {lang first stdin : Text} {fs fs' : FileSystem}
    (h : Recoverable lang first fs) (hrun : Fails lang stdin fs fs')
    (hno : ¬ Guarded lang first stdin fs) : ¬ Kept lang first fs' := by
  unfold Guarded at hno
  rw [not_or, not_or] at hno
  obtain ⟨hchanged, hsource, hparses⟩ := hno
  have hsource := not_not.mp hsource
  rcases h with h | ⟨_, old, hfile⟩
  · exact absurd h hchanged
  have hin := readBlocks_written old first
  have hmessages := messages_of_fails hrun hsource hfile hin
  obtain ⟨prog, e, hmain⟩ := hrun
  have hfs : (main [prog, lang] stdin fs).1 = fs' := by rw [hmain]
  have hne : merged old first ≠ first := by
    intro heq
    rw [heq] at hfile
    exact hchanged hfile
  rcases main_files prog lang stdin fs with ⟨hbad | hbad, _⟩ | ⟨_, infile, hfile', hbak, hout⟩
  · exact absurd hsource hbad
  · rw [hfile] at hbad
    cases hbad
  · rw [hfile, Option.some.injEq] at hfile'
    subst hfile'
    rw [hfs] at hbak hout
    intro hkept
    rcases hkept with hkept | hkept
    · -- comments only: the same text would have been written before
      rw [hout, Option.some.injEq] at hkept
      exact hne (merged_first hmessages hkept)
    · rw [hbak, Option.some.injEq] at hkept
      exact hne hkept

/-- While the first text can be recovered, a failing run keeps it if and only if the run
is guarded. -/
theorem Recoverable.kept_iff_guarded {lang first stdin : Text} {fs fs' : FileSystem}
    (h : Recoverable lang first fs) (hrun : Fails lang stdin fs fs') :
    Kept lang first fs' ↔ Guarded lang first stdin fs := by
  constructor
  · intro hkept
    by_contra hno
    exact unguarded_loses_text h hrun hno hkept
  · intro hguard
    exact (h.step ⟨stdin, hrun, hguard⟩).kept

/-! ## A file that does not parse -/

/-- A file that does not parse: a block with msgctxt. -/
def withContext : Text := text "msgctxt \"m\"\nmsgid \"a\"\nmsgstr \"b\"\n"

theorem failing_keeps_text_once : ∃ fs', Relation.ReflTransGen
      (GuardedFails (text "lang.po") withContext) (inFile withContext) fs' ∧
    fs' (text "lang.po") ≠ some withContext ∧ Kept (text "lang.po") withContext fs' := by
  have hrun : main [text "po-merge.py", text "lang.po"] [] (inFile withContext) =
      ((main [text "po-merge.py", text "lang.po"] [] (inFile withContext)).1,
        .error .parseError) := rfl
  have hstep : GuardedFails (text "lang.po") withContext (inFile withContext)
      (main [text "po-merge.py", text "lang.po"] [] (inFile withContext)).1 :=
    ⟨[], ⟨_, _, hrun⟩, Or.inl rfl⟩
  have hreach := Relation.ReflTransGen.single hstep
  refine ⟨_, hreach, ?_, failing_keeps_text rfl hreach⟩
  have hempty : (main [text "po-merge.py", text "lang.po"] [] (inFile withContext)).1
      (text "lang.po") = some [] := rfl
  rw [hempty]
  decide

/-- The second run finds the empty file the first one left, and saves that. -/
theorem failing_loses_text : ∃ fs' fs'',
    main [text "po-merge.py", text "lang.po"] [] (inFile withContext) =
        (fs', .error .parseError) ∧
      main [text "po-merge.py", text "lang.po"] [] fs' = (fs'', .error .zeroDivisionError) ∧
      ¬ Kept (text "lang.po") withContext fs'' := by
  refine ⟨_, _, rfl, rfl, ?_⟩
  intro h
  rcases h with h | h
  · revert h
    decide
  · revert h
    decide

end Merge
end Po
end I18nZh
