import I18nZh.Po.Sequence
import I18nZh.Xml2po.RunCorrect

/-!
# A POT that is merged twice

`po-merge.py` over a file that `xml2po.py` wrote.  The header of the file has no comments,
so what the first run writes begins with a blank line.
-/

namespace I18nZh
namespace Xml2po

open Po Po.Merge

section Twice

variable {sys : System} {args : Arguments}

theorem updateBlock_header (source : Source) (date : Text) :
    updateBlock source (MessageOutput.headerBlock date) = MessageOutput.headerBlock date := by
  rw [MessageOutput.headerBlock, updateBlock_some, replaced, if_neg fun h => h.1 rfl]

/-- A file that begins with a blank line has no block. -/
theorem readBlocks_newline (t : Text) : readBlocks ('\n' :: t) = ([], none) := by
  rw [readBlocks_eq, fileLines_newline]
  exact blocksOf_blank (by decide) _ _

theorem readBlocks_header (source : Source) (date : Text) (blocks : List Block) :
    readBlocks (outText ((MessageOutput.headerBlock date :: blocks).map (updateBlock source))) =
      ([], none) := by
  have hblank : ∃ r, blockText (MessageOutput.headerBlock date) ++
      tailText (blocks.map (updateBlock source)) = '\n' :: r := blockText_no_comments rfl _
  obtain ⟨r, hr⟩ := hblank
  rw [List.map_cons, updateBlock_header]
  show readBlocks (blockText _ ++ tailText _) = _
  rw [hr, readBlocks_newline]

/-- A run over a file that has no block empties it. -/
theorem main_no_block {lang stdin infile : Text} {fs : FileSystem} (prog : Text)
    (hfile : fs lang = some infile) (hsource : (readBlocks stdin).2 = none)
    (hnone : readBlocks infile = ([], none)) :
    ∃ fs', Merge.main [prog, lang] stdin fs = (fs', .error .zeroDivisionError) ∧
      fs' lang = some [] ∧ fs' (lang ++ text ".bak") = some infile := by
  have hrun := main_of_file hsource hfile prog
  rw [hnone] at hrun
  have hbak : lang ++ text ".bak" ≠ lang := by simp [text]
  refine ⟨_, hrun, Function.update_self _ _ _, ?_⟩
  rw [Function.update_of_ne hbak, Function.update_self]

/-- Translations can be merged into a POT once: the first run completes, and the second
one finds no message, ends with an exception and leaves an empty file. -/
theorem main_merged_once (hproper : sys.Proper args) (horig : args.origxml = []) {out : Text}
    (h : main sys args = .ok out) {lang stdin stdin' : Text} {fs : FileSystem} (prog : Text)
    (hfile : fs lang = some out) (hsource : (readBlocks stdin).2 = none)
    (hsource' : (readBlocks stdin').2 = none) :
    ∃ fs₁ report fs₂, Merge.main [prog, lang] stdin fs = (fs₁, .ok report) ∧
      fs₁ lang = some (merged stdin out) ∧
      Merge.main [prog, lang] stdin' fs₁ = (fs₂, .error .zeroDivisionError) ∧
      fs₂ lang = some [] ∧ fs₂ (lang ++ text ".bak") = some (merged stdin out) := by
  obtain ⟨msg, hmsg, rfl⟩ := main_catalogue hproper.empty horig h
  have hblocks := readBlocks_said hproper hmsg
  have hmessages : Merge.messages (readBlocks (msg.outputAll sys.date)).1 ≠ [] := by
    rw [hblocks]
    exact List.cons_ne_nil _ _
  obtain ⟨fs₁, report, hfirst, hfile₁, _⟩ :=
    main_ok prog hfile hsource (by rw [hblocks]) hmessages
  have hnone : readBlocks (merged stdin (msg.outputAll sys.date)) = ([], none) := by
    rw [merged, hblocks]
    exact readBlocks_header _ _ _
  obtain ⟨fs₂, hsecond, hempty, hbackup⟩ := main_no_block prog hfile₁ hsource' hnone
  exact ⟨fs₁, report, fs₂, hfirst, hfile₁, hsecond, hempty, hbackup⟩

end Twice

/-! ## The POT of the book -/

theorem main_merged_once_shelf : ∃ out fs₁ report fs₂, main shelf bookArguments = .ok out ∧
    Merge.main [text "po-merge.py", text "de.po"] translations
      (Function.update (fun _ => none) (text "de.po") (some out)) = (fs₁, .ok report) ∧
    fs₁ (text "de.po") = some (merged translations out) ∧
    Merge.main [text "po-merge.py", text "de.po"] translations fs₁ =
      (fs₂, .error .zeroDivisionError) ∧
    fs₂ (text "de.po") = some [] ∧
    fs₂ (text "de.po" ++ text ".bak") = some (merged translations out) := by
  obtain ⟨out, hrun⟩ := shelf_runs
  have hsource : (readBlocks translations).2 = none := by decide
  obtain ⟨fs₁, report, fs₂, hrest⟩ := main_merged_once proper_shelf rfl hrun (text "po-merge.py")
    (Function.update_self (text "de.po") (some out) fun _ => none) hsource hsource
  exact ⟨out, fs₁, report, fs₂, hrun, hrest⟩

end Xml2po
end I18nZh
