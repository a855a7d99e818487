import I18nZh.Po.BlankLines

/-!
# The merge of files in canonical form

What the script is for, in terms of the entries of the two files: an entry that the
source translates keeps its msgid and its other comments and gets the translation and
the flags, and every other entry stays as it is.
-/

namespace I18nZh
namespace Po
namespace Merge

open Lines

/-! ## Canonical files -/

/-- The text of some entries, with one empty line between two of them. -/
def fileText (entries : List Entry) : Text :=
  List.intercalate ['\n'] (entries.map fun entry => unlines entry.lines)

/-- A flag comment, `#, fuzzy` for example. -/
def IsFlagComment (c : Text) : Prop := text "#," <+: c

instance (c : Text) : Decidable (IsFlagComment c) := inferInstanceAs (Decidable (_ <+: _))

namespace Entry

variable (entry : Entry)

def flags : List Text := entry.comments.filter fun c => IsFlagComment c

def others : List Text := entry.comments.filter fun c => ¬ IsFlagComment c

/-- The entry begins with a comment that is no flag. -/
def IsCanonical : Prop := ∃ c ∈ entry.comments.head?, ¬ IsFlagComment c

/-- The entry with another msgstr, and the flags of the entry that has it. -/
def updated (id : Literal) (occurrence : Entry) (str : Literal) : Entry where
  comments := entry.others ++ occurrence.flags
  strings := some (id, str)
  isComment := by
    intro c hc
    rcases List.mem_append.mp hc with hc | hc
    · exact entry.isComment c (List.mem_filter.mp hc).1
    · exact occurrence.isComment c (List.mem_filter.mp hc).1
  not_empty := Or.inr (Option.some_ne_none _)

end Entry

/-- The entries of the source with this msgid, each with its msgstr. -/
def occurrences (source : List Entry) (msgid : Text) : List (Entry × Literal) :=
  source.filterMap fun entry =>
    match entry.strings with
    | some (id, str) => if id.text = msgid then some (entry, str) else none
    | none => none

/-- An entry after the merge. -/
def mergedEntry (source : List Entry) (entry : Entry) : Entry :=
  match entry.strings with
  | none => entry
  | some (id, _) =>
    match (occurrences source id.text).getLast? with
    | none => entry
    | some (occurrence, str) =>
      if id.text ≠ emptyString ∧ str.text ≠ emptyString then entry.updated id occurrence str
      else entry

/-! ## Reading -/

/-- The entries of a canonical file with the lines behind them. -/
def withGaps : List Entry → List (Entry × List Text)
  | [] => []
  | entry :: entries => (entry, if entries = [] then [] else [['\n']]) :: withGaps entries

theorem blocks_withGaps (entries : List Entry) :
    blocks (beforeGap (withGaps entries)) = entries.map Entry.block := by
  induction entries with
  | nil => rfl
  | cons entry entries ih =>
    have hgap : (if entries = [] then [] else [['\n']] : List Text).length ≤ 1 := by
      by_cases h : entries = []
      · rw [if_pos h]
        exact Nat.zero_le 1
      · rw [if_neg h]
        exact Nat.le_refl 1
    rw [withGaps, beforeGap, if_pos hgap, List.map_cons, ← ih]
    rfl

theorem fileText_cons (entry : Entry) (entries : List Entry) :
    fileText (entry :: entries) = unlines entry.lines ++
      (if entries = [] then [] else '\n' :: fileText entries) := by
  cases entries with
  | nil =>
    rw [if_pos rfl, List.append_nil]
    exact List.append_nil _
  | cons next entries => rfl

theorem fileLines_fileText (entries : List Entry) :
    fileLines (fileText entries) = (withGaps entries).flatMap entryLines := by
  induction entries with
  | nil => rfl
  | cons entry entries ih =>
    rw [fileText_cons, fileLines_unlines entry.newline_not_mem, withGaps, List.flatMap_cons,
      entryLines, ← ih, List.append_assoc]
    by_cases h : entries = []
    · rw [if_pos h, if_pos h, h]
      rfl
    · rw [if_neg h, if_neg h, fileLines_newline]
      rfl

theorem withGaps_blank (entries : List Entry) :
    ∀ e ∈ withGaps entries, ∀ l ∈ e.2, strip l = [] := by
  induction entries with
  | nil =>
    intro e he
    cases he
  | cons entry entries ih =>
    intro e he
    rcases List.mem_cons.mp he with rfl | he
    · intro l hl
      by_cases h : entries = []
      · rw [if_pos h] at hl
        cases hl
      · rw [if_neg h, List.mem_singleton] at hl
        rw [hl]
        decide
    · exact ih e he

theorem withGaps_separated (entries : List Entry) :
    ∀ e ∈ (withGaps entries).dropLast, e.2 ≠ [] := by
  induction entries with
  | nil =>
    intro e he
    cases he
  | cons entry entries ih =>
    cases entries with
    | nil =>
      intro e he
      cases he
    | cons next entries =>
      intro e he
      have hne : withGaps (next :: entries) ≠ [] := List.cons_ne_nil _ _
      rw [withGaps, List.dropLast_cons_of_ne_nil hne] at he
      rcases List.mem_cons.mp he with rfl | he
      · rw [if_neg (List.cons_ne_nil next entries)]
        exact List.cons_ne_nil _ _
      · exact ih e he

/-- A canonical file is read as its entries. -/
theorem readBlocks_fileText (entries : List Entry) :
    readBlocks (fileText entries) = (entries.map Entry.block, none) := by
  have hfile : PoFile (fileText entries) [] (withGaps entries) := by
    refine ⟨fileLines_fileText entries, ?_, withGaps_blank entries, withGaps_separated entries⟩
    intro l hl
    cases hl
  have hread := hfile.readBlocks
  rw [before, if_pos rfl, blocks_withGaps] at hread
  exact hread

/-! ## The hash -/

theorem isFlag_iff {c : Text} (h : IsComment c) : isFlag c = true ↔ IsFlagComment c := by
  obtain ⟨hhead, _⟩ := h
  match c, hhead with
  | [_], rfl => decide
  | _ :: d :: rest, rfl => simp [isFlag, IsFlagComment, text, eq_comm]

theorem Entry.block_of_none {entry : Entry} (h : entry.strings = none) :
    entry.block = ⟨entry.comments, none⟩ := by
  rw [Entry.block, h]
  rfl

theorem Entry.block_of_some {entry : Entry} {id str : Literal} (h : entry.strings = some (id, str)) :
    entry.block = ⟨entry.comments, some (id.text, str.text)⟩ := by
  rw [Entry.block, h]
  rfl

theorem splitComments_eq (entry : Entry) :
    splitComments entry.comments = (entry.flags, entry.others) := by
  rw [splitComments, List.partition_eq_filter_filter, Entry.flags, Entry.others]
  apply Prod.ext
  · apply List.filter_congr
    intro c hc
    rw [Bool.eq_iff_iff, isFlag_iff (entry.isComment c hc), decide_eq_true_iff]
  · apply List.filter_congr
    intro c hc
    rw [Bool.eq_iff_iff]
    simp [← isFlag_iff (entry.isComment c hc)]

/-- The last entry with a msgid is what the hash has for it. -/
theorem sourceOf_fileText (source : List Entry) (msgid : Text) :
    sourceOf (fileText source) msgid =
      (occurrences source msgid).getLast?.map fun r => (r.2.text, r.1.flags) := by
  rw [sourceOf_eq, readBlocks_fileText]
  simp only
  induction source using List.reverseRecOn with
  | nil => rfl
  | append_singleton source entry ih =>
    rw [List.map_append, List.foldl_append, List.map_singleton, List.foldl_cons, List.foldl_nil,
      occurrences, List.filterMap_append, ← occurrences]
    cases hs : entry.strings with
    | none =>
      rw [Entry.block_of_none hs, addTranslation]
      simp [ih, hs]
    | some strings =>
      obtain ⟨id, str⟩ := strings
      rw [Entry.block_of_some hs, addTranslation]
      simp only
      by_cases hid : id.text = msgid
      · rw [hid, Function.update_self, splitComments_eq]
        simp [hs, hid]
      · rw [Function.update_of_ne (Ne.symm hid), ih]
        simp [hs, hid]

/-! ## Writing -/

theorem Entry.IsCanonical.others_ne {entry : Entry} (h : entry.IsCanonical) :
    entry.others ≠ [] := by
  obtain ⟨c, hhead, hflag⟩ := h
  apply List.ne_nil_of_mem (a := c)
  rw [Entry.others, List.mem_filter]
  exact ⟨List.mem_of_mem_head? hhead, by simpa using hflag⟩

theorem Entry.IsCanonical.comments_ne {entry : Entry} (h : entry.IsCanonical) :
    entry.comments ≠ [] := by
  intro hnil
  apply h.others_ne
  rw [Entry.others, hnil]
  rfl

/-- An entry with comments is written as its lines. -/
theorem Entry.blockText_eq {entry : Entry} (h : entry.comments ≠ []) :
    blockText entry.block = unlines entry.lines := by
  cases hs : entry.strings with
  | none =>
    have hlines : entry.lines = entry.comments := by rw [Entry.lines, hs]; exact List.append_nil _
    rw [Entry.block_of_none hs, hlines, blockText, join_newline h, List.append_nil]
  | some strings =>
    have hlines : entry.lines = entry.comments ++ literalLines strings.1 strings.2 := by
      rw [Entry.lines, hs]
    rw [Entry.block_of_some hs, hlines, blockText_literals h]

/-- What the loop makes of an entry is the block of the merged entry. -/
theorem updateBlock_block (source : List Entry) (entry : Entry) :
    updateBlock (sourceOf (fileText source)) entry.block = (mergedEntry source entry).block := by
  cases hs : entry.strings with
  | none =>
    have hmerged : mergedEntry source entry = entry := by rw [mergedEntry, hs]
    rw [hmerged, Entry.block_of_none hs, updateBlock_none]
  | some strings =>
    obtain ⟨id, str⟩ := strings
    have hhash := sourceOf_fileText source id.text
    rw [mergedEntry, hs]
    simp only
    cases hlast : (occurrences source id.text).getLast? with
    | none =>
      have hget : ((sourceOf (fileText source)).get id.text).1 = emptyString := by
        rw [Source.get, hhash, hlast]
        rfl
      rw [Entry.block_of_some hs, updateBlock_some, replaced, if_neg fun h => h.2 hget]
    | some r =>
      obtain ⟨occurrence, new⟩ := r
      have hget : (sourceOf (fileText source)).get id.text = (new.text, occurrence.flags) := by
        rw [Source.get, hhash, hlast]
        rfl
      simp only
      rw [Entry.block_of_some hs, updateBlock_some, replaced, hget, splitComments_eq]
      by_cases h : id.text ≠ emptyString ∧ new.text ≠ emptyString
      · rw [if_pos h, if_pos h]
        rfl
      · rw [if_neg h, if_neg h, Entry.block_of_some hs]

theorem mergedEntry_comments_ne {source : List Entry} {entry : Entry} (h : entry.IsCanonical) :
    (mergedEntry source entry).comments ≠ [] := by
  rw [mergedEntry]
  split
  · exact h.comments_ne
  · split
    · exact h.comments_ne
    · split
      · exact List.append_ne_nil_of_left_ne_nil h.others_ne _
      · exact h.comments_ne

theorem outText_eq (bs : List Block) : outText bs = List.intercalate ['\n'] (bs.map blockText) := by
  induction bs with
  | nil => rfl
  | cons block bs ih =>
    cases bs with
    | nil => exact (List.append_nil _).trans (List.append_nil _).symm
    | cons next bs =>
      have hstep : List.intercalate ['\n'] ((block :: next :: bs).map blockText) =
          blockText block ++ '\n' :: List.intercalate ['\n'] ((next :: bs).map blockText) := rfl
      rw [hstep, ← ih]
      rfl

/-! ## The run -/

/-- The merge of two files of entries, the first of them canonical and not without a
string: the same entries in the same order, each as it was or with the translation and
the flags of the last entry of the source that has its msgid. -/
theorem main_merges {lang : Text} {fs : FileSystem} {entries : List Entry} (prog : Text)
    (source : List Entry) (hcanonical : ∀ entry ∈ entries, entry.IsCanonical)
    (hstring : ∃ entry ∈ entries, entry.strings ≠ none)
    (hfile : fs lang = some (fileText entries)) :
    ∃ fs' report, main [prog, lang] (fileText source) fs = (fs', .ok report) ∧
      fs' lang = some (fileText (entries.map (mergedEntry source))) := by
  have hsource : (readBlocks (fileText source)).2 = none := by rw [readBlocks_fileText]
  have hread := readBlocks_fileText entries
  have hcount : (stateAfter (sourceOf (fileText source))
      (entries.map Entry.block)).stringCount ≠ 0 := by
    obtain ⟨entry, hentry, hs⟩ := hstring
    have hmessage : entry.block ∈ messages (entries.map Entry.block) := by
      rw [messages, List.mem_filter, Option.isSome_iff_ne_none]
      exact ⟨List.mem_map_of_mem hentry, fun hnone => hs (Option.map_eq_none_iff.mp hnone)⟩
    have hpos := List.length_pos_of_mem hmessage
    rw [stateAfter, foldl_stringCount]
    omega
  have hwritten : outText ((entries.map Entry.block).map
      (updateBlock (sourceOf (fileText source)))) =
        fileText (entries.map (mergedEntry source)) := by
    have htext : fileText (entries.map (mergedEntry source)) = List.intercalate ['\n']
        (entries.map fun entry => unlines (mergedEntry source entry).lines) := by
      rw [fileText, List.map_map]
      rfl
    rw [outText_eq, List.map_map, List.map_map, htext]
    congr 1
    apply List.map_congr_left
    intro entry hentry
    show blockText (updateBlock (sourceOf (fileText source)) entry.block) =
      unlines (mergedEntry source entry).lines
    rw [updateBlock_block, Entry.blockText_eq (mergedEntry_comments_ne (hcanonical entry hentry))]
  rw [main_of_file hsource hfile, hread]
  simp only
  rw [if_neg hcount, hwritten]
  exact ⟨_, _, rfl, Function.update_self _ _ _⟩

theorem isQuoted_quote (body : Text) (h : '\n' ∉ body) : IsQuoted ('"' :: (body ++ ['"'])) := by
  refine ⟨rfl, ?_, ?_⟩
  · rw [← List.cons_append, List.getLast?_concat]
  · simpa using h

/-- An entry with a flag, and one that is obsolete. -/
def draft : List Entry :=
  [oneLine [text "# a", text "#, fuzzy", text "#: a.c:1"] (text "\"a\"") (text "\"\"")
      (by decide) (isQuoted_quote (text "a") (by decide)) (isQuoted_quote [] List.not_mem_nil),
    ⟨[text "#~ msgid \"b\""], none, by decide, by decide⟩]

/-- The msgid twice. -/
def twice : List Entry :=
  [oneLine [text "# a"] (text "\"a\"") (text "\"x\"") (by decide)
      (isQuoted_quote (text "a") (by decide)) (isQuoted_quote (text "x") (by decide)),
    oneLine [text "# a", text "#, c-format"] (text "\"a\"") (text "\"y\"") (by decide)
      (isQuoted_quote (text "a") (by decide)) (isQuoted_quote (text "y") (by decide))]

theorem main_merges_draft : ∃ fs' report,
    main [text "po-merge.py", text "lang.po"] (fileText twice) (inFile (fileText draft)) =
        (fs', .ok report) ∧
      fs' (text "lang.po") = some (text
        "# a\n#: a.c:1\n#, c-format\nmsgid \"a\"\nmsgstr \"y\"\n\n#~ msgid \"b\"\n") := by
  have hcanonical : ∀ entry ∈ draft, entry.IsCanonical := by
    intro entry hentry
    simp only [draft, List.mem_cons, List.not_mem_nil, or_false] at hentry
    rcases hentry with rfl | rfl
    · exact ⟨text "# a", rfl, by decide⟩
    · exact ⟨text "#~ msgid \"b\"", rfl, by decide⟩
  have hstring : ∃ entry ∈ draft, entry.strings ≠ none :=
    ⟨_, List.mem_cons_self, Option.some_ne_none _⟩
  have hfile : inFile (fileText draft) (text "lang.po") = some (fileText draft) := rfl
  obtain ⟨fs', report, hrun, hout⟩ :=
    main_merges (text "po-merge.py") twice hcanonical hstring hfile
  refine ⟨fs', report, hrun, hout.trans ?_⟩
  decide

end Merge
end Po
end I18nZh
