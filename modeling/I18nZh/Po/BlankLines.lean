import I18nZh.Po.ReadBack

/-!
# Blank lines in a PO file

What is lost of a file of well-formed blocks: a blank line where a block could
begin ends the file for both loops.
-/

namespace I18nZh
namespace Po
namespace Merge

open Lines

/-! ## Files of entries -/

def entryLines (e : Entry × List Text) : List Text := e.1.lines.map (· ++ ['\n']) ++ e.2

/-- A file made of entries, each with the blank lines behind it, and of the blank lines
in front; between two entries there is at least one. -/
structure PoFile (file : Text) (lead : List Text) (entries : List (Entry × List Text)) : Prop where
  lines : fileLines file = lead ++ entries.flatMap entryLines
  lead_blank : ∀ l ∈ lead, strip l = []
  blank : ∀ e ∈ entries, ∀ l ∈ e.2, strip l = []
  separated : ∀ e ∈ entries.dropLast, e.2 ≠ []

def blocks (entries : List (Entry × List Text)) : List Block := entries.map fun e => e.1.block

/-- The entries up to the first one with two blank lines behind it. -/
def beforeGap : List (Entry × List Text) → List (Entry × List Text)
  | [] => []
  | e :: rest => e :: if e.2.length ≤ 1 then beforeGap rest else []

/-- The entries behind two blank lines. -/
def behindGap : List (Entry × List Text) → List (Entry × List Text)
  | [] => []
  | e :: rest => if e.2.length ≤ 1 then behindGap rest else rest

/-- The entries in front of the first blank line that does not end one. -/
def before (lead : List Text) (entries : List (Entry × List Text)) : List (Entry × List Text) :=
  if lead = [] then beforeGap entries else []

/-- The entries behind it. -/
def behind (lead : List Text) (entries : List (Entry × List Text)) : List (Entry × List Text) :=
  if lead = [] then behindGap entries else entries

theorem beforeGap_append (entries : List (Entry × List Text)) :
    beforeGap entries ++ behindGap entries = entries := by
  induction entries with
  | nil => rfl
  | cons e rest ih =>
    rw [beforeGap, behindGap]
    by_cases h : e.2.length ≤ 1
    · rw [if_pos h, if_pos h, List.cons_append, ih]
    · rw [if_neg h, if_neg h]
      rfl

theorem before_append (lead : List Text) (entries : List (Entry × List Text)) :
    before lead entries ++ behind lead entries = entries := by
  unfold before behind
  by_cases h : lead = []
  · rw [if_pos h, if_pos h, beforeGap_append]
  · rw [if_neg h, if_neg h, List.nil_append]

theorem blocks_split (lead : List Text) (entries : List (Entry × List Text)) :
    blocks entries = blocks (before lead entries) ++ blocks (behind lead entries) := by
  unfold blocks
  rw [← List.map_append, before_append]

/-! ## Reading them -/

theorem blocksOf_nil (fuel : Nat) : blocksOf (fuel + 1) [] = ([], none) := rfl

/-- A blank line at the start of a block ends the loop. -/
theorem blocksOf_blank {line : Text} (h : strip line = []) (fuel : Nat) (f : List Text) :
    blocksOf (fuel + 1) (line :: f) = ([], none) := by
  have hparse : parseTranslation (line :: f) = .ok (⟨[], none⟩, f) := by
    rw [parseTranslation, parseComments, if_pos h]
    simp only
    rw [if_pos h]
    rfl
  have hend : Block.isEnd ⟨[], none⟩ := ⟨rfl, rfl⟩
  rw [blocksOf, hparse]
  simp only
  rw [if_pos hend]

/-- The line behind an entry is read with it. -/
theorem parseTranslation_blank (entry : Entry) {line : Text} (h : strip line = [])
    (f : List Text) : parseTranslation (entry.lines.map (· ++ ['\n']) ++ line :: f) =
      .ok (entry.block, f) := by
  have hquote : line.head? ≠ some '"' := by
    intro hhead
    exact strip_ne_nil hhead (by decide) h
  apply entry.parseTranslation_lines h
  · intro cs
    rw [parseComments, if_pos h]
  · intro s
    rw [parseMsgstr, if_pos hquote]

theorem blocksOf_entries : ∀ (entries : List (Entry × List Text)) (fuel : Nat),
    (∀ e ∈ entries, ∀ l ∈ e.2, strip l = []) → (∀ e ∈ entries.dropLast, e.2 ≠ []) →
    (entries.flatMap entryLines).length < fuel →
    blocksOf fuel (entries.flatMap entryLines) = (blocks (beforeGap entries), none) := by
  intro entries
  induction entries with
  | nil =>
    intro fuel _ _ hfuel
    obtain ⟨fuel, rfl⟩ : ∃ n, fuel = n + 1 := ⟨fuel - 1, by omega⟩
    exact blocksOf_nil fuel
  | cons e rest ih =>
    intro fuel hblank hsep hfuel
    obtain ⟨fuel, rfl⟩ : ∃ n, fuel = n + 1 := ⟨fuel - 1, by omega⟩
    obtain ⟨entry, gap⟩ := e
    have hpos : 0 < entry.lines.length := List.length_pos_iff.mpr entry.lines_ne
    rw [List.flatMap_cons, List.length_append, entryLines, List.length_append,
      List.length_map] at hfuel
    simp only at hfuel
    have hrest : ∀ l ∈ gap, strip l = [] := hblank (entry, gap) List.mem_cons_self
    rw [List.flatMap_cons, entryLines, List.append_assoc, blocksOf]
    cases gap with
    | nil =>
      -- no blank line behind it, so it is the last one
      have hlast : rest = [] := by
        by_contra hne
        rw [List.dropLast_cons_of_ne_nil hne] at hsep
        exact hsep (entry, []) List.mem_cons_self rfl
      obtain ⟨fuel, rfl⟩ : ∃ n, fuel = n + 1 := ⟨fuel - 1, by omega⟩
      subst hlast
      have hread : parseTranslation (entry.lines.map (· ++ ['\n']) ++ []) =
          .ok (entry.block, []) :=
        entry.parseTranslation_lines rfl (fun _ => rfl) fun _ => rfl
      rw [List.flatMap_nil, List.append_nil, hread]
      simp only
      rw [if_neg entry.not_isEnd, blocksOf_nil]
      rfl
    | cons line gap =>
      have hline : strip line = [] := hrest line List.mem_cons_self
      rw [List.cons_append, parseTranslation_blank entry hline]
      simp only
      rw [if_neg entry.not_isEnd]
      cases gap with
      | nil =>
        have hnext := ih fuel (fun d hd => hblank d (List.mem_cons_of_mem _ hd)) (by
          intro d hd
          apply hsep d
          have hne : rest ≠ [] := by
            rintro rfl
            cases hd
          rw [List.dropLast_cons_of_ne_nil hne]
          exact List.mem_cons_of_mem _ hd) (by
          simp only [List.length_cons] at hfuel
          omega)
        rw [List.nil_append, hnext]
        rfl
      | cons second gap =>
        obtain ⟨fuel, rfl⟩ : ∃ n, fuel = n + 1 := ⟨fuel - 1, by
          simp only [List.length_cons] at hfuel
          omega⟩
        rw [List.cons_append, blocksOf_blank (hrest second (by simp))]
        rfl

/-- Both loops come by the entries in front of the blank line that ends the file. -/
theorem PoFile.readBlocks {file : Text} {lead : List Text} {entries : List (Entry × List Text)}
    (h : PoFile file lead entries) : readBlocks file = (blocks (before lead entries), none) := by
  rw [readBlocks_eq, h.lines, before]
  cases lead with
  | nil =>
    rw [if_pos rfl, List.nil_append]
    exact blocksOf_entries entries _ h.blank h.separated (Nat.lt_succ_self _)
  | cons line lead =>
    rw [if_neg (List.cons_ne_nil line lead), List.cons_append]
    exact blocksOf_blank (h.lead_blank line List.mem_cons_self) _ _

/-! ## What is lost -/

/-- The blocks with a message. -/
def messages (bs : List Block) : List Block := bs.filter fun block => block.message.isSome

/-- Nothing is lost: the main loop has come by every block, the blocks are what was
written, each once and in order, and the hash was made from every message of the
source. -/
structure Complete (stdin infile outfile : Text) (source entries : List (Entry × List Text)) :
    Prop where
  processed : (readBlocks infile).1 = blocks entries
  written : outfile = outText ((blocks entries).map (updateBlock (sourceOf stdin)))
  accounted : messages (readBlocks stdin).1 = messages (blocks source)
  hash : sourceOf stdin = (blocks source).foldl addTranslation fun _ => none

theorem foldl_addTranslation (bs : List Block) (source : Source) :
    bs.foldl addTranslation source = (messages bs).foldl addTranslation source := by
  induction bs generalizing source with
  | nil => rfl
  | cons block bs ih =>
    rw [List.foldl_cons, ih, messages, messages]
    obtain ⟨comments, message⟩ := block
    cases message with
    | none => rfl
    | some strings => rfl

theorem foldl_stringCount (source : Source) : ∀ (bs : List Block) (st : MergeState),
    (bs.foldl (mergeBlock source) st).stringCount = st.stringCount + (messages bs).length := by
  intro bs
  induction bs with
  | nil =>
    intro st
    rfl
  | cons block bs ih =>
    intro st
    obtain ⟨comments, message⟩ := block
    rw [List.foldl_cons, ih]
    cases message with
    | none => rfl
    | some strings =>
      have hcount : (mergeBlock source st ⟨comments, some strings⟩).stringCount =
          st.stringCount + 1 := rfl
      have hmessages : messages (⟨comments, some strings⟩ :: bs) =
          ⟨comments, some strings⟩ :: messages bs := rfl
      rw [hcount, hmessages, List.length_cons]
      omega

theorem messages_eq_nil_iff {entries : List (Entry × List Text)} :
    messages (blocks entries) = [] ↔ ∀ e ∈ entries, e.1.strings = none := by
  unfold messages blocks
  rw [List.filter_eq_nil_iff, List.forall_mem_map]
  apply forall₂_congr
  intro e _
  rw [Option.isSome_iff_ne_none, not_not]
  exact Option.map_eq_none_iff

/-- A run that completes loses nothing if and only if no block of the file stands behind
a blank line too many, and no message of the source. -/
theorem main_complete_iff {prog lang stdin infile : Text} {fs fs' : FileSystem}
    {report : Report} {lead leadSource : List Text} {entries source : List (Entry × List Text)}
    (hin : PoFile infile lead entries) (hsource : PoFile stdin leadSource source)
    (hfile : fs lang = some infile) (h : main [prog, lang] stdin fs = (fs', .ok report)) :
    ∃ outfile, fs' lang = some outfile ∧
      (Complete stdin infile outfile source entries ↔
        behind lead entries = [] ∧ ∀ e ∈ behind leadSource source, e.1.strings = none) := by
  obtain ⟨_, _, hout⟩ := main_completes hfile h
  refine ⟨_, hout, ?_⟩
  have hread := hin.readBlocks
  have hhash := hsource.readBlocks
  rw [← messages_eq_nil_iff]
  have hsplit : messages (blocks source) = messages (blocks (before leadSource source)) ++
      messages (blocks (behind leadSource source)) := by
    rw [blocks_split leadSource source]
    exact List.filter_append _ _
  constructor
  · intro hc
    have hblocks := hc.processed
    have hmessages := hc.accounted
    rw [hread, blocks_split lead entries] at hblocks
    rw [hhash, hsplit] at hmessages
    have hnone : blocks (behind lead entries) = [] :=
      List.append_cancel_left (hblocks.symm.trans (List.append_nil _).symm)
    exact ⟨List.map_eq_nil_iff.mp hnone,
      List.append_cancel_left (hmessages.symm.trans (List.append_nil _).symm)⟩
  · intro hnone
    obtain ⟨hblocks, hmessages⟩ := hnone
    have hprocessed : (readBlocks infile).1 = blocks entries := by
      rw [hread, blocks_split lead entries, hblocks]
      exact (List.append_nil _).symm
    have haccounted : messages (readBlocks stdin).1 = messages (blocks source) := by
      rw [hhash, hsplit, hmessages, List.append_nil]
    refine ⟨hprocessed, by rw [hprocessed], haccounted, ?_⟩
    rw [sourceOf, forBlocks_eq, foldl_addTranslation, haccounted, ← foldl_addTranslation]

/-! ## Two files -/

def IsQuoted (t : Text) : Prop := t.head? = some '"' ∧ t.getLast? = some '"' ∧ '\n' ∉ t

instance (t : Text) : Decidable (IsQuoted t) := inferInstanceAs (Decidable (_ ∧ _))

instance (c : Text) : Decidable (IsComment c) := inferInstanceAs (Decidable (_ ∧ _))

/-- The entry of two strings of one line each. -/
def oneLine (comments : List Text) (id str : Text) (hcs : ∀ c ∈ comments, IsComment c)
    (hid : IsQuoted id) (hstr : IsQuoted str) : Entry where
  comments := comments
  strings := some (⟨id, [], hid.1, hid.2.1, hid.2.2, by simp, by simp⟩,
    ⟨str, [], hstr.1, hstr.2.1, hstr.2.2, by simp, by simp⟩)
  isComment := hcs
  not_empty := Or.inr (Option.some_ne_none _)

def entryA : Entry := oneLine [] (text "\"a\"") (text "\"\"") (by decide) (by decide) (by decide)

def entryB : Entry :=
  oneLine [text "# b"] (text "\"b\"") (text "\"\"") (by decide) (by decide) (by decide)

/-- What the source says for the first of them. -/
def entryX : Entry := oneLine [] (text "\"a\"") (text "\"x\"") (by decide) (by decide) (by decide)

/-- Two entries with some blank lines between them. -/
def spaced (gap : Text) : Text :=
  text "msgid \"a\"\nmsgstr \"\"\n" ++ gap ++ text "# b\nmsgid \"b\"\nmsgstr \"\"\n"

def sourceX : Text := text "msgid \"a\"\nmsgstr \"x\"\n"

theorem poFile_sourceX : PoFile sourceX [] [(entryX, [])] := by
  constructor
  · rfl
  · decide
  · decide
  · decide

theorem poFile_spaced (gap : Text) (h : fileLines (spaced gap) =
      [(entryA, fileLines gap), (entryB, [])].flatMap entryLines)
    (hblank : ∀ l ∈ fileLines gap, strip l = []) (hne : fileLines gap ≠ []) :
    PoFile (spaced gap) [] [(entryA, fileLines gap), (entryB, [])] := by
  constructor
  · exact h
  · decide
  · intro e he l hl
    simp only [List.mem_cons, List.not_mem_nil, or_false] at he
    rcases he with rfl | rfl
    · exact hblank l hl
    · cases hl
  · intro e he
    rw [List.mem_singleton.mp he]
    exact hne

theorem main_complete_iff_spaced : ∃ fs' report outfile,
    main [text "po-merge.py", text "lang.po"] sourceX (inFile (spaced (text "\n"))) =
        (fs', .ok report) ∧
      fs' (text "lang.po") = some outfile ∧
      Complete sourceX (spaced (text "\n")) outfile [(entryX, [])]
        [(entryA, fileLines (text "\n")), (entryB, [])] := by
  have hrun : main [text "po-merge.py", text "lang.po"] sourceX (inFile (spaced (text "\n"))) =
      ((main [text "po-merge.py", text "lang.po"] sourceX (inFile (spaced (text "\n")))).1,
        .ok ⟨1, 1, 2⟩) := rfl
  have hin := poFile_spaced (text "\n") rfl (by decide) (by decide)
  have hfile : inFile (spaced (text "\n")) (text "lang.po") = some (spaced (text "\n")) := rfl
  obtain ⟨outfile, hout, hiff⟩ := main_complete_iff hin poFile_sourceX hfile hrun
  refine ⟨_, _, outfile, hrun, hout, hiff.mpr ⟨rfl, ?_⟩⟩
  intro e he
  cases he

/-- With one blank line more, the second entry is gone. -/
theorem main_truncates : ∃ fs' report outfile,
    PoFile (spaced (text "\n\n")) [] [(entryA, fileLines (text "\n\n")), (entryB, [])] ∧
      PoFile sourceX [] [(entryX, [])] ∧
      main [text "po-merge.py", text "lang.po"] sourceX (inFile (spaced (text "\n\n"))) =
        (fs', .ok report) ∧
      fs' (text "lang.po") = some outfile ∧
      outfile = text "\nmsgid \"a\"\nmsgstr \"x\"\n" ∧
      ¬ Complete sourceX (spaced (text "\n\n")) outfile [(entryX, [])]
        [(entryA, fileLines (text "\n\n")), (entryB, [])] := by
  have hin := poFile_spaced (text "\n\n") rfl (by decide) (by decide)
  refine ⟨_, ⟨1, 0, 1⟩, _, hin, poFile_sourceX, rfl, rfl, rfl, ?_⟩
  intro h
  have hlen := congrArg List.length h.processed
  rw [hin.readBlocks] at hlen
  revert hlen
  decide

end Merge
end Po
end I18nZh
