import I18nZh.Po.Blocks

/-!
# The file that is written

Blocks as text, and when the text is read as the same blocks again: a blank line
ends a block, and at the start of one it ends the file.
-/

namespace I18nZh
namespace Po
namespace Merge

open Lines

/-! ## One block -/

/-- The text of a block, as the merge writes it. -/
def blockText (block : Block) : Text :=
  join block.comments ++ text "\n" ++
    match block.message with
    | none => []
    | some (msgid, msgstr) =>
      (text "msgid " ++ msgid ++ text "\n") ++ (text "msgstr " ++ msgstr ++ text "\n")

/-- The text of some lines. -/
def unlines (ls : List Text) : Text := ls.flatMap (· ++ ['\n'])

theorem unlines_append (as bs : List Text) : unlines (as ++ bs) = unlines as ++ unlines bs :=
  List.flatMap_append

theorem join_newline : ∀ {cs : List Text}, cs ≠ [] → join cs ++ text "\n" = unlines cs := by
  intro cs
  induction cs with
  | nil =>
    intro h
    exact absurd rfl h
  | cons c cs ih =>
    intro _
    cases cs with
    | nil => simp [join, unlines, List.intercalate, text]
    | cons d cs =>
      have hrest := ih (List.cons_ne_nil d cs)
      have hstep : join (c :: d :: cs) = c ++ '\n' :: join (d :: cs) := rfl
      rw [hstep, List.append_assoc, List.cons_append, hrest]
      simp [unlines]

theorem continued_newline (v : Text) (conts : List Text) :
    v ++ continued conts ++ ['\n'] = unlines (v :: conts) := by
  induction conts generalizing v with
  | nil => simp [continued, unlines]
  | cons c conts ih =>
    have hrest := ih c
    have hstep : continued (c :: conts) = '\n' :: (c ++ continued conts) := rfl
    rw [hstep, List.append_assoc, List.cons_append, hrest]
    simp [unlines]

theorem opens_line {kw v : Text} (hhead : v.head? = some '"') (hlast : v.getLast? = some '"') :
    opens (kw ++ ['"']) (kw ++ v ++ ['\n']) := by
  obtain ⟨r, rfl⟩ : ∃ r, v = '"' :: r := by
    cases v with
    | nil => cases hhead
    | cons x r =>
      rw [List.head?_cons, Option.some.injEq] at hhead
      exact ⟨r, by rw [hhead]⟩
  constructor
  · have hsplit : kw ++ '"' :: r ++ ['\n'] = (kw ++ ['"']) ++ (r ++ ['\n']) := by simp
    rw [hsplit, List.take_left]
  · rw [List.dropLast_concat, List.getLast?_append_of_ne_nil _ (List.cons_ne_nil _ _), hlast]

theorem strip_ne_nil {line : Text} {c : Char} (h : line.head? = some c) (hc : ¬ isSpace c) :
    strip line ≠ [] := by
  intro hblank
  exact hc (strip_eq_nil_iff.mp hblank c (List.mem_of_head? h))

theorem parseComments_lines : ∀ (cs : List Text), (∀ c ∈ cs, IsComment c) →
    ∀ (f comments : List Text),
      parseComments (cs.map (· ++ ['\n']) ++ f) comments = parseComments f (comments ++ cs) := by
  intro cs
  induction cs with
  | nil =>
    intro _ f comments
    rw [List.map_nil, List.nil_append, List.append_nil]
  | cons c cs ih =>
    intro h f comments
    obtain ⟨hhead, _⟩ := h c List.mem_cons_self
    have hline : (c ++ ['\n']).head? = some '#' := by
      rw [List.head?_append, hhead]
      rfl
    rw [List.map_cons, List.cons_append, parseComments,
      if_neg (strip_ne_nil hline (by decide)), if_pos hline, List.dropLast_concat,
      ih (fun d hd => h d (List.mem_cons_of_mem c hd)), List.append_assoc,
      List.singleton_append]

theorem head?_line {c : Text} (h : c.head? = some '"') : (c ++ ['\n']).head? = some '"' := by
  rw [List.head?_append, h]
  rfl

theorem parseMsgid_lines : ∀ (cs : List Text), (∀ c ∈ cs, c.head? = some '"') →
    ∀ (f : List Text) (msgid : Text), parseMsgid (cs.map (· ++ ['\n']) ++ f) msgid =
      parseMsgid f (msgid ++ continued cs) := by
  intro cs
  induction cs with
  | nil =>
    intro _ f msgid
    simp [continued]
  | cons c cs ih =>
    intro h f msgid
    rw [List.map_cons, List.cons_append, parseMsgid,
      if_neg (not_not.mpr (head?_line (h c List.mem_cons_self))), List.dropLast_concat,
      ih fun d hd => h d (List.mem_cons_of_mem c hd)]
    simp [continued, text]

theorem parseMsgstr_lines : ∀ (cs : List Text), (∀ c ∈ cs, c.head? = some '"') →
    ∀ (f : List Text) (msgstr : Text), parseMsgstr (cs.map (· ++ ['\n']) ++ f) msgstr =
      parseMsgstr f (msgstr ++ continued cs) := by
  intro cs
  induction cs with
  | nil =>
    intro _ f msgstr
    simp [continued]
  | cons c cs ih =>
    intro h f msgstr
    rw [List.map_cons, List.cons_append, parseMsgstr,
      if_neg (not_not.mpr (head?_line (h c List.mem_cons_self))), List.dropLast_concat,
      ih fun d hd => h d (List.mem_cons_of_mem c hd)]
    simp [continued, text]

theorem fileLines_unlines {ls : List Text} (h : ∀ l ∈ ls, '\n' ∉ l) (t : Text) :
    fileLines (unlines ls ++ t) = ls.map (· ++ ['\n']) ++ fileLines t :=
  keepLines_flatMap '\n' ls h t

theorem fileLines_newline (t : Text) : fileLines ('\n' :: t) = ['\n'] :: fileLines t :=
  keepLines_line '\n' List.not_mem_nil t

/-- What is behind a block: nothing, or the line feed in front of the rest. -/
def Follows (t rest : Text) : Prop := (t = [] ∧ rest = []) ∨ t = '\n' :: rest

/-- Behind a block both loops stop at a blank line. -/
theorem Follows.blank {t rest : Text} (h : Follows t rest) : ∃ line, strip line = [] ∧
    (∀ cs, parseComments (fileLines t) cs = (cs, line, fileLines rest)) ∧
    ∀ s, parseMsgstr (fileLines t) s = (s, line, fileLines rest) := by
  rcases h with ⟨rfl, rfl⟩ | rfl
  · exact ⟨[], rfl, fun _ => rfl, fun _ => rfl⟩
  · have hblank : strip ['\n'] = [] := by decide
    refine ⟨['\n'], hblank, ?_, ?_⟩
    · intro cs
      rw [fileLines_newline, parseComments, if_pos hblank]
    · intro s
      rw [fileLines_newline, parseMsgstr, if_pos (by decide)]

/-- The lines of two literals are read as they were written. -/
theorem parseMessage_lines (id str : Literal) (comments : List Text) {f f' : List Text}
    {line : Text} (hblank : strip line = []) (hstop : ∀ s, parseMsgstr f s = (s, line, f')) :
    parseMessage comments (text "msgid " ++ id.first ++ ['\n'])
      (id.conts.map (· ++ ['\n']) ++ (text "msgstr " ++ str.first ++ ['\n']) ::
        (str.conts.map (· ++ ['\n']) ++ f)) =
      .ok (⟨comments, some (id.text, str.text)⟩, f') := by
  have hid : opens (text "msgid \"") (text "msgid " ++ id.first ++ ['\n']) := by
    rw [text_msgid]
    exact opens_line id.first_head id.first_last
  have hstr : opens (text "msgstr \"") (text "msgstr " ++ str.first ++ ['\n']) := by
    rw [text_msgstr]
    exact opens_line str.first_head str.first_last
  have hdropid : (text "msgid " ++ id.first ++ ['\n']).dropLast.drop 6 = id.first := by
    rw [List.dropLast_concat]
    rfl
  have hdropstr : (text "msgstr " ++ str.first ++ ['\n']).dropLast.drop 7 = str.first := by
    rw [List.dropLast_concat]
    rfl
  have hkeyword : (text "msgstr " ++ str.first ++ ['\n']).head? ≠ some '"' := by
    rw [List.append_assoc]
    show some 'm' ≠ some '"'
    decide
  rw [parseMessage, if_neg (not_not.mpr hid), hdropid, parseMsgid_lines _ id.conts_head, parseMsgid,
    if_pos hkeyword]
  show (if ¬ opens (text "msgstr \"") (text "msgstr " ++ str.first ++ ['\n']) then
    throw PyError.parseError else _) = _
  rw [if_neg (not_not.mpr hstr), hdropstr, parseMsgstr_lines _ str.conts_head, hstop]
  simp only
  rw [if_neg (not_not.mpr hblank)]
  rfl

/-- The lines of the two strings of a block. -/
def literalLines (id str : Literal) : List Text :=
  (text "msgid " ++ id.first) :: (id.conts ++ (text "msgstr " ++ str.first) :: str.conts)

theorem literals_lines (id str : Literal) : (∀ l ∈ literalLines id str, '\n' ∉ l) ∧
    (text "msgid " ++ id.text ++ text "\n") ++ (text "msgstr " ++ str.text ++ text "\n") =
      unlines (literalLines id str) := by
  constructor
  · intro l hl
    simp only [literalLines, List.mem_cons, List.mem_append] at hl
    rcases hl with rfl | hl | rfl | hl
    · intro hmem
      rcases List.mem_append.mp hmem with hmem | hmem
      · exact absurd hmem (by decide)
      · exact id.first_line hmem
    · exact id.conts_line l hl
    · intro hmem
      rcases List.mem_append.mp hmem with hmem | hmem
      · exact absurd hmem (by decide)
      · exact str.first_line hmem
    · exact str.conts_line l hl
  · have h₁ := continued_newline (text "msgid " ++ id.first) id.conts
    have h₂ := continued_newline (text "msgstr " ++ str.first) str.conts
    rw [List.append_assoc (text "msgid ")] at h₁
    rw [List.append_assoc (text "msgstr ")] at h₂
    show (text "msgid " ++ id.text ++ ['\n']) ++ (text "msgstr " ++ str.text ++ ['\n']) = _
    rw [Literal.text, Literal.text, h₁, h₂, ← unlines_append]
    rfl

/-- A block as it stands in a file: comments, and the lines of two strings if it is
one with a message. -/
structure Entry where
  comments : List Text
  strings : Option (Literal × Literal)
  isComment : ∀ c ∈ comments, IsComment c
  not_empty : comments ≠ [] ∨ strings ≠ none

namespace Entry

variable (entry : Entry)

def block : Block :=
  ⟨entry.comments, entry.strings.map fun strings => (strings.1.text, strings.2.text)⟩

def lines : List Text :=
  entry.comments ++
    match entry.strings with
    | none => []
    | some (id, str) => literalLines id str

theorem not_isEnd : ¬ entry.block.isEnd := by
  intro h
  rcases entry.not_empty with hne | hne
  · exact hne h.1
  · exact hne (Option.map_eq_none_iff.mp h.2)

theorem newline_not_mem : ∀ l ∈ entry.lines, '\n' ∉ l := by
  intro l hl
  rcases List.mem_append.mp hl with hl | hl
  · exact (entry.isComment l hl).2
  · cases hs : entry.strings with
    | none =>
      rw [hs] at hl
      cases hl
    | some strings =>
      rw [hs] at hl
      exact (literals_lines strings.1 strings.2).1 l hl

theorem lines_ne : entry.lines ≠ [] := by
  intro h
  obtain ⟨hcomments, hlines⟩ := List.append_eq_nil_iff.mp h
  rcases entry.not_empty with hne | hne
  · exact hne hcomments
  · cases hs : entry.strings with
    | none => exact hne hs
    | some strings =>
      rw [hs] at hlines
      cases hlines

/-- An entry is read as its block, where both loops stop at a blank line. -/
theorem parseTranslation_lines {f f' : List Text} {line : Text} (hblank : strip line = [])
    (hcomments : ∀ cs, parseComments f cs = (cs, line, f'))
    (hmsgstr : ∀ s, parseMsgstr f s = (s, line, f')) :
    parseTranslation (entry.lines.map (· ++ ['\n']) ++ f) = .ok (entry.block, f') := by
  obtain ⟨comments, strings, hcs, _⟩ := entry
  cases strings with
  | none =>
    have hlines : (comments ++ []).map (· ++ ['\n']) ++ f = comments.map (· ++ ['\n']) ++ f := by
      rw [List.append_nil]
    show parseTranslation ((comments ++ []).map (· ++ ['\n']) ++ f) = _
    rw [hlines, parseTranslation, parseComments_lines _ hcs, hcomments]
    simp only
    rw [if_pos hblank]
    rfl
  | some strings =>
    obtain ⟨id, str⟩ := strings
    have hread : (comments ++ literalLines id str).map (· ++ ['\n']) ++ f =
        comments.map (· ++ ['\n']) ++ (text "msgid " ++ id.first ++ ['\n']) ::
          (id.conts.map (· ++ ['\n']) ++ (text "msgstr " ++ str.first ++ ['\n']) ::
            (str.conts.map (· ++ ['\n']) ++ f)) := by
      simp [literalLines]
    have hfirst : (text "msgid " ++ id.first ++ ['\n']).head? = some 'm' := rfl
    have hstrip := strip_ne_nil hfirst (by decide)
    show parseTranslation ((comments ++ literalLines id str).map (· ++ ['\n']) ++ f) = _
    rw [hread, parseTranslation, parseComments_lines _ hcs, List.nil_append, parseComments,
      if_neg hstrip, if_neg (by rw [hfirst]; decide)]
    simp only
    rw [if_neg hstrip]
    exact parseMessage_lines id str comments hblank hmsgstr

end Entry

theorem blockText_literals {comments : List Text} (h : comments ≠ []) (id str : Literal) :
    blockText ⟨comments, some (id.text, str.text)⟩ = unlines (comments ++ literalLines id str) := by
  rw [blockText, join_newline h, unlines_append, ← (literals_lines id str).2]

/-- A plain block is the text of an entry. -/
theorem exists_entry {block : Block} (hp : Parsed block) (hb : Plain block) :
    ∃ entry : Entry, entry.block = block ∧ blockText block = unlines entry.lines := by
  have hcs : ∀ c ∈ block.comments, IsComment c := by
    intro c hc
    rcases hp.comments c hc with h | ⟨hnil, _⟩
    · exact h
    · exact absurd hnil (hb.comments c hc)
  have hjoin := join_newline hb.comments_ne
  have hne := hb.comments_ne
  obtain ⟨comments, message⟩ := block
  cases message with
  | none =>
    refine ⟨⟨comments, none, hcs, Or.inl hne⟩, rfl, ?_⟩
    show join comments ++ text "\n" ++ [] = unlines (comments ++ [])
    rw [hjoin, List.append_nil, List.append_nil]
  | some strings =>
    obtain ⟨msgid, msgstr⟩ := strings
    obtain ⟨⟨id, rfl⟩, str, hstr⟩ := hp.message msgid msgstr rfl
    have hlast := hb.message id.text msgstr rfl
    have hmsgstr : msgstr = str.text := by
      rcases hstr with hstr | hstr
      · exact hstr
      · rw [hstr, List.getLast?_concat] at hlast
        exact absurd rfl hlast
    subst hmsgstr
    exact ⟨⟨comments, some (id, str), hcs, Or.inl hne⟩, rfl, blockText_literals hne id str⟩

/-- A plain block is read as it was written. -/
theorem parseTranslation_blockText {block : Block} (hp : Parsed block) (hb : Plain block)
    {t rest : Text} (ht : Follows t rest) :
    parseTranslation (fileLines (blockText block ++ t)) = .ok (block, fileLines rest) := by
  obtain ⟨line, hblank, hcomments, hmsgstr⟩ := ht.blank
  obtain ⟨entry, hblock, htext⟩ := exists_entry hp hb
  rw [htext, fileLines_unlines entry.newline_not_mem,
    entry.parseTranslation_lines hblank hcomments hmsgstr, hblock]

/-! ## A file -/

/-- The blocks behind the first one, each with the line feed in front. -/
def tailText (blocks : List Block) : Text := blocks.flatMap fun block => '\n' :: blockText block

def outText : List Block → Text
  | [] => []
  | block :: blocks => blockText block ++ tailText blocks

theorem follows_tailText (blocks : List Block) : Follows (tailText blocks) (outText blocks) := by
  cases blocks with
  | nil => exact Or.inl ⟨rfl, rfl⟩
  | cons block blocks => exact Or.inr rfl

theorem blockText_concat (block : Block) : ∃ t, blockText block = t ++ ['\n'] := by
  obtain ⟨comments, message⟩ := block
  cases message with
  | none => exact ⟨join comments, by rw [blockText, List.append_nil]; rfl⟩
  | some strings =>
    refine ⟨join comments ++ text "\n" ++ ((text "msgid " ++ strings.1 ++ text "\n") ++
      (text "msgstr " ++ strings.2)), ?_⟩
    simp [blockText, text]

theorem outText_concat (block : Block) (blocks : List Block) :
    ∃ t, outText (block :: blocks) = t ++ ['\n'] := by
  rcases List.eq_nil_or_concat blocks with rfl | ⟨init, last, rfl⟩
  · obtain ⟨t, ht⟩ := blockText_concat block
    exact ⟨t, by rw [outText, ht]; simp [tailText]⟩
  · obtain ⟨t, ht⟩ := blockText_concat last
    refine ⟨blockText block ++ (tailText init ++ '\n' :: t), ?_⟩
    simp [outText, tailText, ht]

theorem outText_closed (blocks : List Block) : Closed '\n' (fileLines (outText blocks)) := by
  cases blocks with
  | nil =>
    intro l hl
    cases hl
  | cons block blocks =>
    obtain ⟨t, ht⟩ := outText_concat block blocks
    rw [ht]
    exact keepLines_closed '\n' t

/-- A string block without comments begins with a blank line. -/
theorem blockText_no_comments {block : Block} (h : block.comments = []) (t : Text) :
    ∃ r, blockText block ++ t = '\n' :: r := by
  rw [blockText, h]
  exact ⟨_, rfl⟩

theorem parseTranslation_no_comments {block : Block} (h : block.comments = []) (t : Text) :
    ∃ g, parseTranslation (fileLines (blockText block ++ t)) = .ok (⟨[], none⟩, g) := by
  obtain ⟨r, hr⟩ := blockText_no_comments h t
  have hblank : strip ['\n'] = [] := by decide
  refine ⟨fileLines r, ?_⟩
  rw [hr, fileLines_newline, parseTranslation, parseComments, if_pos hblank]
  simp only
  rw [if_pos hblank]
  rfl

/-- The blocks of a file that was written are read back if and only if all are plain. -/
theorem blocksOf_outText : ∀ (blocks : List Block) (fuel : Nat),
    (∀ block ∈ blocks, Parsed block ∧ ¬ block.isEnd) →
    (fileLines (outText blocks)).length < fuel →
    (blocksOf fuel (fileLines (outText blocks)) = (blocks, none) ↔
      ∀ block ∈ blocks, Plain block) := by
  intro blocks
  induction blocks with
  | nil =>
    intro fuel _ hfuel
    obtain ⟨fuel, rfl⟩ : ∃ n, fuel = n + 1 := ⟨fuel - 1, by omega⟩
    exact iff_of_true rfl (by simp)
  | cons block blocks ih =>
    intro fuel hp hfuel
    obtain ⟨fuel, rfl⟩ : ∃ n, fuel = n + 1 := ⟨fuel - 1, by omega⟩
    obtain ⟨hparsed, hend⟩ := hp block List.mem_cons_self
    have hrest := ih fuel fun b hb => hp b (List.mem_cons_of_mem block hb)
    rw [blocksOf]
    by_cases hplain : Plain block
    · have hread := parseTranslation_blockText hparsed hplain (follows_tailText blocks)
      have hshort := parseTranslation_length hread hend
      change parseTranslation (fileLines (outText (block :: blocks))) = _ at hread
      change _ < (fileLines (outText (block :: blocks))).length at hshort
      rw [hread]
      simp only
      rw [if_neg hend, Prod.mk.injEq, List.cons.injEq, and_iff_right rfl, ← Prod.mk.injEq,
        hrest (by omega), List.forall_mem_cons, and_iff_right hplain]
    · refine iff_of_false ?_ fun h => hplain (h block List.mem_cons_self)
      intro heq
      cases hread : parseTranslation (fileLines (outText (block :: blocks))) with
      | error e =>
        rw [hread] at heq
        cases heq
      | ok r =>
        obtain ⟨b, g⟩ := r
        rw [hread] at heq
        simp only at heq
        by_cases hb : b.isEnd
        · rw [if_pos hb] at heq
          cases heq
        · rw [if_neg hb, Prod.mk.injEq, List.cons.injEq] at heq
          obtain ⟨⟨rfl, _⟩, _⟩ := heq
          obtain ⟨hcomments, hmessage⟩ := parseTranslation_closed (outText_closed _) hread
          apply hplain
          refine ⟨?_, hcomments, hmessage⟩
          intro hnil
          obtain ⟨g', hblank⟩ := parseTranslation_no_comments hnil (tailText blocks)
          change parseTranslation (fileLines (outText (b :: blocks))) = _ at hblank
          rw [hread] at hblank
          cases hblank
          exact hb ⟨rfl, rfl⟩

end Merge
end Po
end I18nZh
