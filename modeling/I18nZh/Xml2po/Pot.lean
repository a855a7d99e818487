import I18nZh.Po.Canonical
import I18nZh.Xml2po.MessageOutput

/-!
# The file of the messages, read again

`outputAll` writes a PO file, and what the loop of `po-merge.py` reads in it is one
block for the header and one for each message.
-/

namespace I18nZh
namespace Xml2po

open Po Po.Merge
open Replace

/-! ## Lists in a line -/

theorem eraseDups_concat {α : Type} [BEq α] [LawfulBEq α] (l : List α) (a : α) :
    (l ++ [a]).eraseDups = if a ∈ l.eraseDups then l.eraseDups else l.eraseDups ++ [a] := by
  rw [List.eraseDups_append]
  by_cases h : a ∈ l
  · have hnone : [a].removeAll l = [] := by
      rw [List.removeAll, List.filter_cons_of_neg (by simpa using h), List.filter_nil]
    rw [if_pos (List.mem_eraseDups.mpr h), hnone, List.eraseDups_nil, List.append_nil]
  · have hone : [a].removeAll l = [a] := by
      rw [List.removeAll, List.filter_cons_of_pos (by simpa using h), List.filter_nil]
    rw [if_neg fun hm => h (List.mem_eraseDups.mp hm), hone]
    rfl

/-- Each item with the separator behind it, and the last separator taken away. -/
theorem take_separated {α : Type} (f : α → Text) (sep : Text) (l : List α) :
    (l.flatMap fun a => f a ++ sep).take ((l.flatMap fun a => f a ++ sep).length - sep.length) =
      List.intercalate sep (l.map f) := by
  have hsplit : l.flatMap (fun a => f a ++ sep) =
      List.intercalate sep (l.map f) ++ if l = [] then [] else sep := by
    induction l with
    | nil => rfl
    | cons a l ih =>
      cases l with
      | nil => simp
      | cons b l =>
        have hstep : List.intercalate sep ((a :: b :: l).map f) =
            f a ++ sep ++ List.intercalate sep ((b :: l).map f) := by
          simp [List.intercalate]
        rw [List.flatMap_cons, ih, hstep, if_neg (List.cons_ne_nil _ _),
          if_neg (List.cons_ne_nil _ _)]
        simp only [List.append_assoc]
  rw [hsplit]
  by_cases hnil : l = []
  · rw [if_pos hnil, hnil]
    simp
  · rw [if_neg hnil, List.length_append, Nat.add_sub_cancel, List.take_left']
    rfl

namespace MessageOutput

/-- A tag in the list of tags. -/
def tagItem (tag : Option Text) : Text := text "(" ++ tagName tag ++ text ")"

def referenceItem (reference : Reference) : Text :=
  reference.filename ++ text ":" ++ Nat.toDigits 10 reference.lineno

/-- Each tag once, in the order in which they come. -/
theorem tagLoop_eq (linenos : List Reference) : tagLoop linenos =
    ((linenos.map Reference.tag).eraseDups,
      (linenos.map Reference.tag).eraseDups.flatMap fun tag => tagItem tag ++ text ", ") := by
  induction linenos using List.reverseRecOn with
  | nil => rfl
  | append_singleton linenos reference ih =>
    rw [tagLoop] at ih ⊢
    rw [List.foldl_concat, ih, List.map_append, List.map_singleton, eraseDups_concat]
    simp only
    split_ifs
    · rfl
    · rw [List.flatMap_append, List.flatMap_singleton, tagItem]
      simp [text]

theorem references_eq (linenos : List Reference) : references linenos =
    linenos.flatMap fun reference => referenceItem reference ++ text " " := by
  induction linenos using List.reverseRecOn with
  | nil => rfl
  | append_singleton linenos reference ih =>
    rw [references] at ih ⊢
    rw [List.foldl_concat, ih, List.flatMap_append, List.flatMap_singleton, referenceItem]

/-! ## An entry -/

/-- The lines of a comment. -/
def commentLines (comment : Text) : List Text := (comment.splitOn '\n').map (text "#. " ++ ·)

theorem commentLines_text (comment : Text) :
    text "#. " ++ replace (text "\n") (text "\n#. ") comment ++ text "\n" =
      unlines (commentLines comment) := by
  have hline : text "\n" = ['\n'] := rfl
  rw [hline, replace_singleton]
  induction comment with
  | nil => rfl
  | cons c comment ih =>
    rw [commentLines, List.splitOn_cons_eq_if_modifyHead, List.flatMap_cons]
    by_cases hc : c = '\n'
    · rw [if_pos hc, if_pos (by simpa using hc), List.map_cons]
      show _ = text "#. " ++ [] ++ ['\n'] ++ unlines (commentLines comment)
      rw [← ih]
      simp [text]
    · rw [if_neg hc, if_neg (by simpa using hc)]
      obtain ⟨l, ls, hls⟩ := List.exists_cons_of_ne_nil (List.splitOn_ne_nil '\n' comment)
      rw [commentLines, hls] at ih
      rw [hls]
      have hih : comment.flatMap (fun d => if d = '\n' then text "\n#. " else [d]) ++ ['\n'] =
          l ++ ['\n'] ++ unlines (ls.map (text "#. " ++ ·)) := by
        refine List.append_cancel_left (show text "#. " ++ _ = text "#. " ++ _ from ?_)
        rw [← List.append_assoc, ih]
        simp [unlines]
      show text "#. " ++ c :: (comment.flatMap _) ++ ['\n'] =
        text "#. " ++ (c :: l) ++ ['\n'] ++ unlines (ls.map (text "#. " ++ ·))
      rw [List.append_assoc, List.cons_append, hih]
      simp

theorem newline_not_mem_splitOn : ∀ {s : Text}, ∀ part ∈ s.splitOn '\n', '\n' ∉ part := by
  intro s
  induction s with
  | nil => simp
  | cons c s ih =>
    intro part hpart
    rw [List.splitOn_cons_eq_if_modifyHead] at hpart
    split_ifs at hpart with hc
    · rcases List.mem_cons.mp hpart with rfl | hpart
      · exact List.not_mem_nil
      · exact ih part hpart
    · obtain ⟨l, ls, hls⟩ := List.exists_cons_of_ne_nil (List.splitOn_ne_nil '\n' s)
      rw [hls, List.modifyHead_cons] at hpart
      rw [hls] at ih
      rcases List.mem_cons.mp hpart with rfl | hpart
      · intro hmem
        rcases List.mem_cons.mp hmem with heq | hmem
        · exact hc (beq_iff_eq.mpr heq.symm)
        · exact ih l List.mem_cons_self hmem
      · exact ih part (List.mem_cons_of_mem _ hpart)

theorem commentLines_isComment (comment : Text) : ∀ l ∈ commentLines comment, IsComment l := by
  intro l hl
  obtain ⟨part, hpart, rfl⟩ := List.mem_map.mp hl
  refine ⟨rfl, ?_⟩
  intro hmem
  rcases List.mem_append.mp hmem with hmem | hmem
  · exact absurd hmem (by decide)
  · exact newline_not_mem_splitOn part hpart hmem

/-- The comments of an entry: a comment of the document, the tags, the references, and
whether the spaces stay as they are. -/
def potComments (comment : Option Text) (linenos : List Reference) (nowrap : Bool) : List Text :=
  (comment.map commentLines).getD [] ++
    [text "#." ++ List.intercalate (text ", ") ((linenos.map Reference.tag).eraseDups.map tagItem),
      text "#: " ++ List.intercalate (text " ") (linenos.map referenceItem)] ++
    if nowrap then [text "#, no-wrap"] else []

/-- A string as it stands in the file. -/
def quoted (s : Text) : Text := '"' :: (s ++ ['"'])

section Entry

variable (self : MessageOutput) (k translation : Text)

/-- The block of a message. -/
def entryBlock : Block :=
  ⟨potComments (self.comments k) (self.linenos k) (self.nowrap k),
    some (quoted k, quoted (if translation = k then [] else translation))⟩

theorem outputComment_text (comment : Option Text) : outputComment comment =
    unlines ((comment.map commentLines).getD []) := by
  cases comment with
  | none => rfl
  | some comment => exact commentLines_text comment

theorem outputEntry_text : self.outputEntry k translation =
    unlines (potComments (self.comments k) (self.linenos k) (self.nowrap k) ++
      [text "msgid " ++ quoted k,
        text "msgstr " ++ quoted (if translation = k then [] else translation)]) ++ ['\n'] := by
  have htags : (tagLoop (self.linenos k)).2.take ((tagLoop (self.linenos k)).2.length - 2) =
      List.intercalate (text ", ")
        (((self.linenos k).map Reference.tag).eraseDups.map tagItem) := by
    rw [tagLoop_eq]
    exact take_separated tagItem (text ", ") _
  have hrefs : (references (self.linenos k)).take ((references (self.linenos k)).length - 1) =
      List.intercalate (text " ") ((self.linenos k).map referenceItem) := by
    rw [references_eq]
    exact take_separated referenceItem (text " ") _
  have hnowrap : (if self.nowrap k then text "#, no-wrap\n" else []) =
      unlines (if self.nowrap k then [text "#, no-wrap"] else []) := by
    cases self.nowrap k <;> rfl
  rw [outputEntry, outputComment_text, htags, hrefs, hnowrap, potComments, unlines_append,
    unlines_append, unlines_append]
  simp [unlines, quoted, text]

end Entry

/-! ## Entries with an empty line behind each -/

def spacedText (entries : List Entry) : Text :=
  entries.flatMap fun entry => unlines entry.lines ++ ['\n']

theorem blocks_spaced (entries : List Entry) :
    blocks (beforeGap (entries.map fun entry => (entry, [['\n']]))) =
      entries.map Entry.block := by
  induction entries with
  | nil => rfl
  | cons entry entries ih =>
    have hgap : ((entry, [['\n']]) : Entry × List Text).2.length ≤ 1 := Nat.le_refl 1
    rw [List.map_cons, beforeGap, if_pos hgap, List.map_cons, ← ih]
    rfl

theorem readBlocks_spacedText (entries : List Entry) :
    readBlocks (spacedText entries) = (entries.map Entry.block, none) := by
  have hlines : fileLines (spacedText entries) =
      (entries.map fun entry => (entry, [['\n']])).flatMap entryLines := by
    induction entries with
    | nil => rfl
    | cons entry entries ih =>
      rw [spacedText, List.flatMap_cons, List.append_assoc,
        fileLines_unlines entry.newline_not_mem, List.map_cons, List.flatMap_cons, ← ih]
      simp only [entryLines, List.append_assoc]
      rfl
  have hgaps : ∀ e ∈ entries.map (fun entry => (entry, [['\n']])), e.2 = [['\n']] := by
    rw [List.forall_mem_map]
    intro _ _
    rfl
  have hfile : PoFile (spacedText entries) [] (entries.map fun entry => (entry, [['\n']])) := by
    refine ⟨hlines, fun l hl => absurd hl List.not_mem_nil, ?_, ?_⟩
    · intro e he l hl
      rw [hgaps e he, List.mem_singleton] at hl
      rw [hl]
      decide
    · intro e he
      rw [hgaps e (List.mem_of_mem_dropLast he)]
      exact List.cons_ne_nil _ _
  rw [hfile.readBlocks, before, if_pos rfl, blocks_spaced]

theorem not_mem_intercalate {α : Type} {c : Char} {f : α → Text} {sep : Text} {l : List α}
    (hsep : c ∉ sep) (h : ∀ a ∈ l, c ∉ f a) : c ∉ List.intercalate sep (l.map f) := by
  rw [← take_separated f sep]
  intro hmem
  obtain ⟨a, ha, hmem⟩ := List.mem_flatMap.mp (List.mem_of_mem_take hmem)
  rcases List.mem_append.mp hmem with hmem | hmem
  · exact h a ha hmem
  · exact hsep hmem

/-! ## The header -/

def headerLines (date : Text) : List Text :=
  [text "\"Project-Id-Version: PACKAGE VERSION\\n\"",
    text "\"POT-Creation-Date: " ++ date ++ text "\\n\"",
    text "\"PO-Revision-Date: YEAR-MO-DA HO:MI+ZONE\\n\"",
    text "\"Last-Translator: FULL NAME <EMAIL@ADDRESS>\\n\"",
    text "\"Language-Team: LANGUAGE <LL@li.org>\\n\"",
    text "\"MIME-Version: 1.0\\n\"",
    text "\"Content-Type: text/plain; charset=UTF-8\\n\"",
    text "\"Content-Transfer-Encoding: 8bit\\n\""]

def headerBlock (date : Text) : Block :=
  ⟨[], some (emptyString, emptyString ++ continued (headerLines date))⟩

theorem header_entry {date : Text} (h : '\n' ∉ date) : ∃ entry : Entry,
    entry.block = headerBlock date ∧ outputHeader date = unlines entry.lines ++ ['\n'] := by
  have hhead : ∀ l ∈ headerLines date, l.head? = some '"' := by
    simp [headerLines, text]
  have hline : ∀ l ∈ headerLines date, '\n' ∉ l := by
    simp [headerLines, text, h]
  refine ⟨⟨[], some (⟨emptyString, [], rfl, rfl, by decide, by simp, by simp⟩,
    ⟨emptyString, headerLines date, rfl, rfl, by decide, hhead, hline⟩), by simp,
    Or.inr (Option.some_ne_none _)⟩, rfl, ?_⟩
  have hid : text "msgid \"\"\n" = text "msgid " ++ emptyString ++ ['\n'] := rfl
  have hstr : text "msgstr \"\"\n" = text "msgstr " ++ emptyString ++ ['\n'] := rfl
  have h₁ : text "\"Project-Id-Version: PACKAGE VERSION\\n\"\n" =
      text "\"Project-Id-Version: PACKAGE VERSION\\n\"" ++ ['\n'] := by simp [text]
  have h₂ : text "\\n\"\n" = text "\\n\"" ++ ['\n'] := rfl
  have h₃ : text "\"PO-Revision-Date: YEAR-MO-DA HO:MI+ZONE\\n\"\n" =
      text "\"PO-Revision-Date: YEAR-MO-DA HO:MI+ZONE\\n\"" ++ ['\n'] := by simp [text]
  have h₄ : text "\"Last-Translator: FULL NAME <EMAIL@ADDRESS>\\n\"\n" =
      text "\"Last-Translator: FULL NAME <EMAIL@ADDRESS>\\n\"" ++ ['\n'] := by simp [text]
  have h₅ : text "\"Language-Team: LANGUAGE <LL@li.org>\\n\"\n" =
      text "\"Language-Team: LANGUAGE <LL@li.org>\\n\"" ++ ['\n'] := by simp [text]
  have h₆ : text "\"MIME-Version: 1.0\\n\"\n" =
      text "\"MIME-Version: 1.0\\n\"" ++ ['\n'] := by simp [text]
  have h₇ : text "\"Content-Type: text/plain; charset=UTF-8\\n\"\n" =
      text "\"Content-Type: text/plain; charset=UTF-8\\n\"" ++ ['\n'] := by simp [text]
  have h₈ : text "\"Content-Transfer-Encoding: 8bit\\n\"\n" =
      text "\"Content-Transfer-Encoding: 8bit\\n\"" ++ ['\n'] := by simp [text]
  have hend : text "\n" = ['\n'] := rfl
  rw [outputHeader, hid, hstr, h₁, h₂, h₃, h₄, h₅, h₆, h₇, h₈, hend]
  show _ = unlines ((text "msgid " ++ emptyString) :: (text "msgstr " ++ emptyString) ::
    headerLines date) ++ ['\n']
  simp only [unlines, headerLines, List.flatMap_cons, List.flatMap_nil, List.append_assoc,
    List.append_nil]

/-! ## The file -/

/-- Nothing that is written in one line has a line feed in it. -/
structure OneLine (msg : MessageOutput) : Prop where
  messages : ∀ k ∈ msg.messages, '\n' ∉ k
  translations : ∀ t ∈ msg.translations, '\n' ∉ t
  linenos : ∀ k, ∀ reference ∈ msg.linenos k, '\n' ∉ reference.filename ∧
    ∀ tag ∈ reference.tag, '\n' ∉ tag

theorem newline_not_mem_tagItem {tag : Option Text} (h : ∀ t ∈ tag, '\n' ∉ t) :
    '\n' ∉ tagItem tag := by
  have hname : '\n' ∉ tagName tag := by
    cases tag with
    | none => decide
    | some t => exact h t rfl
  simp [tagItem, text, hname]

theorem newline_not_mem_referenceItem {reference : Reference} (h : '\n' ∉ reference.filename) :
    '\n' ∉ referenceItem reference := by
  have hdigits : '\n' ∉ Nat.toDigits 10 reference.lineno := by
    intro hmem
    exact absurd (Nat.isDigit_of_mem_toDigits (by decide) (by decide) hmem) (by decide)
  simp [referenceItem, text, h, hdigits]

section File

variable {msg : MessageOutput} (h : msg.OneLine) (k : Text)

include h

theorem OneLine.potComments : ∀ c ∈ potComments (msg.comments k) (msg.linenos k)
    (msg.nowrap k), IsComment c := by
  have htags : '\n' ∉ List.intercalate (text ", ")
      (((msg.linenos k).map Reference.tag).eraseDups.map tagItem) := by
    apply not_mem_intercalate (by decide)
    intro tag htag
    obtain ⟨reference, hreference, rfl⟩ := List.mem_map.mp (List.mem_eraseDups.mp htag)
    exact newline_not_mem_tagItem (h.linenos k reference hreference).2
  have hrefs : '\n' ∉ List.intercalate (text " ") ((msg.linenos k).map referenceItem) := by
    apply not_mem_intercalate (by decide)
    intro reference hreference
    exact newline_not_mem_referenceItem (h.linenos k reference hreference).1
  intro c hc
  simp only [MessageOutput.potComments, List.mem_append, List.mem_cons, List.not_mem_nil,
    or_false] at hc
  rcases hc with (hc | rfl | rfl) | hc
  · cases hcomment : msg.comments k with
    | none =>
      rw [hcomment] at hc
      cases hc
    | some comment =>
      rw [hcomment] at hc
      exact commentLines_isComment comment c hc
  · exact ⟨rfl, fun hmem => htags ((List.mem_append.mp hmem).resolve_left (by decide))⟩
  · exact ⟨rfl, fun hmem => hrefs ((List.mem_append.mp hmem).resolve_left (by decide))⟩
  · split_ifs at hc
    · rw [List.mem_singleton.mp hc]
      decide
    · cases hc

/-- What is written for a message is an entry. -/
theorem OneLine.entry (hk : '\n' ∉ k) {translation : Text} (ht : '\n' ∉ translation) :
    ∃ entry : Entry, entry.block = msg.entryBlock k translation ∧
      msg.outputEntry k translation = unlines entry.lines ++ ['\n'] := by
  have htr : '\n' ∉ if translation = k then [] else translation := by
    split_ifs
    · exact List.not_mem_nil
    · exact ht
  have hid := isQuoted_quote k hk
  have hstr := isQuoted_quote _ htr
  refine ⟨oneLine _ (quoted k) (quoted _) (h.potComments k) hid hstr, ?_,
    msg.outputEntry_text k translation⟩
  show Block.mk _ (some (quoted k ++ [], quoted _ ++ [])) = _
  rw [List.append_nil, List.append_nil]
  rfl

theorem OneLine.entries : ∀ {pairs : List (Text × Text)},
    (∀ p ∈ pairs, '\n' ∉ p.1 ∧ '\n' ∉ p.2) → ∃ entries : List Entry,
      entries.map Entry.block = pairs.map (fun p => msg.entryBlock p.1 p.2) ∧
      pairs.flatMap (fun p => msg.outputEntry p.1 p.2) = spacedText entries := by
  intro pairs
  induction pairs with
  | nil =>
    intro _
    exact ⟨[], rfl, rfl⟩
  | cons p pairs ih =>
    intro hpairs
    rw [List.forall_mem_cons] at hpairs
    obtain ⟨entry, hblock, htext⟩ := h.entry p.1 hpairs.1.1 hpairs.1.2
    obtain ⟨entries, hblocks, htexts⟩ := ih hpairs.2
    refine ⟨entry :: entries, ?_, ?_⟩
    · rw [List.map_cons, List.map_cons, hblock, hblocks]
    · rw [List.flatMap_cons, htext, htexts]
      rfl

omit h

/-- The messages, each with the translation the loop takes for it. -/
def withTranslations (self : MessageOutput) : List Text → List Text → List (Text × Text)
  | [], _ => []
  | k :: messages, translations =>
    if self.doTranslations then
      (k, translations.head?.getD []) :: withTranslations self messages translations.tail
    else (k, []) :: withTranslations self messages translations

theorem outputEntries_eq (messages translations : List Text) :
    msg.outputEntries messages translations =
      (msg.withTranslations messages translations).flatMap fun p => msg.outputEntry p.1 p.2 := by
  induction messages generalizing translations with
  | nil => rfl
  | cons k messages ih =>
    rw [outputEntries, withTranslations]
    split_ifs
    · rw [ih, List.flatMap_cons]
    · rw [ih, List.flatMap_cons]

theorem withTranslations_mem {messages translations : List Text} {p : Text × Text}
    (hp : p ∈ msg.withTranslations messages translations) :
    p.1 ∈ messages ∧ (p.2 = [] ∨ p.2 ∈ translations) := by
  induction messages generalizing translations with
  | nil => cases hp
  | cons k messages ih =>
    rw [withTranslations] at hp
    split_ifs at hp
    · rcases List.mem_cons.mp hp with rfl | hp
      · refine ⟨List.mem_cons_self, ?_⟩
        cases translations with
        | nil => exact Or.inl rfl
        | cons t translations => exact Or.inr List.mem_cons_self
      · obtain ⟨hk, ht⟩ := ih hp
        exact ⟨List.mem_cons_of_mem _ hk, ht.imp_right List.mem_of_mem_tail⟩
    · rcases List.mem_cons.mp hp with rfl | hp
      · exact ⟨List.mem_cons_self, Or.inl rfl⟩
      · obtain ⟨hk, ht⟩ := ih hp
        exact ⟨List.mem_cons_of_mem _ hk, ht⟩

include h

/-- What is written is read again: the header, and one block for each message. -/
theorem OneLine.readBlocks {date : Text} (hdate : '\n' ∉ date) :
    Merge.readBlocks (msg.outputAll date) = (headerBlock date ::
      (msg.withTranslations msg.messages msg.translations).map fun p =>
        msg.entryBlock p.1 p.2, none) := by
  have hpairs : ∀ p ∈ msg.withTranslations msg.messages msg.translations,
      '\n' ∉ p.1 ∧ '\n' ∉ p.2 := by
    intro p hp
    obtain ⟨hk, ht⟩ := withTranslations_mem hp
    refine ⟨h.messages _ hk, ?_⟩
    rcases ht with ht | ht
    · rw [ht]
      exact List.not_mem_nil
    · exact h.translations _ ht
  obtain ⟨entries, hblocks, htexts⟩ := h.entries hpairs
  obtain ⟨header, hheader, htext⟩ := header_entry hdate
  rw [outputAll, outputEntries_eq, htexts, htext]
  show Merge.readBlocks (spacedText (header :: entries)) = _
  rw [readBlocks_spacedText, List.map_cons, hheader, hblocks]

end File

end MessageOutput

end Xml2po
end I18nZh
