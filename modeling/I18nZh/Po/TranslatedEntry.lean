import I18nZh.Po.Lossless
import I18nZh.Po.Translated

/-!
# An entry and its names

What the loop does with the lines of one entry.  The names of the comment wait in
`subres`, and two kinds of lines behind it drop them.
-/

namespace I18nZh
namespace Po
namespace Translated

open Merge (chomp)

/-! ## Entries -/

/-- A string of quoted lines, by what stands between the quotes. -/
structure Quoted where
  first : Text
  conts : List Text
  first_head : first.head? ≠ some '"'

namespace Quoted

variable (q : Quoted)

def quote (body : Text) : Text := '"' :: (body ++ ['"'])

def lines (keyword : Text) : List Text := (keyword ++ quote q.first) :: q.conts.map quote

def IsEmpty : Prop := q.first = [] ∧ ∀ c ∈ q.conts, c = []

instance : Decidable q.IsEmpty := inferInstanceAs (Decidable (_ ∧ _))

end Quoted

/-- An entry with a comment that lists its names, the words between the commas. -/
structure Live where
  words : List Text
  comments : List Text
  msgid : Quoted
  msgstr : Quoted
  words_ne : words ≠ []
  word : ∀ w ∈ words, ',' ∉ w ∧ '\n' ∉ w ∧ text "name for " <+: strip w
  comment : ∀ c ∈ comments, c.head? = some '#' ∧ ¬ text "#." <+: c

namespace Live

variable (entry : Live)

def namesLine : Text := text "#." ++ List.intercalate [','] entry.words

def lines : List Text :=
  entry.namesLine :: (entry.comments ++
    (entry.msgid.lines (text "msgid ") ++ entry.msgstr.lines (text "msgstr ")))

def names : List Text := entry.words.map fun w => (strip w).drop 9

/-- One of the flags is `fuzzy`. -/
def IsFuzzy : Prop :=
  ∃ c ∈ entry.comments, text "#," <+: c ∧ text "fuzzy" ∈ ((c.drop 2).splitOn ',').map strip

instance : Decidable entry.IsFuzzy := inferInstanceAs (Decidable (∃ c ∈ _, _))

def IsTranslated : Prop := ¬ entry.IsFuzzy ∧ ¬ entry.msgstr.IsEmpty

instance : Decidable entry.IsTranslated := inferInstanceAs (Decidable (_ ∧ _))

/-- No line that drops the names: none begins with `#, fuzzy`, and the first line of the
msgstr is not empty. -/
def IsKept : Prop := (∀ c ∈ entry.comments, ¬ text "#, fuzzy" <+: c) ∧ entry.msgstr.first ≠ []

instance : Decidable entry.IsKept := inferInstanceAs (Decidable (_ ∧ _))

/-- A blank stands behind the `#.`. -/
def IsSpaced : Prop := (entry.words.head?.bind List.head?).any isSpace

instance : Decidable entry.IsSpaced := inferInstanceAs (Decidable (_ = true))

end Live

/-! ## The names of a line -/

theorem not_startsWith {c d : Char} (h : c ≠ d) {p l : Text} : ¬ c :: p <+: d :: l :=
  fun hp => h (List.cons_prefix_cons.mp hp).1

theorem prefix_newline_iff {p : Text} (hp : '\n' ∉ p) (line : Text) :
    p <+: line ++ ['\n'] ↔ p <+: line := by
  rw [List.prefix_concat_iff]
  constructor
  · rintro (heq | h)
    · rw [heq] at hp
      exact absurd (List.mem_append_right line List.mem_cons_self) hp
    · exact h
  · exact Or.inr

theorem strip_newline (line : Text) : strip (line ++ ['\n']) = strip line := by
  unfold strip
  rw [List.dropWhile_append]
  by_cases hnil : line.dropWhile isSpace = []
  · rw [hnil]
    rfl
  · rw [if_neg (by simpa using hnil), List.rdropWhile_concat_pos _ _ _ rfl]

/-- A line feed at the end belongs to the last word. -/
theorem splitOn_newline (t : Text) : ∃ ws w, t.splitOn ',' = ws ++ [w] ∧
    (t ++ ['\n']).splitOn ',' = ws ++ [w ++ ['\n']] := by
  induction t with
  | nil => exact ⟨[], [], rfl, rfl⟩
  | cons c t ih =>
    obtain ⟨ws, w, ht, hnewline⟩ := ih
    rw [List.cons_append, List.splitOn_cons_eq_if_modifyHead, List.splitOn_cons_eq_if_modifyHead,
      ht, hnewline]
    by_cases hc : c == ','
    · rw [if_pos hc, if_pos hc]
      exact ⟨[] :: ws, w, rfl, rfl⟩
    · rw [if_neg hc, if_neg hc]
      cases ws with
      | nil => exact ⟨[], c :: w, rfl, rfl⟩
      | cons v ws => exact ⟨(c :: v) :: ws, w, rfl, rfl⟩

theorem foo_eq {line : Text} {words : List Text}
    (h : ((line.drop 3).splitOn ',').map strip = words) :
    foo line = if ∀ x ∈ words, text "name for " <+: x then .ok (words.map (List.drop 9))
      else .error .assertionError := by
  rw [← h]
  rfl

theorem foo_newline {line : Text} (h : text "#." <+: line) : foo (line ++ ['\n']) = foo line := by
  obtain ⟨t, rfl⟩ := h
  have hwords : (((text "#." ++ t ++ ['\n']).drop 3).splitOn ',').map strip =
      (((text "#." ++ t).drop 3).splitOn ',').map strip := by
    cases t with
    | nil => rfl
    | cons c t =>
      show ((t ++ ['\n']).splitOn ',').map strip = (t.splitOn ',').map strip
      obtain ⟨ws, w, ht, hnewline⟩ := splitOn_newline t
      rw [ht, hnewline, List.map_append, List.map_append, List.map_singleton,
        List.map_singleton, strip_newline]
  rw [foo_eq hwords, foo_eq rfl]

/-! ## One line -/

/-- A line that drops the names that wait. -/
def Drops (line : Text) : Prop := text "#, fuzzy" <+: line ∨ text "msgstr \"\"" <+: line

instance (line : Text) : Decidable (Drops line) := inferInstanceAs (Decidable (_ ∨ _))

theorem readLine_of_not_names {line : Text} (h : ¬ text "#." <+: line) (st : State) :
    readLine st line = .ok ⟨st.res, if Drops line then [] else st.subres⟩ := by
  rw [readLine, if_neg h]
  by_cases hfuzzy : text "#, fuzzy" <+: line
  · have hdrops : Drops line := Or.inl hfuzzy
    rw [if_pos hfuzzy, if_pos hdrops]
    rfl
  · rw [if_neg hfuzzy]
    by_cases hempty : text "msgstr \"\"" <+: line
    · have hdrops : Drops line := Or.inr hempty
      rw [if_pos hempty, if_pos hdrops]
      rfl
    · have hdrops : ¬ Drops line := fun hdrops => hdrops.elim hfuzzy hempty
      rw [if_neg hempty, if_neg hdrops]
      rfl

theorem readLine_newline (line : Text) (st : State) :
    readLine st (line ++ ['\n']) = readLine st line := by
  have hiff : text "#." <+: line ++ ['\n'] ↔ text "#." <+: line :=
    prefix_newline_iff (by decide) line
  have hdrops : Drops (line ++ ['\n']) ↔ Drops line :=
    or_congr (prefix_newline_iff (by decide) line) (prefix_newline_iff (by decide) line)
  by_cases h : text "#." <+: line
  · rw [readLine, readLine, if_pos h, if_pos (hiff.mpr h), foo_newline h]
  · rw [readLine_of_not_names h, readLine_of_not_names (mt hiff.mp h)]
    simp only [hdrops]

theorem readLine_chomp (line : Text) (st : State) :
    readLine st (chomp line) = readLine st line := by
  unfold chomp
  by_cases h : line.getLast? = some '\n'
  · obtain ⟨m, rfl⟩ := List.getLast?_eq_some_iff.mp h
    rw [if_pos h, List.dropLast_concat, readLine_newline]
  · rw [if_neg h]

/-! ## The names of an entry -/

theorem strip_prefix_of_not_space {c : Char} (hc : ¬ isSpace c) (w : Text) :
    strip (c :: w) <+: c :: w := by
  rw [strip, List.dropWhile_cons_of_neg hc]
  exact List.rdropWhile_prefix isSpace (c :: w)

namespace Live

variable (entry : Live)

/-- The words `foo` sees: it takes a character away behind the `#.`. -/
theorem words_cons : ∃ c w ws, entry.words = (c :: w) :: ws ∧
    (entry.namesLine.drop 3).splitOn ',' = w :: ws := by
  obtain ⟨words, -, -, -, hne, hword, -⟩ := entry
  cases words with
  | nil => exact absurd rfl hne
  | cons w ws =>
    obtain ⟨hcomma, -, hname⟩ := hword w List.mem_cons_self
    cases w with
    | nil => exact absurd hname (by decide)
    | cons c w =>
      refine ⟨c, w, ws, rfl, ?_⟩
      have hdrop : (text "#." ++ List.intercalate [','] ((c :: w) :: ws)).drop 3 =
          List.intercalate [','] (w :: ws) := by
        rw [List.intercalate_cons_cons_left]
        rfl
      show ((text "#." ++ List.intercalate [','] ((c :: w) :: ws)).drop 3).splitOn ',' = w :: ws
      rw [hdrop]
      apply List.splitOn_intercalate
      · intro v hv
        rcases List.mem_cons.mp hv with rfl | hv
        · exact fun hmem => hcomma (List.mem_cons_of_mem c hmem)
        · exact (hword v (List.mem_cons_of_mem _ hv)).1
      · exact List.cons_ne_nil w ws

theorem foo_namesLine : foo entry.namesLine =
    if entry.IsSpaced then .ok entry.names else .error .assertionError := by
  obtain ⟨c, w, ws, hwords, hsplit⟩ := entry.words_cons
  have hnamed : ∀ v ∈ (c :: w) :: ws, text "name for " <+: strip v := by
    intro v hv
    rw [← hwords] at hv
    exact (entry.word v hv).2.2
  have hspaced : entry.IsSpaced ↔ isSpace c := by simp [IsSpaced, hwords]
  rw [foo_eq (congrArg (List.map strip) hsplit)]
  by_cases hc : isSpace c
  · have hstrip : strip w = strip (c :: w) := by
      rw [strip, strip, List.dropWhile_cons_of_pos hc]
    have hmap : (w :: ws).map strip = entry.words.map strip := by
      rw [hwords, List.map_cons, List.map_cons, hstrip]
    rw [hmap, if_pos, if_pos (hspaced.mpr hc), List.map_map]
    · rfl
    · intro x hx
      obtain ⟨v, hv, rfl⟩ := List.mem_map.mp hx
      exact (entry.word v hv).2.2
  · rw [if_neg, if_neg (mt hspaced.mp hc)]
    intro hall
    -- the word begins with "name", and what is left of it with "ame"
    have hname := (hnamed (c :: w) List.mem_cons_self).trans (strip_prefix_of_not_space hc w)
    obtain ⟨t, ht⟩ := hname
    have hw : w = text "ame for " ++ t := (List.cons.inj ht).2.symm
    have hrest : strip w <+: w := by
      rw [hw]
      exact strip_prefix_of_not_space (by decide) _
    have hfalse := (hall (strip w) List.mem_cons_self).trans hrest
    rw [hw] at hfalse
    exact not_startsWith (by decide) hfalse

end Live

/-! ## The lines behind the names -/

theorem Quoted.lines_no_names (q : Quoted) {kw : Text} (hkw : kw.head? = some 'm') :
    ∀ l ∈ q.lines kw, ¬ text "#." <+: l := by
  cases kw with
  | nil => cases hkw
  | cons k kw =>
    obtain rfl : k = 'm' := Option.some.inj hkw
    intro l hl hnames
    rcases List.mem_cons.mp hl with rfl | hl
    · exact not_startsWith (by decide) hnames
    · obtain ⟨c, _, rfl⟩ := List.mem_map.mp hl
      exact not_startsWith (by decide) hnames

theorem quote_not_drops (body : Text) : ¬ Drops (Quoted.quote body) := by
  rintro (h | h)
  · exact not_startsWith (by decide) h
  · exact not_startsWith (by decide) h

theorem msgid_not_drops (q : Quoted) : ∀ l ∈ q.lines (text "msgid "), ¬ Drops l := by
  intro l hl
  rcases List.mem_cons.mp hl with rfl | hl
  · rintro (h | h)
    · exact not_startsWith (by decide) h
    · have hcommon : text "msg" ++ text "str \"\"" <+: text "msg" ++ (text "id " ++ _) := h
      rw [List.prefix_append_right_inj] at hcommon
      exact not_startsWith (by decide) hcommon
  · obtain ⟨c, _, rfl⟩ := List.mem_map.mp hl
    exact quote_not_drops c

/-- A msgstr that is empty in its first line drops the names. -/
theorem msgstr_drops_iff (q : Quoted) :
    (∃ l ∈ q.lines (text "msgstr "), Drops l) ↔ q.first = [] := by
  have hfirst : Drops (text "msgstr " ++ Quoted.quote q.first) ↔ q.first = [] := by
    constructor
    · rintro (h | h)
      · exact absurd h (not_startsWith (by decide))
      · have hcommon : text "msgstr \"" ++ ['"'] <+: text "msgstr \"" ++ (q.first ++ ['"']) := h
        rw [List.prefix_append_right_inj] at hcommon
        cases hq : q.first with
        | nil => rfl
        | cons c cs =>
          rw [hq] at hcommon
          have hquote := (List.cons_prefix_cons.mp hcommon).1
          have hhead := q.first_head
          rw [hq, ← hquote] at hhead
          exact absurd rfl hhead
    · intro h
      rw [h]
      exact Or.inr (List.prefix_refl _)
  constructor
  · rintro ⟨l, hl, hdrops⟩
    rcases List.mem_cons.mp hl with rfl | hl
    · exact hfirst.mp hdrops
    · obtain ⟨c, _, rfl⟩ := List.mem_map.mp hl
      exact absurd hdrops (quote_not_drops c)
  · intro h
    exact ⟨_, List.mem_cons_self, hfirst.mpr h⟩

theorem blank_head {l : Text} (h : strip l = []) {p : Text} {c : Char} (hc : ¬ isSpace c) :
    ¬ c :: p <+: l := by
  rintro ⟨t, rfl⟩
  exact hc (Merge.strip_eq_nil_iff.mp h c List.mem_cons_self)

namespace Live

variable (entry : Live)

theorem rest_no_names {gap : List Text} (hgap : ∀ l ∈ gap, strip l = []) :
    ∀ l ∈ entry.comments ++ (entry.msgid.lines (text "msgid ") ++
      entry.msgstr.lines (text "msgstr ")) ++ gap, ¬ text "#." <+: l := by
  intro l hl
  simp only [List.mem_append] at hl
  rcases hl with (hl | hl | hl) | hl
  · exact (entry.comment l hl).2
  · exact entry.msgid.lines_no_names rfl l hl
  · exact entry.msgstr.lines_no_names rfl l hl
  · exact blank_head (hgap l hl) (by decide)

theorem rest_drops_iff {gap : List Text} (hgap : ∀ l ∈ gap, strip l = []) :
    (∃ l ∈ entry.comments ++ (entry.msgid.lines (text "msgid ") ++
      entry.msgstr.lines (text "msgstr ")) ++ gap, Drops l) ↔ ¬ entry.IsKept := by
  have hcomments : (∃ l ∈ entry.comments, Drops l) ↔
      ∃ l ∈ entry.comments, text "#, fuzzy" <+: l := by
    constructor
    · rintro ⟨l, hl, hdrops | ⟨t, rfl⟩⟩
      · exact ⟨l, hl, hdrops⟩
      · have hhead : 'm' = '#' := Option.some.inj (entry.comment _ hl).1
        exact absurd hhead (by decide)
    · rintro ⟨l, hl, hdrops⟩
      exact ⟨l, hl, Or.inl hdrops⟩
  have hmsgid : ¬ ∃ l ∈ entry.msgid.lines (text "msgid "), Drops l := by
    rintro ⟨l, hl, hdrops⟩
    exact msgid_not_drops entry.msgid l hl hdrops
  have hblank : ¬ ∃ l ∈ gap, Drops l := by
    rintro ⟨l, hl, hdrops | hdrops⟩
    · exact blank_head (hgap l hl) (by decide) hdrops
    · exact blank_head (hgap l hl) (by decide) hdrops
  simp only [List.mem_append, or_and_right, exists_or, hcomments, hmsgid, hblank,
    msgstr_drops_iff, false_or, or_false]
  rw [IsKept, not_and_or, not_ne_iff]
  push Not
  rfl

end Live

/-! ## A run over lines -/

theorem foldlM_chomp (ls : List Text) (st : State) :
    (ls.map chomp).foldlM readLine st = ls.foldlM readLine st := by
  rw [List.foldlM_map]
  congr 1
  funext st line
  exact readLine_chomp line st

/-- Lines without names: some of them may drop those that wait. -/
theorem foldlM_of_not_names : ∀ {ls : List Text} (st : State), (∀ l ∈ ls, ¬ text "#." <+: l) →
    ls.foldlM readLine st = .ok ⟨st.res, if ∃ l ∈ ls, Drops l then [] else st.subres⟩ := by
  intro ls
  induction ls with
  | nil =>
    intro st _
    rw [if_neg (by simp)]
    rfl
  | cons l ls ih =>
    intro st h
    rw [List.foldlM_cons, readLine_of_not_names (h l List.mem_cons_self)]
    show ls.foldlM readLine ⟨st.res, if Drops l then [] else st.subres⟩ = _
    rw [ih _ fun m hm => h m (List.mem_cons_of_mem l hm)]
    by_cases hl : Drops l
    · simp [hl]
    · simp [hl]

/-- What waits behind an entry. -/
def Live.waiting (entry : Live) : List Text := if entry.IsKept then entry.names else []

/-- The names that wait are taken when the next names come. -/
theorem foldlM_entry (entry : Live) {gap : List Text} (hgap : ∀ l ∈ gap, strip l = [])
    (st : State) : (entry.lines ++ gap).foldlM readLine st =
      if entry.IsSpaced then .ok ⟨st.res ++ st.subres, entry.waiting⟩
      else .error .assertionError := by
  have hnames : text "#." <+: entry.namesLine := List.prefix_append _ _
  rw [Live.lines, List.cons_append, List.foldlM_cons, readLine, if_pos hnames, entry.foo_namesLine]
  by_cases hspaced : entry.IsSpaced
  · rw [if_pos hspaced, if_pos hspaced]
    show List.foldlM readLine ⟨st.res ++ st.subres, entry.names⟩ _ = _
    rw [foldlM_of_not_names _ (entry.rest_no_names hgap)]
    simp only [entry.rest_drops_iff hgap, Live.waiting, ite_not]
  · rw [if_neg hspaced, if_neg hspaced]
    rfl

end Translated
end Po
end I18nZh
