import I18nZh.Po.Merge

/-!
# Blocks

What `parse_translation` takes from a file, and the lines it gives back what is in
them.
-/

namespace I18nZh
namespace Po
namespace Merge

open Lines

theorem strip_eq_nil_iff {line : Text} : strip line = [] ↔ ∀ c ∈ line, isSpace c := by
  rw [strip, List.rdropWhile_eq_nil_iff]
  constructor
  · intro h
    by_contra hno
    have hne : line.dropWhile isSpace ≠ [] := by
      intro hnil
      exact hno (List.dropWhile_eq_nil_iff.mp hnil)
    have hhead := List.head_dropWhile_not isSpace hne
    have := h _ (List.head_mem hne)
    rw [hhead] at this
    cases this
  · intro h
    rw [List.dropWhile_eq_nil_iff.mpr h]
    intro c hc
    cases hc

/-! ## Runs of lines -/

/-- The lines a loop stops at: none at the end of the file, or the line that ends it
and those behind. -/
def Stops (line : Text) (f tail : List Text) : Prop :=
  (line = [] ∧ f = [] ∧ tail = []) ∨ tail = line :: f

theorem parseComments_spec : ∀ {f comments : List Text} {cs : List Text} {line : Text}
    {f' : List Text}, parseComments f comments = (cs, line, f') →
    ∃ ls tail, f = ls ++ tail ∧ Stops line f' tail ∧ (∀ l ∈ ls, l.head? = some '#') ∧
      cs = comments ++ ls.map List.dropLast := by
  intro f
  induction f with
  | nil =>
    intro comments cs line f' h
    cases h
    exact ⟨[], [], rfl, Or.inl ⟨rfl, rfl, rfl⟩, by simp, by simp⟩
  | cons l f ih =>
    intro comments cs line f' h
    rw [parseComments] at h
    by_cases hblank : strip l = []
    · rw [if_pos hblank] at h
      cases h
      exact ⟨[], _, rfl, Or.inr rfl, by simp, by simp⟩
    · rw [if_neg hblank] at h
      by_cases hhash : l.head? = some '#'
      · rw [if_pos hhash] at h
        obtain ⟨ls, tail, rfl, hstop, hls, rfl⟩ := ih h
        refine ⟨l :: ls, tail, rfl, hstop, ?_, by simp⟩
        intro m hm
        rcases List.mem_cons.mp hm with rfl | hm
        · exact hhash
        · exact hls m hm
      · rw [if_neg hhash] at h
        cases h
        exact ⟨[], _, rfl, Or.inr rfl, by simp, by simp⟩

/-- What a run of lines adds to a string. -/
def continued (ls : List Text) : Text := ls.flatMap fun c => '\n' :: c

theorem parseMsgid_spec : ∀ {f : List Text} {msgid id line : Text} {f' : List Text},
    parseMsgid f msgid = .ok (id, line, f') →
    ∃ ls, f = ls ++ line :: f' ∧ (∀ l ∈ ls, l.head? = some '"') ∧
      id = msgid ++ continued (ls.map List.dropLast) := by
  intro f
  induction f with
  | nil =>
    intro msgid id line f' h
    cases h
  | cons l f ih =>
    intro msgid id line f' h
    rw [parseMsgid] at h
    by_cases hquote : l.head? ≠ some '"'
    · rw [if_pos hquote] at h
      cases h
      exact ⟨[], rfl, by simp, by simp [continued]⟩
    · rw [if_neg hquote] at h
      obtain ⟨ls, rfl, hls, rfl⟩ := ih h
      refine ⟨l :: ls, rfl, ?_, by simp [continued, text]⟩
      intro m hm
      rcases List.mem_cons.mp hm with rfl | hm
      · exact not_not.mp hquote
      · exact hls m hm

theorem parseMsgstr_spec : ∀ {f : List Text} {msgstr str line : Text} {f' : List Text},
    parseMsgstr f msgstr = (str, line, f') →
    ∃ ls tail, f = ls ++ tail ∧ Stops line f' tail ∧ (∀ l ∈ ls, l.head? = some '"') ∧
      str = msgstr ++ continued (ls.map List.dropLast) := by
  intro f
  induction f with
  | nil =>
    intro msgstr str line f' h
    cases h
    exact ⟨[], [], rfl, Or.inl ⟨rfl, rfl, rfl⟩, by simp, by simp [continued]⟩
  | cons l f ih =>
    intro msgstr str line f' h
    rw [parseMsgstr] at h
    by_cases hquote : l.head? ≠ some '"'
    · rw [if_pos hquote] at h
      cases h
      exact ⟨[], _, rfl, Or.inr rfl, by simp, by simp [continued]⟩
    · rw [if_neg hquote] at h
      obtain ⟨ls, tail, rfl, hstop, hls, rfl⟩ := ih h
      refine ⟨l :: ls, tail, rfl, hstop, ?_, by simp [continued, text]⟩
      intro m hm
      rcases List.mem_cons.mp hm with rfl | hm
      · exact not_not.mp hquote
      · exact hls m hm

/-! ## What is taken from a file -/

/-- The lines of msgid and msgstr, and what is behind them. -/
theorem parseMessage_cases {comments f g : List Text} {id : Text} {block : Block}
    (h : parseMessage comments id f = .ok (block, g)) :
    ∃ ids str strs line tail, opens (text "msgid \"") id ∧ opens (text "msgstr \"") str ∧
      (∀ l ∈ ids, l.head? = some '"') ∧ (∀ l ∈ strs, l.head? = some '"') ∧
      strip line = [] ∧ Stops line g tail ∧
      block = ⟨comments, some (id.dropLast.drop 6 ++ continued (ids.map List.dropLast),
        str.dropLast.drop 7 ++ continued (strs.map List.dropLast))⟩ ∧
      f = ids ++ str :: (strs ++ tail) := by
  rw [parseMessage] at h
  by_cases hid : ¬ opens (text "msgid \"") id
  · rw [if_pos hid] at h
    cases h
  rw [if_neg hid] at h
  obtain ⟨⟨msgid, str, f₁⟩, hm, h⟩ := bind_eq_ok h
  obtain ⟨ids, rfl, hids, rfl⟩ := parseMsgid_spec hm
  simp only at h
  by_cases hstr : ¬ opens (text "msgstr \"") str
  · rw [if_pos hstr] at h
    cases h
  rw [if_neg hstr] at h
  have hparse : parseMsgstr f₁ (str.dropLast.drop 7) =
      ((parseMsgstr f₁ (str.dropLast.drop 7)).1, (parseMsgstr f₁ (str.dropLast.drop 7)).2.1,
        (parseMsgstr f₁ (str.dropLast.drop 7)).2.2) := rfl
  obtain ⟨strs, tail, rfl, hstop, hstrs, hmsgstr⟩ := parseMsgstr_spec hparse
  by_cases hend : strip (parseMsgstr (strs ++ tail) (str.dropLast.drop 7)).2.1 ≠ []
  · rw [if_pos hend] at h
    cases h
  rw [if_neg hend] at h
  cases h
  refine ⟨ids, str, strs, _, tail, not_not.mp hid, not_not.mp hstr, hids, hstrs, not_not.mp hend,
    hstop, ?_, rfl⟩
  rw [hmsgstr]

/-- The lines of a block: comments, and the two strings if there are any. -/
theorem parseTranslation_cases {f g : List Text} {block : Block}
    (h : parseTranslation f = .ok (block, g)) :
    ∃ cs line tail, (∀ l ∈ cs, l.head? = some '#') ∧ block.comments = cs.map List.dropLast ∧
      strip line = [] ∧ Stops line g tail ∧
      ((block.message = none ∧ f = cs ++ tail) ∨
        ∃ id ids str strs, opens (text "msgid \"") id ∧ opens (text "msgstr \"") str ∧
          (∀ l ∈ ids, l.head? = some '"') ∧ (∀ l ∈ strs, l.head? = some '"') ∧
          block.message = some (id.dropLast.drop 6 ++ continued (ids.map List.dropLast),
            str.dropLast.drop 7 ++ continued (strs.map List.dropLast)) ∧
          f = cs ++ id :: (ids ++ str :: (strs ++ tail))) := by
  rw [parseTranslation] at h
  cases hc : parseComments f [] with
  | mk comments p =>
    obtain ⟨id, f₁⟩ := p
    rw [hc] at h
    simp only at h
    obtain ⟨cs, tail, rfl, hstop, hcs, hcomments⟩ := parseComments_spec hc
    rw [List.nil_append] at hcomments
    by_cases hblank : strip id = []
    · rw [if_pos hblank] at h
      cases h
      exact ⟨cs, id, tail, hcs, hcomments, hblank, hstop, Or.inl ⟨rfl, rfl⟩⟩
    · rw [if_neg hblank] at h
      have htail : tail = id :: f₁ := by
        rcases hstop with ⟨rfl, _, _⟩ | hstop
        · exact absurd rfl hblank
        · exact hstop
      obtain ⟨ids, str, strs, line, rest, hid, hstr, hids, hstrs, hend, hstop', rfl, rfl⟩ :=
        parseMessage_cases h
      exact ⟨cs, line, rest, hcs, hcomments, hend, hstop',
        Or.inr ⟨id, ids, str, strs, hid, hstr, hids, hstrs, rfl, by rw [htail]⟩⟩

/-- What is behind a block is the end of the lines. -/
theorem parseTranslation_suffix {f g : List Text} {block : Block}
    (h : parseTranslation f = .ok (block, g)) : g <:+ f := by
  obtain ⟨cs, line, tail, _, _, _, hstop, hcase⟩ := parseTranslation_cases h
  have htail : tail <:+ f := by
    rcases hcase with ⟨_, rfl⟩ | ⟨id, ids, str, strs, _, _, _, _, _, rfl⟩
    · exact List.suffix_append cs tail
    · exact ⟨cs ++ id :: (ids ++ str :: strs), by simp⟩
  rcases hstop with ⟨_, rfl, _⟩ | rfl
  · exact List.nil_suffix
  · exact (List.suffix_cons line g).trans htail

/-! ## Comments and strings -/

def IsComment (c : Text) : Prop := c.head? = some '#' ∧ '\n' ∉ c

/-- A string of one or more quoted lines; only the first one has to end with a quote. -/
structure Literal where
  first : Text
  conts : List Text
  first_head : first.head? = some '"'
  first_last : first.getLast? = some '"'
  first_line : '\n' ∉ first
  conts_head : ∀ c ∈ conts, c.head? = some '"'
  conts_line : ∀ c ∈ conts, '\n' ∉ c

def Literal.text (l : Literal) : Text := l.first ++ continued l.conts

theorem continued_concat (ls : List Text) (c : Text) :
    continued (ls ++ [c]) = continued ls ++ '\n' :: c := by
  simp [continued]

/-- A literal does not end with a line feed. -/
theorem Literal.getLast?_ne (l : Literal) : l.text.getLast? ≠ some '\n' := by
  rcases List.eq_nil_or_concat l.conts with hnil | ⟨ls, c, hlast⟩
  · rw [text, hnil, continued, List.flatMap_nil, List.append_nil, l.first_last]
    decide
  · rw [List.concat_eq_append] at hlast
    have hmem : c ∈ l.conts := by
      rw [hlast]
      exact List.mem_append_right ls (List.mem_singleton_self c)
    have hhead := l.conts_head c hmem
    have hline := l.conts_line c hmem
    have hne : c ≠ [] := by
      rintro rfl
      cases hhead
    rw [text, hlast, continued_concat, ← List.singleton_append,
      ← List.append_assoc, ← List.append_assoc, List.getLast?_append_of_ne_nil _ hne]
    intro h
    exact hline (List.mem_of_getLast? h)

/-- What stands behind the keyword of a line that opens a string. -/
theorem opens_spec {kw line : Text} (hkw : kw.getLast? ≠ some '"')
    (h : opens (kw ++ ['"']) line) :
    ∃ v, line.dropLast = kw ++ v ∧ v.head? = some '"' ∧ v.getLast? = some '"' := by
  obtain ⟨htake, hlast⟩ := h
  have hline : line = kw ++ '"' :: line.drop (kw ++ ['"']).length := by
    conv_lhs => rw [← List.take_append_drop (kw ++ ['"']).length line, htake]
    rw [List.append_assoc, List.singleton_append]
  rcases List.eq_nil_or_concat (line.drop (kw ++ ['"']).length) with hnil | ⟨r, z, hrest⟩
  · rw [hnil] at hline
    rw [hline, List.dropLast_concat] at hlast
    exact absurd hlast hkw
  · have hdrop : line.dropLast = kw ++ '"' :: r := by
      rw [hline, hrest, List.concat_eq_append, ← List.cons_append, ← List.append_assoc,
        List.dropLast_concat]
    rw [hdrop, List.getLast?_append_of_ne_nil _ (List.cons_ne_nil _ _)] at hlast
    exact ⟨'"' :: r, hdrop, rfl, hlast⟩

/-! ## Blocks -/

/-- What the reader returns.  Without a line feed at the end of the file the last
comment can be empty, and the last line of a msgstr. -/
structure Parsed (block : Block) : Prop where
  comments : ∀ c ∈ block.comments, IsComment c ∨ (c = [] ∧ block.message = none)
  message : ∀ msgid msgstr, block.message = some (msgid, msgstr) →
    (∃ l : Literal, msgid = l.text) ∧ ∃ l : Literal, msgstr = l.text ∨ msgstr = l.text ++ ['\n']

/-- No empty line comes of a block but the one behind it. -/
structure Plain (block : Block) : Prop where
  comments_ne : block.comments ≠ []
  comments : ∀ c ∈ block.comments, c ≠ []
  message : ∀ msgid msgstr, block.message = some (msgid, msgstr) → msgstr.getLast? ≠ some '\n'

theorem text_msgid : text "msgid \"" = text "msgid " ++ ['"'] := rfl

theorem text_msgstr : text "msgstr \"" = text "msgstr " ++ ['"'] := rfl

/-- A closed line of comments or of a string. -/
theorem dropLast_of_closed {f : List Text} (h : Closed '\n' f) {c : Char} (hc : c ≠ '\n') :
    ∀ l ∈ f, l.head? = some c → l.dropLast.head? = some c ∧ '\n' ∉ l.dropLast := by
  intro l hl hhead
  obtain ⟨m, hm, rfl⟩ := h l hl
  rw [List.dropLast_concat]
  refine ⟨?_, hm⟩
  cases m with
  | nil =>
    rw [List.nil_append, List.head?_cons, Option.some.injEq] at hhead
    exact absurd hhead.symm hc
  | cons x xs => exact hhead

/-- The last line need not be closed. -/
theorem dropLast_of_cut {f : List Text} (h : Cut '\n' f) {c : Char} :
    ∀ l ∈ f, l.head? = some c → (l.dropLast.head? = some c ∨ l.dropLast = []) ∧
      '\n' ∉ l.dropLast := by
  intro l hl hhead
  refine ⟨?_, h.sep_not_mem l hl⟩
  match l, hhead with
  | [_], _ => exact Or.inr rfl
  | _ :: _ :: _, hhead => exact Or.inl hhead

/-- The lines of a string make a literal. -/
theorem exists_literal {kw line : Text} {ls : List Text} (hkw : kw.getLast? ≠ some '"')
    (h : opens (kw ++ ['"']) line) (hline : '\n' ∉ line.dropLast)
    (hls : ∀ l ∈ ls, l.dropLast.head? = some '"' ∧ '\n' ∉ l.dropLast) :
    ∃ l : Literal, l.text = line.dropLast.drop kw.length ++ continued (ls.map List.dropLast) := by
  obtain ⟨v, hv, hhead, hlast⟩ := opens_spec hkw h
  rw [hv] at hline ⊢
  rw [List.drop_left]
  refine ⟨⟨v, ls.map List.dropLast, hhead, hlast, ?_, ?_, ?_⟩, rfl⟩
  · exact fun hmem => hline (List.mem_append_right kw hmem)
  · intro c hc
    obtain ⟨l, hl, rfl⟩ := List.mem_map.mp hc
    exact (hls l hl).1
  · intro c hc
    obtain ⟨l, hl, rfl⟩ := List.mem_map.mp hc
    exact (hls l hl).2

/-- The same when the last line need not be closed. -/
theorem exists_literal_of_cut {kw line : Text} {as ls tail : List Text}
    (hkw : kw.getLast? ≠ some '"') (h : opens (kw ++ ['"']) line)
    (hcut : Cut '\n' (as ++ line :: (ls ++ tail))) (hls : ∀ l ∈ ls, l.head? = some '"') :
    ∃ l : Literal, line.dropLast.drop kw.length ++ continued (ls.map List.dropLast) = l.text ∨
      line.dropLast.drop kw.length ++ continued (ls.map List.dropLast) = l.text ++ ['\n'] := by
  have hline : '\n' ∉ line.dropLast := hcut.sep_not_mem line (by simp)
  have hquote : '"' ≠ '\n' := by decide
  rcases List.eq_nil_or_concat ls with rfl | ⟨init, last, rfl⟩
  · have hnone : ∀ l ∈ ([] : List Text), l.dropLast.head? = some '"' ∧ '\n' ∉ l.dropLast := by
      simp
    obtain ⟨l, hl⟩ := exists_literal hkw h hline hnone
    exact ⟨l, Or.inl hl.symm⟩
  · rw [List.concat_eq_append] at hcut hls ⊢
    have hsplit : Cut '\n' ((as ++ line :: init) ++ last :: tail) := by simpa using hcut
    have hinit := hsplit.closed_of_append (List.cons_ne_nil _ _)
    have hbefore : ∀ l ∈ init, l.dropLast.head? = some '"' ∧ '\n' ∉ l.dropLast := by
      intro l hl
      exact dropLast_of_closed hinit hquote l (by simp [hl]) (hls l (by simp [hl]))
    obtain ⟨hhead, hnl⟩ := dropLast_of_cut hcut last (by simp) (hls last (by simp))
    rcases hhead with hhead | hnil
    · have hall : ∀ l ∈ init ++ [last], l.dropLast.head? = some '"' ∧ '\n' ∉ l.dropLast := by
        intro m hm
        rcases List.mem_append.mp hm with hm | hm
        · exact hbefore m hm
        · rw [List.mem_singleton.mp hm]
          exact ⟨hhead, hnl⟩
      obtain ⟨l, hl⟩ := exists_literal hkw h hline hall
      exact ⟨l, Or.inl hl.symm⟩
    · obtain ⟨l, hl⟩ := exists_literal hkw h hline hbefore
      refine ⟨l, Or.inr ?_⟩
      rw [List.map_append, List.map_singleton, hnil, continued_concat, ← List.append_assoc, hl]

theorem Stops.cut {line : Text} {f tail as : List Text} (h : Stops line f tail)
    (hcut : Cut '\n' (as ++ tail)) : Cut '\n' f := by
  rcases h with ⟨_, rfl, _⟩ | rfl
  · exact Cut.nil
  · have hrest : Cut '\n' ([line] ++ f) := hcut.of_append
    exact hrest.of_append

/-- What is read from a file. -/
theorem parseTranslation_parsed {f g : List Text} {block : Block} (hf : Cut '\n' f)
    (h : parseTranslation f = .ok (block, g)) : Parsed block ∧ Cut '\n' g := by
  obtain ⟨cs, line, tail, hcs, hcomments, _, hstop, hcase⟩ := parseTranslation_cases h
  rcases hcase with ⟨hnone, rfl⟩ | ⟨id, ids, str, strs, hid, hstr, hids, hstrs, hmessage, rfl⟩
  · refine ⟨⟨?_, ?_⟩, hstop.cut hf⟩
    · intro c hc
      rw [hcomments] at hc
      obtain ⟨l, hl, rfl⟩ := List.mem_map.mp hc
      obtain ⟨hhead, hnl⟩ := dropLast_of_cut hf l (List.mem_append_left tail hl) (hcs l hl)
      rcases hhead with hhead | hnil
      · exact Or.inl ⟨hhead, hnl⟩
      · exact Or.inr ⟨hnil, hnone⟩
    · intro msgid msgstr hsome
      rw [hnone] at hsome
      cases hsome
  · have hcut : Cut '\n' ((cs ++ id :: ids) ++ str :: (strs ++ tail)) := by simpa using hf
    have hclosed := hcut.closed_of_append (List.cons_ne_nil _ _)
    refine ⟨⟨?_, ?_⟩, ?_⟩
    · intro c hc
      rw [hcomments] at hc
      obtain ⟨l, hl, rfl⟩ := List.mem_map.mp hc
      exact Or.inl (dropLast_of_closed hclosed (by decide) l (by simp [hl]) (hcs l hl))
    · intro msgid msgstr hsome
      rw [hmessage, Option.some.injEq, Prod.mk.injEq] at hsome
      obtain ⟨rfl, rfl⟩ := hsome
      constructor
      · rw [text_msgid] at hid
        obtain ⟨l, hl⟩ := exists_literal (by decide) hid (hf.sep_not_mem id (by simp))
          fun m hm => dropLast_of_closed hclosed (by decide) m (by simp [hm]) (hids m hm)
        exact ⟨l, hl.symm⟩
      · rw [text_msgstr] at hstr
        exact exists_literal_of_cut (by decide) hstr hcut hstrs
    · have htail : Cut '\n' ((cs ++ id :: (ids ++ str :: strs)) ++ tail) := by simpa using hf
      exact hstop.cut htail

/-- What is read from closed lines. -/
theorem parseTranslation_closed {f g : List Text} {block : Block} (hf : Closed '\n' f)
    (h : parseTranslation f = .ok (block, g)) : (∀ c ∈ block.comments, c ≠ []) ∧
      ∀ msgid msgstr, block.message = some (msgid, msgstr) → msgstr.getLast? ≠ some '\n' := by
  obtain ⟨cs, line, tail, hcs, hcomments, _, _, hcase⟩ := parseTranslation_cases h
  have hsub : ∀ l ∈ cs, l ∈ f := by
    intro l hl
    rcases hcase with ⟨_, rfl⟩ | ⟨id, ids, str, strs, _, _, _, _, _, rfl⟩
    · exact List.mem_append_left _ hl
    · exact List.mem_append_left _ hl
  constructor
  · intro c hc hnil
    rw [hcomments] at hc
    obtain ⟨l, hl, rfl⟩ := List.mem_map.mp hc
    have hhead := (dropLast_of_closed hf (by decide) l (hsub l hl) (hcs l hl)).1
    rw [hnil] at hhead
    cases hhead
  · intro msgid msgstr hsome
    rcases hcase with ⟨hnone, _⟩ | ⟨id, ids, str, strs, _, hstr, _, hstrs, hmessage, rfl⟩
    · rw [hnone] at hsome
      cases hsome
    · rw [hmessage, Option.some.injEq, Prod.mk.injEq] at hsome
      obtain ⟨_, rfl⟩ := hsome
      obtain ⟨m, hm, rfl⟩ := hf str (by simp)
      rw [text_msgstr] at hstr
      obtain ⟨l, hl⟩ := exists_literal (by decide) hstr (by rwa [List.dropLast_concat])
        fun c hc => dropLast_of_closed hf (by decide) c (by simp [hc]) (hstrs c hc)
      have hlast := l.getLast?_ne
      rw [hl] at hlast
      exact hlast

/-- A block takes at least one line. -/
theorem parseTranslation_length {f g : List Text} {block : Block}
    (h : parseTranslation f = .ok (block, g)) (hne : ¬ block.isEnd) : g.length < f.length := by
  obtain ⟨cs, line, tail, _, hcomments, _, hstop, hcase⟩ := parseTranslation_cases h
  have htail : g.length ≤ tail.length := by
    rcases hstop with ⟨_, rfl, _⟩ | rfl
    · exact Nat.zero_le _
    · exact Nat.le_succ _
  rcases hcase with ⟨hnone, rfl⟩ | ⟨id, ids, str, strs, _, _, _, _, _, rfl⟩
  · have hcs : cs ≠ [] := by
      rintro rfl
      exact hne ⟨hcomments, hnone⟩
    have hpos := List.length_pos_iff.mpr hcs
    rw [List.length_append]
    omega
  · simp only [List.length_append, List.length_cons]
    omega

/-! ## All blocks of a file -/

/-- The blocks the loop comes by, and the exception that ends it. -/
def blocksOf : Nat → List Text → List Block × Option PyError
  | 0, _ => ([], some .outOfFuel)
  | fuel + 1, f =>
    match parseTranslation f with
    | .error e => ([], some e)
    | .ok (block, f) =>
      if block.isEnd then ([], none)
      else (block :: (blocksOf fuel f).1, (blocksOf fuel f).2)

theorem whileBlocks_eq {σ : Type} (body : σ → Block → σ) : ∀ (fuel : Nat) (f : List Text) (st : σ),
    whileBlocks body fuel f st = ((blocksOf fuel f).1.foldl body st, (blocksOf fuel f).2) := by
  intro fuel
  induction fuel with
  | zero => intro f st; rfl
  | succ fuel ih =>
    intro f st
    rw [whileBlocks, blocksOf]
    cases parseTranslation f with
    | error e => rfl
    | ok r =>
      obtain ⟨block, g⟩ := r
      simp only
      by_cases hend : block.isEnd
      · rw [if_pos hend, if_pos hend]
        rfl
      · rw [if_neg hend, if_neg hend, ih]
        rfl

/-- The blocks of a file, in the order they are read. -/
def readBlocks (file : Text) : List Block × Option PyError :=
  forBlocks (fun blocks block => blocks ++ [block]) file []

theorem foldl_snoc (blocks acc : List Block) :
    blocks.foldl (fun blocks block => blocks ++ [block]) acc = acc ++ blocks := by
  induction blocks generalizing acc with
  | nil => exact (List.append_nil acc).symm
  | cons block blocks ih =>
    rw [List.foldl_cons, ih, List.append_assoc, List.singleton_append]

theorem readBlocks_eq (file : Text) :
    readBlocks file = blocksOf ((fileLines file).length + 1) (fileLines file) := by
  rw [readBlocks, forBlocks, whileBlocks_eq, foldl_snoc, List.nil_append]

/-- Any loop over a file goes over its blocks. -/
theorem forBlocks_eq {σ : Type} (body : σ → Block → σ) (file : Text) (st : σ) :
    forBlocks body file st = ((readBlocks file).1.foldl body st, (readBlocks file).2) := by
  rw [readBlocks_eq, forBlocks, whileBlocks_eq]

/-! The fuel is enough: the loop is only ended by the file or by the parser. -/

theorem parseMsgid_error : ∀ {f : List Text} {msgid : Text} {e : PyError},
    parseMsgid f msgid = .error e → e = .indexError := by
  intro f
  induction f with
  | nil =>
    intro msgid e h
    cases h
    rfl
  | cons l f ih =>
    intro msgid e h
    rw [parseMsgid] at h
    by_cases hquote : l.head? ≠ some '"'
    · rw [if_pos hquote] at h
      cases h
    · rw [if_neg hquote] at h
      exact ih h

theorem parseMessage_error {comments f : List Text} {line : Text} {e : PyError}
    (h : parseMessage comments line f = .error e) : e = .parseError ∨ e = .indexError := by
  rw [parseMessage] at h
  by_cases hid : ¬ opens (text "msgid \"") line
  · rw [if_pos hid] at h
    cases h
    exact Or.inl rfl
  rw [if_neg hid] at h
  cases hm : parseMsgid f (line.dropLast.drop 6) with
  | error e' =>
    rw [hm] at h
    cases h
    exact Or.inr (parseMsgid_error hm)
  | ok r =>
    rw [hm, ok_bind] at h
    obtain ⟨msgid, str, f₁⟩ := r
    simp only at h
    by_cases hstr : ¬ opens (text "msgstr \"") str
    · rw [if_pos hstr] at h
      cases h
      exact Or.inl rfl
    rw [if_neg hstr] at h
    by_cases hend : strip (parseMsgstr f₁ (str.dropLast.drop 7)).2.1 ≠ []
    · rw [if_pos hend] at h
      cases h
      exact Or.inl rfl
    · rw [if_neg hend] at h
      cases h

theorem parseTranslation_error {f : List Text} {e : PyError} (h : parseTranslation f = .error e) :
    e = .parseError ∨ e = .indexError := by
  rw [parseTranslation] at h
  simp only at h
  by_cases hblank : strip (parseComments f []).2.1 = []
  · rw [if_pos hblank] at h
    cases h
  · rw [if_neg hblank] at h
    exact parseMessage_error h

theorem blocksOf_fuel : ∀ (fuel : Nat) (f : List Text), f.length < fuel →
    (blocksOf fuel f).2 ≠ some .outOfFuel := by
  intro fuel
  induction fuel with
  | zero =>
    intro f h
    exact absurd h (Nat.not_lt_zero _)
  | succ fuel ih =>
    intro f h
    rw [blocksOf]
    cases hparse : parseTranslation f with
    | error e =>
      rcases parseTranslation_error hparse with rfl | rfl
      · simp
      · simp
    | ok r =>
      obtain ⟨block, g⟩ := r
      simp only
      by_cases hend : block.isEnd
      · rw [if_pos hend]
        exact Option.some_ne_none _ ∘ Eq.symm
      · have hshort := parseTranslation_length hparse hend
        rw [if_neg hend]
        exact ih g (by omega)

theorem forBlocks_fuel {σ : Type} (body : σ → Block → σ) (file : Text) (st : σ) :
    (forBlocks body file st).2 ≠ some .outOfFuel := by
  rw [forBlocks_eq, readBlocks_eq]
  exact blocksOf_fuel _ _ (Nat.lt_succ_self _)

theorem blocksOf_parsed : ∀ (fuel : Nat) {f : List Text}, Cut '\n' f →
    ∀ block ∈ (blocksOf fuel f).1, Parsed block ∧ ¬ block.isEnd := by
  intro fuel
  induction fuel with
  | zero =>
    intro f _ block hblock
    cases hblock
  | succ fuel ih =>
    intro f hf block hblock
    rw [blocksOf] at hblock
    cases hparse : parseTranslation f with
    | error e =>
      rw [hparse] at hblock
      cases hblock
    | ok r =>
      obtain ⟨b, g⟩ := r
      obtain ⟨hparsed, hg⟩ := parseTranslation_parsed hf hparse
      rw [hparse] at hblock
      simp only at hblock
      by_cases hend : b.isEnd
      · rw [if_pos hend] at hblock
        cases hblock
      · rw [if_neg hend] at hblock
        rcases List.mem_cons.mp hblock with rfl | hblock
        · exact ⟨hparsed, hend⟩
        · exact ih hg block hblock

theorem readBlocks_parsed (file : Text) :
    ∀ block ∈ (readBlocks file).1, Parsed block ∧ ¬ block.isEnd := by
  rw [readBlocks_eq]
  exact blocksOf_parsed _ (keepLines_cut '\n' file)

end Merge
end Po
end I18nZh
