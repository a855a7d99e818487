import I18nZh.Po.OutFile

/-!
# The lines of a block

`parse_translation` takes the last character off every line it keeps.  The values it
returns have the lines of the block, without their terminators, as long as there is a
terminator to take off.
-/

namespace I18nZh
namespace Po
namespace Merge

open Lines

/-- The lines of the block that begins a file: those up to the next blank line. -/
def blockLines (f : List Text) : List Text := f.takeWhile fun line => strip line ≠ []

/-- A line without its terminator. -/
def chomp (line : Text) : Text := if line.getLast? = some '\n' then line.dropLast else line

/-- The values of a block cut into lines again, with the two keywords in front. -/
def valueLines (block : Block) : List Text :=
  block.comments ++
    match block.message with
    | none => []
    | some (msgid, msgstr) =>
      (text "msgid " ++ msgid).splitOn '\n' ++ (text "msgstr " ++ msgstr).splitOn '\n'

/-- The values consist of the characters of the lines. -/
def Lossless (f : List Text) (block : Block) : Prop :=
  valueLines block = (blockLines f).map chomp

instance (f : List Text) (block : Block) : Decidable (Lossless f block) :=
  inferInstanceAs (Decidable (_ = _))

/-! ## Up to the next blank line -/

/-- The lines a block is made of, and where it stops. -/
theorem blockLines_append {ls tail g : List Text} {line : Text}
    (hls : ∀ l ∈ ls, strip l ≠ []) (hblank : strip line = []) (hstop : Stops line g tail) :
    blockLines (ls ++ tail) = ls := by
  have htail : blockLines tail = [] := by
    rcases hstop with ⟨_, _, rfl⟩ | rfl
    · rfl
    · rw [blockLines, List.takeWhile_cons_of_neg]
      simp [hblank]
  have happ : blockLines (ls ++ tail) = ls ++ blockLines tail := by
    apply List.takeWhile_append_of_pos
    intro l hl
    simpa using hls l hl
  rw [happ, htail, List.append_nil]

theorem opens_head {kw line : Text} {c : Char} (hkw : kw.head? = some c) (h : opens kw line) :
    line.head? = some c := by
  obtain ⟨htake, _⟩ := h
  cases kw with
  | nil => cases hkw
  | cons k kw =>
    cases line with
    | nil => cases htake
    | cons x xs =>
      rw [List.length_cons, List.take_succ_cons, List.cons.injEq] at htake
      rw [List.head?_cons, htake.1]
      exact hkw

/-! ## Values and lines -/

/-- A string is cut into the lines it was made of. -/
theorem splitOn_continued {c : Text} {cs : List Text} (hc : '\n' ∉ c)
    (hcs : ∀ d ∈ cs, '\n' ∉ d) : (c ++ continued cs).splitOn '\n' = c :: cs := by
  have hjoin : c ++ continued cs = ['\n'].intercalate (c :: cs) := by
    induction cs generalizing c with
    | nil => simp [continued]
    | cons d cs ih =>
      have hrest := ih (hcs d List.mem_cons_self) fun e he => hcs e (List.mem_cons_of_mem d he)
      have hstep : ['\n'].intercalate (c :: d :: cs) = c ++ '\n' :: ['\n'].intercalate (d :: cs) :=
        rfl
      rw [hstep, ← hrest]
      rfl
  rw [hjoin]
  apply List.splitOn_intercalate
  · intro l hl
    rcases List.mem_cons.mp hl with rfl | hl
    · exact hc
    · exact hcs l hl
  · exact List.cons_ne_nil c cs

/-- The lines of a string that a keyword opens. -/
theorem splitOn_string {kw line : Text} {ls : List Text} (hkw : kw.getLast? ≠ some '"')
    (h : opens (kw ++ ['"']) line) (hline : '\n' ∉ line.dropLast)
    (hls : ∀ l ∈ ls, '\n' ∉ l.dropLast) :
    (kw ++ (line.dropLast.drop kw.length ++ continued (ls.map List.dropLast))).splitOn '\n' =
      (line :: ls).map List.dropLast := by
  obtain ⟨v, hv, _, _⟩ := opens_spec hkw h
  have hdrop : kw ++ line.dropLast.drop kw.length = line.dropLast := by
    rw [hv, List.drop_left]
  rw [← List.append_assoc, hdrop, List.map_cons]
  apply splitOn_continued hline
  intro d hd
  obtain ⟨l, hl, rfl⟩ := List.mem_map.mp hd
  exact hls l hl

/-- What is returned is the lines of the block, each without its last character. -/
theorem valueLines_eq {f g : List Text} {block : Block}
    (hf : ∀ l ∈ f, '\n' ∉ l.dropLast) (h : parseTranslation f = .ok (block, g)) :
    valueLines block = (blockLines f).map List.dropLast := by
  obtain ⟨cs, line, tail, hcs, hcomments, hblank, hstop, hcase⟩ := parseTranslation_cases h
  have hcomment : ∀ l ∈ cs, strip l ≠ [] := fun l hl => strip_ne_nil (hcs l hl) (by decide)
  rcases hcase with ⟨hnone, rfl⟩ | ⟨id, ids, str, strs, hid, hstr, hids, hstrs, hmessage, rfl⟩
  · rw [blockLines_append hcomment hblank hstop, valueLines, hnone, hcomments, List.append_nil]
  · have hsplit : cs ++ id :: (ids ++ str :: (strs ++ tail)) =
        (cs ++ (id :: ids ++ str :: strs)) ++ tail := by simp
    have hlines : ∀ l ∈ cs ++ (id :: ids ++ str :: strs), strip l ≠ [] := by
      intro l hl
      simp only [List.mem_append, List.mem_cons] at hl
      rcases hl with hl | ((rfl | hl) | (rfl | hl))
      · exact hcomment l hl
      · have hhead : l.head? = some 'm' := opens_head rfl hid
        exact strip_ne_nil hhead (by decide)
      · exact strip_ne_nil (hids l hl) (by decide)
      · have hhead : l.head? = some 'm' := opens_head rfl hstr
        exact strip_ne_nil hhead (by decide)
      · exact strip_ne_nil (hstrs l hl) (by decide)
    have hmsgid : (text "msgid " ++
        (id.dropLast.drop 6 ++ continued (ids.map List.dropLast))).splitOn '\n' =
          (id :: ids).map List.dropLast := by
      rw [text_msgid] at hid
      exact splitOn_string (by decide) hid (hf id (by simp)) fun l hl => hf l (by simp [hl])
    have hmsgstr : (text "msgstr " ++
        (str.dropLast.drop 7 ++ continued (strs.map List.dropLast))).splitOn '\n' =
          (str :: strs).map List.dropLast := by
      rw [text_msgstr] at hstr
      exact splitOn_string (by decide) hstr (hf str (by simp)) fun l hl => hf l (by simp [hl])
    rw [hsplit, blockLines_append hlines hblank hstop, valueLines, hmessage, hcomments,
      List.map_append, List.map_append]
    simp only
    rw [hmsgid, hmsgstr]

/-! ## The last character of a line -/

theorem chomp_eq_dropLast_iff {line : Text} (h : line ≠ []) :
    line.dropLast = chomp line ↔ line.getLast? = some '\n' := by
  unfold chomp
  by_cases hlast : line.getLast? = some '\n'
  · rw [if_pos hlast]
    exact iff_of_true rfl hlast
  · rw [if_neg hlast]
    refine iff_of_false ?_ hlast
    intro heq
    have hlen := congrArg List.length heq
    have hpos := List.length_pos_iff.mpr h
    rw [List.length_dropLast] at hlen
    omega

/-- A block that is returned has lost nothing if and only if all its lines have a
terminator. -/
theorem parseTranslation_lossless_iff {file : Text} {pre f g : List Text} {block : Block}
    (hfile : fileLines file = pre ++ f) (h : parseTranslation f = .ok (block, g)) :
    Lossless f block ↔ ∀ line ∈ blockLines f, line.getLast? = some '\n' := by
  have hcut : Cut '\n' (fileLines file) := keepLines_cut '\n' file
  rw [hfile] at hcut
  have hvalues := valueLines_eq hcut.of_append.sep_not_mem h
  rw [Lossless, hvalues, List.map_inj_left]
  apply forall₂_congr
  intro line hline
  have hne : line ≠ [] := by
    rintro rfl
    have hmem := List.mem_takeWhile_imp hline
    simp [strip] at hmem
  exact chomp_eq_dropLast_iff hne

/-- A block of a comment and two strings, the first one of two lines, and the line
behind it. -/
def twoLines : Text := text "# a\nmsgid \"a\"\n\"b\"\nmsgstr \"c\"\n\n"

theorem parseTranslation_lossless_iff_twoLines :
    parseTranslation (fileLines twoLines) =
        .ok (⟨[text "# a"], some (text "\"a\"\n\"b\"", text "\"c\"")⟩, []) ∧
      Lossless (fileLines twoLines) ⟨[text "# a"], some (text "\"a\"\n\"b\"", text "\"c\"")⟩ := by
  have hparse : parseTranslation (fileLines twoLines) =
      .ok (⟨[text "# a"], some (text "\"a\"\n\"b\"", text "\"c\"")⟩, []) := rfl
  have hfile : fileLines twoLines = [] ++ fileLines twoLines := rfl
  exact ⟨hparse, (parseTranslation_lossless_iff hfile hparse).mpr (by decide)⟩

/-- An untranslated entry, the file without a line feed at its end. -/
def unended : Text := text "# a\nmsgid \"a\"\nmsgstr \"\""

/-- The quote that is left makes it a translation. -/
theorem parseTranslation_loses_quote : ∃ block,
    parseTranslation (fileLines unended) = .ok (block, []) ∧
      block = ⟨[text "# a"], some (text "\"a\"", text "\"")⟩ ∧
      ¬ Lossless (fileLines unended) block :=
  ⟨_, rfl, rfl, by decide⟩

end Merge
end Po
end I18nZh
