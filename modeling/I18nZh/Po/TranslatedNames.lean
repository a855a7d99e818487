import Mathlib.Data.List.Nodup
import Mathlib.Data.List.Pairwise
import I18nZh.Po.TranslatedEntry

/-!
# The names that are printed

The names of an entry wait until the comment of the next entry comes.  So the last
entry's names are never printed, and those of the others unless a line behind them has
dropped them.
-/

namespace I18nZh
namespace Po
namespace Translated

open Merge (FileSystem join chomp)

/-! ## Files of entries -/

/-- The lines of entries, each with the blank lines behind it. -/
def entriesLines (entries : List (Live × List Text)) : List Text :=
  entries.flatMap fun e => e.1.lines ++ e.2

/-- The lines of a PO file: a header, entries with blank lines behind each, and obsolete
entries.  Names stand in the entries only. -/
structure IsFile (file : Text) (header : List Text) (entries : List (Live × List Text))
    (obsolete : List Text) : Prop where
  lines : (fileLines file).map chomp = header ++ entriesLines entries ++ obsolete
  header : ∀ l ∈ header, ¬ text "#." <+: l
  blank : ∀ e ∈ entries, ∀ l ∈ e.2, strip l = []
  obsolete : ∀ l ∈ obsolete, ¬ text "#." <+: l

theorem foldlM_entries : ∀ {entries : List (Live × List Text)} (st : State),
    (∀ e ∈ entries, ∀ l ∈ e.2, strip l = []) → (∀ e ∈ entries, e.1.IsSpaced) →
    ∃ st', (entriesLines entries).foldlM readLine st = .ok st' ∧
      st'.res ++ st'.subres = st.res ++ st.subres ++ entries.flatMap fun e => e.1.waiting := by
  intro entries
  induction entries with
  | nil =>
    intro st _ _
    exact ⟨st, rfl, (List.append_nil _).symm⟩
  | cons e entries ih =>
    intro st hblank hspaced
    obtain ⟨st', hrun, hst'⟩ := ih ⟨st.res ++ st.subres, e.1.waiting⟩
      (fun e he => hblank e (List.mem_cons_of_mem _ he))
      (fun e he => hspaced e (List.mem_cons_of_mem _ he))
    refine ⟨st', ?_, ?_⟩
    · rw [entriesLines, List.flatMap_cons, List.foldlM_append,
        foldlM_entry e.1 (hblank e List.mem_cons_self), if_pos (hspaced e List.mem_cons_self)]
      exact hrun
    · rw [hst', List.flatMap_cons, List.append_assoc]

theorem foldlM_entries_error : ∀ {entries : List (Live × List Text)} (st : State),
    (∀ e ∈ entries, ∀ l ∈ e.2, strip l = []) → ¬ (∀ e ∈ entries, e.1.IsSpaced) →
    (entriesLines entries).foldlM readLine st = .error .assertionError := by
  intro entries
  induction entries with
  | nil =>
    intro st _ hspaced
    exact absurd (fun e he => nomatch he) hspaced
  | cons e entries ih =>
    intro st hblank hspaced
    rw [entriesLines, List.flatMap_cons, List.foldlM_append,
      foldlM_entry e.1 (hblank e List.mem_cons_self)]
    by_cases he : e.1.IsSpaced
    · rw [if_pos he]
      apply ih _ fun e he => hblank e (List.mem_cons_of_mem _ he)
      intro hrest
      apply hspaced
      intro d hd
      rcases List.mem_cons.mp hd with rfl | hd
      · exact he
      · exact hrest d hd
    · rw [if_neg he]
      rfl

/-! ## A run over a file -/

section

variable {file path : Text} {fs : FileSystem} {header obsolete : List Text}
  {entries : List (Live × List Text)}

theorem foldlM_file (h : IsFile file header entries obsolete)
    (hspaced : ∀ e ∈ entries, e.1.IsSpaced) : ∃ st,
      (fileLines file).foldlM readLine ⟨[], []⟩ = .ok st ∧
        st.res = entries.dropLast.flatMap fun e => e.1.waiting := by
  have hheader : header.foldlM readLine ⟨[], []⟩ = .ok ⟨[], []⟩ := by
    rw [foldlM_of_not_names _ h.header, ite_self]
  have hrun (st : State) (hst : (entriesLines entries).foldlM readLine ⟨[], []⟩ = .ok st) :
      (fileLines file).foldlM readLine ⟨[], []⟩ =
        .ok ⟨st.res, if ∃ l ∈ obsolete, Drops l then [] else st.subres⟩ := by
    rw [← foldlM_chomp, h.lines, List.foldlM_append, List.foldlM_append, hheader, ok_bind, hst,
      ok_bind, foldlM_of_not_names _ h.obsolete]
  cases entries using List.reverseRecOn with
  | nil => exact ⟨_, hrun ⟨[], []⟩ rfl, rfl⟩
  | append_singleton init e =>
    have hblank := h.blank
    obtain ⟨st, hinit, hst⟩ := foldlM_entries ⟨[], []⟩
      (fun d hd => hblank d (List.mem_append_left [e] hd))
      (fun d hd => hspaced d (List.mem_append_left [e] hd))
    have hlast := List.mem_append_right init (List.mem_singleton_self e)
    refine ⟨_, hrun ⟨st.res ++ st.subres, e.1.waiting⟩ ?_, ?_⟩
    · rw [entriesLines, List.flatMap_append, List.foldlM_append, List.flatMap_singleton]
      show (entriesLines init).foldlM readLine _ >>= _ = _
      rw [hinit, ok_bind, foldlM_entry e.1 (hblank e hlast), if_pos (hspaced e hlast)]
    · rw [List.dropLast_concat]
      exact hst

theorem foldlM_file_error (h : IsFile file header entries obsolete)
    (hspaced : ¬ ∀ e ∈ entries, e.1.IsSpaced) :
    (fileLines file).foldlM readLine ⟨[], []⟩ = .error .assertionError := by
  rw [← foldlM_chomp, h.lines, List.foldlM_append, List.foldlM_append,
    foldlM_of_not_names _ h.header, ok_bind, foldlM_entries_error _ h.blank hspaced]
  rfl

/-- What is printed for a file of entries. -/
theorem main_file (hfs : fs path = some file) (h : IsFile file header entries obsolete)
    (script : Text) (rest : List Text) : main (script :: path :: rest) fs =
      if ∀ e ∈ entries, e.1.IsSpaced then
        .ok (join (entries.dropLast.flatMap fun e => e.1.waiting) ++ text "\n")
      else .error .assertionError := by
  have hmain : main (script :: path :: rest) fs =
      (fileLines file).foldlM readLine ⟨[], []⟩ >>= fun st => .ok (join st.res ++ text "\n") := by
    rw [main, hfs]
    rfl
  rw [hmain]
  by_cases hspaced : ∀ e ∈ entries, e.1.IsSpaced
  · obtain ⟨st, hst, hres⟩ := foldlM_file h hspaced
    rw [if_pos hspaced, hst, ← hres]
    rfl
  · rw [if_neg hspaced, foldlM_file_error h hspaced]
    rfl

end

/-! ## The names that should be printed -/

/-- The names of the translated entries, in the order of the file. -/
def translatedNames (entries : List (Live × List Text)) : List Text :=
  (entries.filter fun e => e.1.IsTranslated).flatMap fun e => e.1.names

/-- Every comment has its blank, the entries in front of the last one are kept if and
only if they are translated, and the last one is not translated. -/
structure Shown (entries : List (Live × List Text)) : Prop where
  spaced : ∀ e ∈ entries, e.1.IsSpaced
  kept : ∀ e ∈ entries.dropLast, e.1.IsKept ↔ e.1.IsTranslated
  last : ∀ e ∈ entries.getLast?, ¬ e.1.IsTranslated

theorem strip_subset {w : Text} {c : Char} (h : c ∈ strip w) : c ∈ w :=
  (List.dropWhile_suffix isSpace).subset ((List.rdropWhile_prefix isSpace _).subset h)

/-- No name is empty, since the white space around a word is taken away. -/
theorem Live.name_ne (entry : Live) : ∀ x ∈ entry.names, x ≠ [] ∧ '\n' ∉ x := by
  intro x hx
  obtain ⟨w, hw, rfl⟩ := List.mem_map.mp hx
  obtain ⟨-, hnewline, t, ht⟩ := entry.word w hw
  constructor
  · intro hnil
    have hstrip : strip w = text "name for " := by
      rw [← ht] at hnil ⊢
      have htnil : t = [] := hnil
      rw [htnil, List.append_nil]
    have hne : (w.dropWhile isSpace).rdropWhile isSpace ≠ [] := by
      intro h
      rw [strip, h] at hstrip
      cases hstrip
    have hlast := List.rdropWhile_last_not isSpace _ hne
    have hget : (strip w).getLast hne = ' ' := by
      simp only [hstrip]
      rfl
    apply hlast
    show isSpace ((strip w).getLast hne) = true
    rw [hget]
    rfl
  · intro hmem
    exact hnewline (strip_subset (List.drop_subset 9 _ hmem))

theorem join_injective {as bs : List Text} (ha : ∀ a ∈ as, a ≠ [] ∧ '\n' ∉ a)
    (hb : ∀ b ∈ bs, b ≠ [] ∧ '\n' ∉ b) (h : join as = join bs) : as = bs := by
  have hsplit : ∀ {cs : List Text}, (∀ c ∈ cs, c ≠ [] ∧ '\n' ∉ c) →
      cs = if join cs = [] then [] else (join cs).splitOn '\n' := by
    intro cs hcs
    cases cs with
    | nil => rfl
    | cons c cs =>
      have hne := List.cons_ne_nil c cs
      have hcut : (join (c :: cs)).splitOn '\n' = c :: cs :=
        List.splitOn_intercalate '\n' (fun d hd => (hcs d hd).2) hne
      have hjoin : join (c :: cs) ≠ [] := by
        intro hnil
        rw [hnil] at hcut
        have hc := (List.cons.inj hcut).1
        exact (hcs c List.mem_cons_self).1 hc.symm
      rw [if_neg hjoin, hcut]
  rw [hsplit ha, hsplit hb, h]

theorem mem_waiting {entry : Live} {x : Text} :
    x ∈ entry.waiting ↔ entry.IsKept ∧ x ∈ entry.names := by
  unfold Live.waiting
  by_cases h : entry.IsKept
  · simp [h]
  · simp [h]

theorem mem_translatedNames {entries : List (Live × List Text)} {x : Text} :
    x ∈ translatedNames entries ↔ ∃ e ∈ entries, e.1.IsTranslated ∧ x ∈ e.1.names := by
  simp [translatedNames, and_assoc]

theorem flatMap_waiting : ∀ {es : List (Live × List Text)},
    (∀ e ∈ es, e.1.IsKept ↔ e.1.IsTranslated) →
    (es.flatMap fun e => e.1.waiting) = translatedNames es := by
  intro es
  induction es with
  | nil =>
    intro _
    rfl
  | cons e es ih =>
    intro h
    have hrest := ih fun d hd => h d (List.mem_cons_of_mem e hd)
    have he := h e List.mem_cons_self
    unfold translatedNames at hrest ⊢
    rw [List.flatMap_cons, hrest, Live.waiting]
    by_cases htranslated : e.1.IsTranslated
    · rw [if_pos (he.mpr htranslated), List.filter_cons_of_pos (by simpa using htranslated),
        List.flatMap_cons]
    · rw [if_neg (mt he.mp htranslated), List.filter_cons_of_neg (by simpa using htranslated),
        List.nil_append]

theorem translatedNames_of_shown {entries : List (Live × List Text)} (h : Shown entries) :
    (entries.dropLast.flatMap fun e => e.1.waiting) = translatedNames entries := by
  rw [flatMap_waiting h.kept]
  cases entries using List.reverseRecOn with
  | nil => rfl
  | append_singleton init e =>
    have hlast : ¬ e.1.IsTranslated := h.last e (by simp)
    rw [List.dropLast_concat, translatedNames, translatedNames, List.filter_append,
      List.filter_singleton]
    simp [hlast]

/-- Each name belongs to one entry. -/
theorem eq_of_mem_names {entries : List (Live × List Text)}
    (hnodup : (entries.flatMap fun e => e.1.names).Nodup) {d e : Live × List Text} {x : Text}
    (hd : d ∈ entries) (he : e ∈ entries) (hxd : x ∈ d.1.names) (hxe : x ∈ e.1.names) : d = e := by
  by_contra hne
  have hdisjoint := (List.nodup_flatMap.mp hnodup).2
  have hsymm : Std.Symm (Function.onFun List.Disjoint fun e : Live × List Text => e.1.names) :=
    ⟨fun _ _ h _ hx hy => h hy hx⟩
  exact hdisjoint.forall hd he hne hxd hxe

theorem shown_of_translatedNames {entries : List (Live × List Text)}
    (hspaced : ∀ e ∈ entries, e.1.IsSpaced)
    (hnodup : (entries.flatMap fun e => e.1.names).Nodup)
    (h : (entries.dropLast.flatMap fun e => e.1.waiting) = translatedNames entries) :
    Shown entries := by
  have hmem (x : Text) : (∃ e ∈ entries.dropLast, e.1.IsKept ∧ x ∈ e.1.names) ↔
      ∃ e ∈ entries, e.1.IsTranslated ∧ x ∈ e.1.names := by
    rw [← mem_translatedNames, ← h, List.mem_flatMap]
    simp only [mem_waiting]
  have hname (e : Live) : ∃ x, x ∈ e.names := by
    apply List.exists_mem_of_ne_nil
    unfold Live.names
    simpa using e.words_ne
  refine ⟨hspaced, ?_, ?_⟩
  · intro e he
    have hmem_e := List.dropLast_subset entries he
    obtain ⟨x, hx⟩ := hname e.1
    constructor
    · intro hkept
      obtain ⟨d, hd, htranslated, hxd⟩ := (hmem x).mp ⟨e, he, hkept, hx⟩
      rw [← eq_of_mem_names hnodup hd hmem_e hxd hx]
      exact htranslated
    · intro htranslated
      obtain ⟨d, hd, hkept, hxd⟩ := (hmem x).mpr ⟨e, hmem_e, htranslated, hx⟩
      rw [← eq_of_mem_names hnodup (List.dropLast_subset entries hd) hmem_e hxd hx]
      exact hkept
  · intro e he htranslated
    obtain ⟨init, rfl⟩ := List.getLast?_eq_some_iff.mp he
    obtain ⟨x, hx⟩ := hname e.1
    obtain ⟨d, hd, -, hxd⟩ := (hmem x).mpr
      ⟨e, List.mem_append_right init List.mem_cons_self, htranslated, hx⟩
    rw [List.dropLast_concat] at hd
    rw [List.flatMap_append, List.nodup_append] at hnodup
    exact hnodup.2.2 x (List.mem_flatMap.mpr ⟨d, hd, hxd⟩) x (by simpa using hx) rfl

/-- The names of the translated entries are printed when the entries are `Shown`, and
where no name comes twice only then. -/
theorem main_prints_translated {file path : Text} {fs : FileSystem} {header obsolete : List Text}
    {entries : List (Live × List Text)} (hfs : fs path = some file)
    (h : IsFile file header entries obsolete) (script : Text) (rest : List Text) :
    (Shown entries → main (script :: path :: rest) fs =
        .ok (join (translatedNames entries) ++ text "\n")) ∧
      ((entries.flatMap fun e => e.1.names).Nodup →
        main (script :: path :: rest) fs = .ok (join (translatedNames entries) ++ text "\n") →
          Shown entries) := by
  rw [main_file hfs h]
  constructor
  · intro hshown
    rw [if_pos hshown.spaced, translatedNames_of_shown hshown]
  · intro hnodup hmain
    by_cases hspaced : ∀ e ∈ entries, e.1.IsSpaced
    · rw [if_pos hspaced] at hmain
      have hjoin := List.append_cancel_right (Except.ok.inj hmain)
      apply shown_of_translatedNames hspaced hnodup
      apply join_injective _ _ hjoin
      · intro x hx
        obtain ⟨e, _, hwaiting⟩ := List.mem_flatMap.mp hx
        exact e.1.name_ne x (mem_waiting.mp hwaiting).2
      · intro x hx
        obtain ⟨e, _, _, hname⟩ := mem_translatedNames.mp hx
        exact e.1.name_ne x hname
    · rw [if_neg hspaced] at hmain
      cases hmain

/-- An entry with one name. -/
def named (word : Text) (comments : List Text) (msgid msgstr : Quoted)
    (hword : ',' ∉ word ∧ '\n' ∉ word ∧ text "name for " <+: strip word)
    (hcomments : ∀ c ∈ comments, c.head? = some '#' ∧ ¬ text "#." <+: c) : Live where
  words := [word]
  comments := comments
  msgid := msgid
  msgstr := msgstr
  words_ne := List.cons_ne_nil _ _
  word := by
    intro w hw
    rw [List.mem_singleton.mp hw]
    exact hword
  comment := hcomments

def onDisk (file : Text) : FileSystem :=
  fun path => if path = text "zh_CN.po" then some file else none

/-- A translated entry, and one that is not. -/
def shownFile : Text := text
  "#. name for CN-11\nmsgid \"a\"\nmsgstr \"x\"\n\n#. name for CN-12\nmsgid \"b\"\nmsgstr \"\"\n"

def shownEntries : List (Live × List Text) :=
  [(named (text " name for CN-11") [] ⟨text "a", [], by decide⟩ ⟨text "x", [], by decide⟩
      (by decide) (by decide), [[]]),
    (named (text " name for CN-12") [] ⟨text "b", [], by decide⟩ ⟨[], [], by decide⟩
      (by decide) (by decide), [])]

theorem main_prints_translated_shown :
    main [text "po2translated", text "zh_CN.po"] (onDisk shownFile) = .ok (text "CN-11\n") ∧
      (shownEntries.flatMap fun e => e.1.names).Nodup ∧ Shown shownEntries := by
  have hfile : IsFile shownFile [] shownEntries [] := ⟨by rfl, by simp, by decide, by simp⟩
  have hshown : Shown shownEntries := ⟨by decide, by decide, by decide⟩
  have hnodup : (shownEntries.flatMap fun e => e.1.names).Nodup := by decide
  have hfs : onDisk shownFile (text "zh_CN.po") = some shownFile := rfl
  have hprints := main_prints_translated hfs hfile (text "po2translated") []
  have hmain := hprints.1 hshown
  exact ⟨hmain, hnodup, hprints.2 hnodup hmain⟩

/-- An entry with `fuzzy` behind another flag, one whose msgstr begins in its second
line, and a translated one. -/
def misreadFile : Text := text
  "#. name for CN-11\n#, c-format, fuzzy\nmsgid \"a\"\nmsgstr \"x\"\n\n" ++ text
  "#. name for CN-12\nmsgid \"b\"\nmsgstr \"\"\n\"y\"\n\n" ++ text
  "#. name for CN-13\nmsgid \"c\"\nmsgstr \"z\"\n"

def misreadEntries : List (Live × List Text) :=
  [(named (text " name for CN-11") [text "#, c-format, fuzzy"] ⟨text "a", [], by decide⟩
      ⟨text "x", [], by decide⟩ (by decide) (by decide), [[]]),
    (named (text " name for CN-12") [] ⟨text "b", [], by decide⟩ ⟨[], [text "y"], by decide⟩
      (by decide) (by decide), [[]]),
    (named (text " name for CN-13") [] ⟨text "c", [], by decide⟩ ⟨text "z", [], by decide⟩
      (by decide) (by decide), [])]

/-- The first one is printed, and no other. -/
theorem main_misreads : IsFile misreadFile [] misreadEntries [] ∧
    translatedNames misreadEntries = [text "CN-12", text "CN-13"] ∧
    main [text "po2translated", text "zh_CN.po"] (onDisk misreadFile) = .ok (text "CN-11\n") ∧
    main [text "po2translated", text "zh_CN.po"] (onDisk misreadFile) ≠
      .ok (join (translatedNames misreadEntries) ++ text "\n") :=
  ⟨⟨by rfl, by simp, by decide, by simp⟩, by decide, by rfl, by decide⟩

end Translated
end Po
end I18nZh
