import I18nZh.Xml2po.Stable
import I18nZh.Xml2po.Complete

/-!
# The translated document

What a document is translated to, node by node and in terms of the document itself; and
that the run, which changes the tree under way, makes this of it.
-/

namespace I18nZh
namespace Xml2po

open Po (Text text strip)
open Replace

section Translated

variable (options : Options) (lib : Libxml2) (m : Merging)

/-! ## One message -/

/-- The string that is looked up for a message, which is the one that is reported. -/
def Call.msgid (call : Call) : Text := normalizeString options lib call.text (!call.spacepreserve)

/-- What is found for it, unless it is empty.  White space is not looked up. -/
def Call.answer (call : Call) : Option Text :=
  (if strip (call.msgid options lib) = [] then some (call.msgid options lib)
    else m.ugettext (call.msgid options lib)).filter (· ≠ [])

def Call.template (call : Call) : Text := (call.answer options lib m).getD call.text

/-! ## Contents -/

mutual

/-- The translated elements for the placeholders of a child. -/
def fillersOf (ancestors : List Node) (node : Node) : List Text :=
  match node with
  | .mk info children =>
    if breaks options ancestors (.mk info children) then
      [element (startTag options lib (.mk info children))
        (fillTexts 0 (fillers (.mk info children :: ancestors) children)
          ((messageOf options lib ancestors [] (.mk info children)).call.template options lib m))
        info.name]
    else if info.type = .element then fillers (.mk info children :: ancestors) children
    else []
termination_by structural node

def fillers (ancestors : List Node) (children : List Node) : List Text :=
  match children with
  | [] => []
  | child :: rest => fillersOf ancestors child ++ fillers ancestors rest
termination_by structural children

end

/-- The translated content of an element. -/
def contentOf (ancestors : List Node) (node : Node) : Text :=
  fillTexts 0 (fillers options lib m (node :: ancestors) node.children)
    ((messageOf options lib ancestors [] node).call.template options lib m)

/-! ## Nodes -/

/-- An element that has no translation may be marked. -/
def Merging.mark (call : Call) (node : Node) : Node :=
  if (call.answer options lib m).isNone && m.markUntranslated then node.setLang (text "C")
  else node

/-- The element with a new content in its place, if it is parsed and is not empty. -/
def Merging.put (content : Text) (node : Node) : Node :=
  match m.parseElement (element (startTag options lib node) content node.name) with
  | none => node
  | some newelem => if newelem.children = [] then node else newelem

mutual

/-- A node of the translated document. -/
def mergedOf (ancestors : List Node) (node : Node) : Node :=
  match node with
  | .mk info children =>
    if info.type = .element then
      if worthOutputting options ancestors (.mk info children) then
        m.put options lib (contentOf options lib m ancestors (.mk info children))
          (m.mark options lib (messageOf options lib ancestors [] (.mk info children)).call
            (.mk info (merged (.mk info children :: ancestors) children)))
      else .mk info (merged (.mk info children :: ancestors) children)
    else .mk info children
termination_by structural node

def merged (ancestors : List Node) (children : List Node) : List Node :=
  match children with
  | [] => []
  | child :: rest => mergedOf ancestors child :: merged ancestors rest
termination_by structural children

end

def mergedDocument (doc : Node) : Node := .mk doc.info (merged options lib m [doc] doc.children)

end Translated

/-- What is relied on: the root of what is parsed is an element, and `C` is not escaped. -/
structure Merging.Proper (lib : Libxml2) (m : Merging) : Prop where
  element : ∀ s newelem, m.parseElement s = some newelem → newelem.type = .element
  lang : m.markUntranslated = true → isAscii (lib.encodeEntities (text "C")) = true

/-! ## Strings that go together -/

/-- The string can be put together with ASCII strings and `unicode` strings. -/
def PyString.Mixes (s : PyString) : Prop := s.unicode = true ∨ isAscii s.chars = true

theorem isAscii_iff {s : Text} : isAscii s = true ↔ ∀ c ∈ s, c.toNat < 128 := by
  rw [isAscii, List.all_eq_true]
  simp only [decide_eq_true_eq]

theorem isAscii_blank {s : Text} (h : strip s = []) : isAscii s = true := by
  rw [isAscii_iff]
  intro c hc
  have hspace : Po.isSpace c = true := Po.Merge.strip_eq_nil_iff.mp h c hc
  rw [Po.isSpace, decide_eq_true_eq] at hspace
  have hall : ∀ d ∈ [' ', '\t', '\n', '\r', '\x0b', '\x0c'], d.toNat < 128 := by simp
  exact hall c hspace

namespace PyString

/-- One `unicode` string makes the string a `unicode` string. -/
theorem append_kind {a b c : PyString} (h : a.append b = .ok c) :
    c.unicode = (a.unicode || b.unicode) := by
  rw [append] at h
  split_ifs at h with hkind
  · cases h
    rw [← hkind, Bool.or_self]
  all_goals
    cases h
    cases ha : a.unicode with
    | true => rfl
    | false =>
      cases hb : b.unicode with
      | true => rfl
      | false => exact absurd (ha.trans hb.symm) hkind

theorem foldlM_append_kind : ∀ {strings : List PyString} {a c : PyString},
    strings.foldlM append a = .ok c → c.unicode = (a.unicode || strings.any unicode) := by
  intro strings
  induction strings with
  | nil =>
    intro a c h
    cases h
    exact (Bool.or_false _).symm
  | cons b strings ih =>
    intro a c h
    rw [List.foldlM_cons] at h
    obtain ⟨ab, hab, h⟩ := exists_of_bind h
    rw [ih h, append_kind hab, List.any_cons, Bool.or_assoc]

theorem replace_mixes {s t : PyString} (pattern : Text) (hs : s.Mixes) (ht : t.Mixes) :
    ∃ r, s.replace pattern t = .ok r ∧ r.Mixes ∧
      r.chars = Replace.replace pattern t.chars s.chars := by
  rw [replace]
  by_cases hkind : s.unicode = t.unicode
  · rw [if_pos hkind]
    refine ⟨_, rfl, ?_, rfl⟩
    rcases hs with hs | hs
    · exact Or.inl hs
    rcases ht with ht | ht
    · exact Or.inl (hkind.trans ht)
    right
    rw [isAscii_iff] at hs ht ⊢
    intro c hc
    rcases mem_replace hc with hc | hc
    · exact ht c hc
    · exact hs c hc
  · have hascii : isAscii (if s.unicode then t.chars else s.chars) = true := by
      cases hu : s.unicode with
      | true =>
        rcases ht with ht | ht
        · exact absurd (hu.trans ht.symm) hkind
        · exact ht
      | false =>
        rcases hs with hs | hs
        · rw [hu] at hs
          cases hs
        · exact hs
    rw [if_neg hkind, if_pos hascii]
    exact ⟨_, rfl, Or.inl rfl, rfl⟩

theorem encode_mixes {s : PyString} (h : s.Mixes) : s.encode = .ok (str s.chars) := by
  rw [encode, if_neg]
  intro hno
  rw [Bool.and_eq_true, Bool.not_eq_true', Bool.not_eq_true'] at hno
  rcases h with h | h
  · rw [hno.1] at h
    cases h
  · rw [hno.2] at h
    cases h

end PyString

theorem isAscii_element {a b c : Text} (ha : isAscii a = true) (hb : isAscii b = true)
    (hc : isAscii c = true) : isAscii (element a b c) = true := by
  have hopen : isAscii (text "<") = true := rfl
  have hclose : isAscii (text ">") = true := rfl
  have hend : isAscii (text "</") = true := rfl
  simp only [element, isAscii_append, ha, hb, hc, hopen, hclose, hend, Bool.and_self]

theorem tagged_mixes {a c : Text} {b : PyString} (ha : isAscii a = true) (hc : isAscii c = true)
    (hb : b.Mixes) : ∃ s, tagged (str a) b (str c) = .ok s ∧ s.Mixes ∧
      s.chars = element a b.chars c := by
  obtain ⟨unicode, chars⟩ := b
  cases unicode with
  | false =>
    have hchars : isAscii chars = true := by
      rcases hb with hb | hb
      · cases hb
      · exact hb
    exact ⟨_, tagged_bytes a chars c, Or.inr (isAscii_element ha hchars hc), rfl⟩
  | true =>
    obtain ⟨s, hs⟩ := (tagged_unicode_iff a chars c).mpr ⟨ha, hc⟩
    have hchars : s.chars = element a chars c := tagged_chars hs
    refine ⟨s, hs, Or.inl ?_, hchars⟩
    rw [PyString.foldlM_append_kind hs]
    rfl

section Close

variable {options : Options} {lib : Libxml2} {m : Merging}

/-! ## The placeholders -/

/-- An element that can be filled in. -/
structure Replacement.Ready (r : Replacement) : Prop where
  starttag : ∃ a, r.starttag = str a ∧ isAscii a = true
  endtag : ∃ c, r.endtag = str c ∧ isAscii c = true
  translation : r.translation.Mixes

theorem fillTranslation_ready : ∀ {myrepl : List Replacement} {i : Nat} {translation : PyString},
    (∀ r ∈ myrepl, r.Ready) → translation.Mixes →
    ∃ t, fillTranslation i myrepl translation = .ok t ∧ t.Mixes ∧
      t.chars = fillTexts i (myrepl.map Replacement.element) translation.chars := by
  intro myrepl
  induction myrepl with
  | nil =>
    intro i translation _ hmixes
    exact ⟨translation, rfl, hmixes, rfl⟩
  | cons r myrepl ih =>
    intro i translation hready hmixes
    rw [List.forall_mem_cons] at hready
    obtain ⟨⟨a, hstart, ha⟩, ⟨c, hend, hc⟩, hr⟩ := hready.1
    obtain ⟨s, hs, hsmixes, hschars⟩ := tagged_mixes ha hc hr
    obtain ⟨t, ht, htmixes, htchars⟩ :=
      PyString.replace_mixes (placeholder (i + 1)) hmixes hsmixes
    obtain ⟨u, hu, humixes, huchars⟩ := ih hready.2 htmixes
    refine ⟨u, ?_, humixes, ?_⟩
    · rw [fillTranslation, hstart, hend, hs, Po.ok_bind, ht, Po.ok_bind, hu]
    · rw [huchars, htchars, hschars, List.map_cons, fillTexts, Replacement.element, hstart, hend]
      rfl

/-! ## The translation of a message -/

theorem normalized_bytes (s : Text) (ignorewhitespace : Bool) :
    normalized options lib (str s) ignorewhitespace =
      str (normalizeString options lib s ignorewhitespace) := by
  rw [normalized]
  cases ignorewhitespace with
  | false => rfl
  | true =>
    cases hparse : lib.parse (text "<norm>" ++ s ++ text "</norm>") with
    | none =>
      have hstr : (str s).chars = s := rfl
      rw [hstr, hparse, normalizeString, hparse]
      rfl
    | some newnode =>
      have hstr : (str s).chars = s := rfl
      rw [hstr, hparse]
      rfl

theorem getTranslation_bytes (call : Call) : ∃ found,
    getTranslation options lib m (str call.text) call.spacepreserve = .ok found ∧
      (found.filter fun s => s.chars ≠ []).map PyString.chars = call.answer options lib m ∧
      ∀ s ∈ found, s.Mixes := by
  rw [getTranslation, normalized_bytes]
  show ∃ found, (if strip (call.msgid options lib) = [] then _ else _) = _ ∧ _
  rw [Call.answer]
  by_cases hblank : strip (call.msgid options lib) = []
  · rw [if_pos hblank, if_pos hblank]
    refine ⟨_, rfl, ?_, ?_⟩
    · show (Option.filter _ (some (str (call.msgid options lib)))).map _ = _
      rw [Option.filter_some, Option.filter_some]
      show Option.map _ (if decide (call.msgid options lib ≠ []) = true then _ else _) = _
      split_ifs <;> rfl
    · intro s hs
      cases hs
      exact Or.inr (isAscii_blank hblank)
  · rw [if_neg hblank, if_neg hblank]
    refine ⟨(m.ugettext (call.msgid options lib)).map fun res => ⟨true, res⟩, rfl, ?_, ?_⟩
    · cases m.ugettext (call.msgid options lib) with
      | none => rfl
      | some res =>
        rw [Option.map_some, Option.filter_some, Option.filter_some]
        split_ifs <;> rfl
    · intro s hs
      obtain ⟨res, _, rfl⟩ := Option.map_eq_some_iff.mp hs
      exact Or.inl rfl

theorem orOuttxt_bytes (node : Node) (call : Call) (worth : Bool) {found : Option PyString}
    (hfound : (found.filter fun s => s.chars ≠ []).map PyString.chars =
      call.answer options lib m) (hmixes : ∀ s ∈ found, s.Mixes) :
    ∃ t, orOuttxt m node (str call.text) worth found =
        .ok (t, if worth then m.mark options lib call node else node) ∧
      t.chars = call.template options lib m ∧ t.Mixes := by
  rw [orOuttxt, Call.template, Merging.mark, ← hfound]
  cases hfilter : found.filter fun s => s.chars ≠ [] with
  | none =>
    refine ⟨⟨true, call.text⟩, ?_, rfl, Or.inl rfl⟩
    cases worth <;> rfl
  | some t =>
    refine ⟨t, ?_, rfl, hmixes t (Option.filter_eq_some_iff.mp hfilter).1⟩
    cases worth <;> rfl

/-! ## The end of an element -/

theorem isAscii_flatMap {α : Type} {f : α → Text} {xs : List α} :
    isAscii (xs.flatMap f) = true ↔ ∀ x ∈ xs, isAscii (f x) = true := by
  induction xs with
  | nil => simp [isAscii]
  | cons x xs ih =>
    rw [List.flatMap_cons, isAscii_append, Bool.and_eq_true, ih, List.forall_mem_cons]

theorem plain_mark {call : Call} {node : Node} (h : PlainNode options node) :
    PlainNode options (m.mark options lib call node) := by
  rw [Merging.mark]
  split_ifs
  · intro hexpand p hp c hc
    rcases mem_setProperty hp with hp | rfl
    · exact h hexpand p hp c hc
    · exact ⟨text "C", List.mem_singleton.mp hc⟩
  · exact h

theorem isAscii_mark (hm : m.Proper lib) {call : Call} {node : Node}
    (h : isAscii (startTag options lib node) = true) :
    isAscii (startTag options lib (m.mark options lib call node)) = true := by
  rw [Merging.mark]
  split_ifs with hmark
  · rw [Bool.and_eq_true] at hmark
    rw [startTag, isAscii_append, Bool.and_eq_true, isAscii_flatMap] at h ⊢
    refine ⟨h.1, ?_⟩
    intro p hp
    rcases mem_setProperty hp with hp | rfl
    · exact h.2 p hp
    · have hlang := hm.lang hmark.2
      have hvalue : attributeText options lib ⟨text "xml:lang", [.text (text "C")], []⟩ =
          lib.encodeEntities (text "C") ++ [] := rfl
      have hopen : isAscii (text " ") = true := rfl
      have hname : isAscii (text "xml:lang") = true := rfl
      have hequals : isAscii (text "=\"") = true := rfl
      have hclose : isAscii (text "\"") = true := rfl
      rw [hvalue, List.append_nil]
      simp only [isAscii_append, hlang, hopen, hname, hequals, hclose, Bool.and_self]
  · exact h

theorem replaceNodeContentsWithText_put {node : Node} {s : PyString}
    (hplain : PlainNode options node) (hascii : isAscii (startTag options lib node) = true)
    (hs : s.Mixes) :
    replaceNodeContentsWithText options lib m node s = .ok (m.put options lib s.chars node) := by
  obtain ⟨content, hcontent, hmixes, hchars⟩ := tagged_mixes hascii (isAscii_name hascii) hs
  rw [replaceNodeContentsWithText, startTagForNode_bytes hplain, Po.ok_bind, endTagForNode,
    hcontent, Po.ok_bind, PyString.encode_mixes hmixes, Po.ok_bind, hchars, Merging.put]
  show (match m.parseElement (element (startTag options lib node) s.chars node.name) with
    | none => _
    | some newelem => _) = _
  cases m.parseElement (element (startTag options lib node) s.chars node.name) with
  | none => rfl
  | some newelem => rfl

theorem closeTranslated_bytes (hm : m.Proper lib) {ancestors : List Node} {node : Node}
    (restart : Bool) (call : Call) {myrepl : List Replacement} (hplain : PlainNode options node)
    (hspace : call.spacepreserve = isSpacePreserveNode options node)
    (hready : ∀ r ∈ myrepl, r.Ready)
    (hascii : worthOutputting options ancestors node = true →
      isAscii (startTag options lib node) = true) :
    ∃ t, closeTranslated options lib m ancestors node restart (str call.text) myrepl =
        .ok (⟨str (startTag options lib node), str call.text, str node.name, t⟩,
          if worthOutputting options ancestors node then
            m.put options lib (fillTexts 0 (myrepl.map Replacement.element)
              (call.template options lib m)) (m.mark options lib call node)
          else node) ∧ t.Mixes ∧
      (restart = true → t.chars = fillTexts 0 (myrepl.map Replacement.element)
        (call.template options lib m)) := by
  have hget : ∃ found, getTranslation options lib m (str call.text) call.spacepreserve =
      .ok found ∧ _ ∧ _ := getTranslation_bytes call
  obtain ⟨found, hfound, hanswer, hmixes⟩ := hget
  obtain ⟨t, ht, hchars, htmixes⟩ :=
    orOuttxt_bytes node call (worthOutputting options ancestors node) hanswer hmixes
  have hfill : ∃ u, fillTranslation 0 myrepl t = .ok u ∧ _ ∧ _ :=
    fillTranslation_ready hready htmixes
  obtain ⟨u, hu, humixes, huchars⟩ := hfill
  rw [hchars] at huchars
  rw [closeTranslated, ← hspace, hfound, Po.ok_bind, startTagForNode_bytes hplain, Po.ok_bind]
  simp only
  rw [ht, Po.ok_bind]
  simp only
  cases hworth : worthOutputting options ancestors node with
  | true =>
    have hput : replaceNodeContentsWithText options lib m (m.mark options lib call node) u = _ :=
      replaceNodeContentsWithText_put (plain_mark hplain) (isAscii_mark hm (hascii hworth)) humixes
    rw [Bool.or_true, if_pos rfl, if_pos rfl, if_pos rfl, hu, Po.ok_bind, if_pos rfl, hput,
      Po.ok_bind, huchars]
    exact ⟨u, rfl, humixes, fun _ => huchars⟩
  | false =>
    cases restart with
    | true =>
      rw [Bool.true_or, if_pos rfl, hu, Po.ok_bind, if_neg Bool.false_ne_true]
      exact ⟨u, rfl, humixes, fun _ => huchars⟩
    | false =>
      rw [Bool.or_false, if_neg Bool.false_ne_true, if_neg Bool.false_ne_true]
      exact ⟨t, rfl, htmixes, fun hno => Bool.noConfusion hno⟩

end Close

end Xml2po
end I18nZh
