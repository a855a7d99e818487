import I18nZh.Xml2po.RunCorrect
import I18nZh.Xml2po.Untranslated

/-!
# From the POT to the translated document

A catalogue that translates the messages of a POT translates the documents it was
written for.
-/

namespace I18nZh
namespace Xml2po

open Po (Text text strip)
open Po.Merge
open DocbookXmlMode

section PotMerge

variable {sys : System} {args : Arguments}

/-- A translation for every message of the PO file that has none. -/
def Merging.Translates (m : Merging) (out : Text) : Prop :=
  ∀ block ∈ (readBlocks out).1, ∀ k,
    block.message = some (MessageOutput.quoted k, emptyString) →
    ∃ t, t ≠ [] ∧ m.ugettext (unquote k) = some t

/-- A message is the message of an element that is reported. -/
theorem reported_of_message {options : Options} {lib : Libxml2} :
    (∀ (node : Node) (ancestors prevs : List Node),
      ∀ message ∈ messagesOf options lib ancestors prevs node,
        ∃ p ∈ reportedOf options ancestors node, ∃ prevs',
          message = messageOf options lib p.1 prevs' p.2) ∧
    ∀ (children ancestors prevs : List Node),
      ∀ message ∈ messages options lib ancestors prevs children,
        ∃ p ∈ reported options ancestors children, ∃ prevs',
          message = messageOf options lib p.1 prevs' p.2 := by
  apply Node.both
  case mk =>
    intro info children ih ancestors prevs message hmessage
    by_cases helement : (Node.mk info children).type = .element
    · rw [messagesOf_element helement] at hmessage
      rw [reportedOf_element helement]
      rcases List.mem_append.mp hmessage with hmessage | hmessage
      · obtain ⟨p, hp, hsame⟩ := ih _ [] message hmessage
        exact ⟨p, List.mem_append_left _ hp, hsame⟩
      · split_ifs at hmessage with hworth
        · rw [if_pos hworth]
          exact ⟨_, List.mem_append_right _ List.mem_cons_self, prevs,
            List.mem_singleton.mp hmessage⟩
        · cases hmessage
    · rw [messagesOf_leaf helement] at hmessage
      cases hmessage
  case nil =>
    intro ancestors prevs message hmessage
    cases hmessage
  case cons =>
    intro child rest ihchild ihrest ancestors prevs message hmessage
    rw [messages] at hmessage
    rcases List.mem_append.mp hmessage with hmessage | hmessage
    · obtain ⟨p, hp, hsame⟩ := ihchild ancestors prevs message hmessage
      exact ⟨p, List.mem_append_left _ hp, hsame⟩
    · obtain ⟨p, hp, hsame⟩ := ihrest ancestors (child :: prevs) message hmessage
      exact ⟨p, List.mem_append_right _ hp, hsame⟩

/-! ## Where a reported element stands -/

/-- A reported element stands below the nodes that are looked at. -/
theorem mem_reported {options : Options} :
    (∀ (node : Node) (ancestors : List Node), ∀ p ∈ reportedOf options ancestors node,
      ancestors <:+ p.1 ∧ p.2.type = .element ∧ worthOutputting options p.1 p.2 = true) ∧
    ∀ (children ancestors : List Node), ∀ p ∈ reported options ancestors children,
      ancestors <:+ p.1 ∧ p.2.type = .element ∧ worthOutputting options p.1 p.2 = true := by
  apply Node.both
  case mk =>
    intro info children ih ancestors p hp
    by_cases helement : (Node.mk info children).type = .element
    · rw [reportedOf_element helement] at hp
      rcases List.mem_append.mp hp with hp | hp
      · obtain ⟨hsuffix, htype, hworth⟩ := ih _ p hp
        exact ⟨(List.suffix_cons _ _).trans hsuffix, htype, hworth⟩
      · split_ifs at hp with hworth
        · rw [List.mem_singleton.mp hp]
          exact ⟨List.suffix_refl ancestors, helement, hworth⟩
        · cases hp
    · rw [reportedOf_leaf helement] at hp
      cases hp
  case nil =>
    intro ancestors p hp
    cases hp
  case cons =>
    intro child rest ihchild ihrest ancestors p hp
    rw [reported] at hp
    rcases List.mem_append.mp hp with hp | hp
    · exact ihchild ancestors p hp
    · exact ihrest ancestors p hp

/-- The element stands in none of the others. -/
def Outermost (elements : List (List Node × Node)) (p : List Node × Node) : Prop :=
  ∀ q ∈ elements, ¬ (q.2 :: q.1) <:+ p.1

theorem Outermost.mono {elements all : List (List Node × Node)} {p : List Node × Node}
    (h : Outermost all p) (hsub : ∀ q ∈ elements, q ∈ all) : Outermost elements p :=
  fun q hq => h q (hsub q hq)

/-- What a reported element becomes is in the merged document, unless it is put into
another one. -/
theorem merged_outermost {options : Options} {lib : Libxml2} {m : Merging} :
    (∀ (node : Node) (ancestors : List Node), ∀ p ∈ reportedOf options ancestors node,
      Outermost (reportedOf options ancestors node) p →
      mergedOf options lib m p.1 p.2 ∈ nodes (mergedOf options lib m ancestors node)) ∧
    ∀ (children ancestors : List Node), ∀ p ∈ reported options ancestors children,
      Outermost (reported options ancestors children) p →
      mergedOf options lib m p.1 p.2 ∈ forest (merged options lib m ancestors children) := by
  apply Node.both
  case mk =>
    intro info children ih ancestors p hp houter
    by_cases helement : (Node.mk info children).type = .element
    · rw [reportedOf_element helement] at hp houter
      rcases List.mem_append.mp hp with hp | hp
      · have hworth : ¬ worthOutputting options ancestors (.mk info children) = true := by
          intro hworth
          rw [if_pos hworth] at houter
          exact houter _ (List.mem_append_right _ List.mem_cons_self)
            (mem_reported.2 _ _ p hp).1
        have hmem := ih _ p hp (houter.mono fun q hq => List.mem_append_left _ hq)
        have hmerged : (Node.mk info
            (merged options lib m (.mk info children :: ancestors) children)).type = .element :=
          helement
        rw [mergedOf_element helement, if_neg hworth]
        exact forest_subset_nodes hmerged _ hmem
      · split_ifs at hp
        · rw [List.mem_singleton.mp hp]
          exact mem_nodes_self _
        · cases hp
    · rw [reportedOf_leaf helement] at hp
      cases hp
  case nil =>
    intro ancestors p hp
    cases hp
  case cons =>
    intro child rest ihchild ihrest ancestors p hp houter
    rw [reported] at hp houter
    rw [merged, forest]
    rcases List.mem_append.mp hp with hp | hp
    · exact List.mem_append_left _
        (ihchild ancestors p hp (houter.mono fun q hq => List.mem_append_left _ hq))
    · exact List.mem_append_right _
        (ihrest ancestors p hp (houter.mono fun q hq => List.mem_append_right _ hq))

/-! ## Translations -/

/-- What is relied on for the elements that are put in: the message is more than white
space when it is looked up, and the element is parsed and is not empty. -/
structure Merging.Reads (options : Options) (lib : Libxml2) (m : Merging)
    (elements : List (List Node × Node)) : Prop where
  msgid : ∀ p ∈ elements,
    strip ((messageOf options lib p.1 [] p.2).call.msgid options lib) ≠ []
  parse : ∀ p ∈ elements, ∃ newelem, m.parseElement (element (startTag options lib p.2)
    (contentOf options lib m p.1 p.2) p.2.name) = some newelem ∧ newelem.children ≠ []

/-- An element becomes what is parsed from the translation `t`, in which the blocks it
contains are put back at their placeholders; and the same text is put back for it in the
element around it. -/
structure Merging.Holds (options : Options) (lib : Libxml2) (m : Merging)
    (ancestors : List Node) (node : Node) (t : Text) : Prop where
  content : contentOf options lib m ancestors node =
    fillTexts 0 (fillers options lib m (node :: ancestors) node.children) t
  read : m.parseElement (element (startTag options lib node)
    (contentOf options lib m ancestors node) node.name) =
      some (mergedOf options lib m ancestors node)
  filler : fillersOf options lib m ancestors node =
    [element (startTag options lib node) (contentOf options lib m ancestors node) node.name]

/-- The string that is looked up for a message is the string its msgid stands for. -/
theorem answer_of_said {options : Options} {lib : Libxml2} {m : Merging} {call : Call}
    (hne : strip (call.msgid options lib) ≠ [])
    (h : ∃ t, t ≠ [] ∧ m.ugettext (unquote (escapePoString
      (normalizeString options lib call.text (!call.spacepreserve)))) = some t) :
    ∃ t, t ≠ [] ∧ m.ugettext (call.msgid options lib) = some t ∧
      call.answer options lib m = some t := by
  obtain ⟨t, ht, hfound⟩ := h
  rw [unquote_escape] at hfound
  refine ⟨t, ht, hfound, ?_⟩
  rw [Call.answer, if_neg hne, Call.msgid, hfound, Option.filter_some,
    if_pos (decide_eq_true ht)]

theorem Merging.Reads.holds {options : Options} {lib : Libxml2} {m : Merging}
    {elements : List (List Node × Node)} (h : m.Reads options lib elements)
    {p : List Node × Node} (hp : p ∈ elements) (helement : p.2.type = .element)
    (hworth : worthOutputting options p.1 p.2 = true) {t : Text}
    (hanswer : (messageOf options lib p.1 [] p.2).call.answer options lib m = some t) :
    m.Holds options lib p.1 p.2 t := by
  obtain ⟨newelem, hparse, hne⟩ := h.parse p hp
  have hbreaks : breaks options p.1 p.2 = true := by
    rw [breaks, helement, hworth]
    exact Bool.or_true _
  have hmark : (((messageOf options lib p.1 [] p.2).call.answer options lib m).isNone &&
      m.markUntranslated) = false := by
    rw [hanswer]
    rfl
  constructor
  · rw [contentOf, Call.template, hanswer]
    rfl
  · rw [mergedOf_read helement hworth hmark hparse hne, hparse]
  · exact fillersOf_breaks hbreaks

/-- In a run that comes to its end each document is extracted. -/
theorem main_extracts (hproper : sys.Proper args) {out : Text} (h : main sys args = .ok out)
    {filename : Text} (hfile : filename ∈ args.files) {doc : Node} {lib : Libxml2}
    (hparse : sys.parseFile filename = some (doc, lib)) :
    (∃ x, doSerialize args.options lib [] [] doc = .ok x) ∧
    ∃ calls, readCalls sys args filename = .ok (calls, lib) := by
  rw [main] at h
  obtain ⟨_, hfiles, _⟩ := exists_of_bind h
  obtain ⟨calls, lib', hread⟩ := readFiles_ok hfiles filename hfile
  obtain ⟨_, _, hparse', _⟩ := readCalls_spec hproper hfile hread
  obtain ⟨_, rfl⟩ := Prod.mk.inj (Option.some.inj (hparse.symm.trans hparse'))
  refine ⟨?_, calls, hread⟩
  rw [readCalls, hparse] at hread
  obtain ⟨images, _, hrest⟩ := exists_of_bind hread
  obtain ⟨x, hx, _⟩ := exists_of_bind hrest
  exact ⟨x, hx⟩

/-- Merged with a catalogue that translates the POT, a document comes to its end, and each
text that stands in no tag to be ignored is in an element that holds its translation. -/
theorem main_translates (hproper : sys.Proper args) (horig : args.origxml = []) {out : Text}
    (h : main sys args = .ok out) {m : Merging} (hcatalogue : m.Translates out)
    {filename : Text} (hfilename : filename ∈ args.filenames) {doc : Node} {lib : Libxml2}
    (hparse : sys.parseFile filename = some (doc, lib)) (hm : m.Proper lib)
    (hplain : PlainDocument args.options doc)
    (hroot : ∀ c ∈ doc.children, worthOutputting args.options [doc] c = true →
      isAscii (startTag args.options lib c) = true)
    (hreads : m.Reads args.options lib (reported args.options [doc] doc.children)) :
    (∃ s, mergeSerialize args.options lib m [] doc =
      .ok (s, mergedDocument args.options lib m doc)) ∧
    ∀ x ∈ textNodes lib doc.name doc.children, x.1 ∉ args.options.ignoredTags →
      ∃ p ∈ reported args.options [doc] doc.children, ∃ t,
        x ∈ (messageOf args.options lib p.1 [] p.2).texts ∧ t ≠ [] ∧
        m.ugettext ((messageOf args.options lib p.1 [] p.2).call.msgid args.options lib) =
          some t ∧
        m.Holds args.options lib p.1 p.2 t ∧
        (Outermost (reported args.options [doc] doc.children) p →
          mergedOf args.options lib m p.1 p.2 ∈
            forest (mergedDocument args.options lib m doc).children) := by
  have hfile : filename ∈ args.files := by
    rw [files_eq horig]
    exact List.mem_reverse.mpr hfilename
  obtain ⟨hdoc, _⟩ := hproper.document filename hfile (doc, lib) hparse
  obtain ⟨msg, hmsg, rfl⟩ := main_catalogue hproper.empty horig h
  obtain ⟨hextracts, calls, hread⟩ := main_extracts hproper h hfile hparse
  refine ⟨mergeSerialize_document hm (options_sound args) hdoc hplain hroot
    (extractable_of_extracts (options_sound args) hdoc hplain hextracts), ?_⟩
  intro x hx hignored
  obtain ⟨lost, hperm, hlost⟩ := top_covered hdoc doc.children [] fun _ hc => hc
  rcases List.mem_append.mp (hperm.mem_iff.mp hx) with hmem | hmem
  · obtain ⟨message, hmessage, hxm⟩ := List.mem_flatMap.mp hmem
    have hsaid := said_of_text hproper hfile hparse hx hxm
    have hall := mem_saidAll hproper hfile hread hparse hmessage hsaid
    obtain ⟨p, hp, prevs, rfl⟩ := reported_of_message.2 _ _ _ message hmessage
    obtain ⟨_, helement, hworth⟩ := mem_reported.2 _ _ p hp
    obtain ⟨t, hne, ht, hanswer⟩ : ∃ t, t ≠ [] ∧ m.ugettext
        ((messageOf args.options lib p.1 [] p.2).call.msgid args.options lib) = some t ∧ _ :=
      answer_of_said (hreads.msgid p hp) (hcatalogue _ (potBlock_mem hproper hmsg hall) _ rfl)
    exact ⟨p, hp, t, hxm, hne, ht, hreads.holds hp helement hworth hanswer,
      merged_outermost.2 _ _ p hp⟩
  · exact absurd (hlost x hmem) hignored

end PotMerge

/-! ## A translated POT -/

def someMessage : Text := text "Some <emphasis>text</emphasis> and <placeholder-1/> more."

/-- All of the document is translated. -/
def fullGerman : Merging where
  ugettext s :=
    if s = text "A title" then some (text "Ein Titel")
    else if s = text "an item" then some (text "ein Eintrag")
    else if s = someMessage then some (text "<placeholder-1/> und mehr")
    else if s = getStringForTranslators then some (text "N. N., 2010")
    else none
  markUntranslated := false
  parseElement := readsElements [
    (text "<title>Ein Titel</title>", tag "title" [textNode "Ein Titel"]),
    (text "<para>ein Eintrag</para>", tag "para" [textNode "ein Eintrag"]),
    (text "<para><itemizedlist><listitem><para>ein Eintrag</para></listitem></itemizedlist>" ++
      text " und mehr</para>", tag "para"
        [tag "itemizedlist" [tag "listitem" [tag "para" [textNode "ein Eintrag"]]],
          textNode " und mehr"])]

theorem proper_fullGerman : fullGerman.Proper plainText where
  element := readsElements_element (by decide)
  lang h := Bool.noConfusion h

theorem quoted_injective {s t : Text} (h : MessageOutput.quoted s = MessageOutput.quoted t) :
    s = t := List.append_cancel_right (List.cons.inj h).2

theorem said_shelf : (saidAll shelf bookArguments).map Said.t =
    [text "A title", text "an item", someMessage, getStringForTranslators] := by decide +kernel

theorem translates_fullGerman {msg : MessageOutput}
    (h : Catalogue (saidAll shelf bookArguments) msg) :
    fullGerman.Translates (msg.outputAll shelf.date) := by
  intro block hblock k hk
  rw [readBlocks_said proper_shelf h, said_shelf] at hblock
  rcases List.mem_cons.mp hblock with rfl | hblock
  · have hno : (MessageOutput.headerBlock shelf.date).message ≠
        some (MessageOutput.quoted k, emptyString) := by
      intro hsome
      have hnil := List.append_right_eq_self.mp (Prod.mk.inj (Option.some.inj hsome)).2
      cases hnil
    exact absurd hk hno
  · obtain ⟨t, ht, rfl⟩ := List.mem_map.mp hblock
    have hkt : t = k := quoted_injective (Prod.mk.inj (Option.some.inj hk)).1
    rw [List.mem_eraseDups] at ht
    have hall : ∀ t ∈ [text "A title", text "an item", someMessage, getStringForTranslators],
        ∃ u ∈ fullGerman.ugettext (unquote t), u ≠ [] := by decide
    obtain ⟨u, hu, hne⟩ := hall t ht
    rw [hkt] at hu
    exact ⟨u, hne, hu⟩

theorem reads_fullGerman : fullGerman.Reads bookArguments.options plainText
    (reported bookArguments.options [listing] listing.children) := by
  have hthree : reported bookArguments.options [listing] listing.children = [_, _, _] := rfl
  rw [hthree]
  constructor
  · decide
  · intro p hp
    rcases List.mem_cons.mp hp with rfl | hp
    · exact ⟨_, rfl, List.cons_ne_nil _ _⟩
    rcases List.mem_cons.mp hp with rfl | hp
    · exact ⟨_, rfl, List.cons_ne_nil _ _⟩
    rw [List.mem_singleton.mp hp]
    exact ⟨_, rfl, List.cons_ne_nil _ _⟩

theorem main_translates_shelf : ∃ out, main shelf bookArguments = .ok out ∧
    (∃ s, mergeSerialize bookArguments.options plainText fullGerman [] listing =
      .ok (s, mergedDocument bookArguments.options plainText fullGerman listing)) ∧
    ∀ x ∈ textNodes plainText listing.name listing.children,
      x.1 ∉ bookArguments.options.ignoredTags →
      ∃ p ∈ reported bookArguments.options [listing] listing.children, ∃ t,
        x ∈ (messageOf bookArguments.options plainText p.1 [] p.2).texts ∧ t ≠ [] ∧
        fullGerman.ugettext ((messageOf bookArguments.options plainText p.1 [] p.2).call.msgid
          bookArguments.options plainText) = some t ∧
        fullGerman.Holds bookArguments.options plainText p.1 p.2 t ∧
        (Outermost (reported bookArguments.options [listing] listing.children) p →
          mergedOf bookArguments.options plainText fullGerman p.1 p.2 ∈ forest
            (mergedDocument bookArguments.options plainText fullGerman listing).children) := by
  obtain ⟨out, hrun⟩ := shelf_runs
  obtain ⟨msg, hmsg, hout⟩ := main_catalogue proper_shelf.empty rfl hrun
  have hroot : ∀ c ∈ listing.children,
      worthOutputting bookArguments.options [listing] c = true →
        isAscii (startTag bookArguments.options plainText c) = true := by decide
  have hplain : PlainDocument bookArguments.options listing := plain_listing
  exact ⟨out, hrun, main_translates proper_shelf rfl hrun (hout ▸ translates_fullGerman hmsg)
    List.mem_cons_self rfl proper_fullGerman hplain hroot reads_fullGerman⟩

end Xml2po
end I18nZh
