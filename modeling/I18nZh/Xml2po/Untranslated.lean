import I18nZh.Xml2po.MergeCorrect

/-!
# Merging without translations

A catalogue in which nothing is translated gives the document back, if the parser reads
each element back as it was serialized.  What is put in is parsed by itself and without
line numbers, so the nodes are compared without what depends on where they stand.
-/

namespace I18nZh
namespace Xml2po

open Po (Text text strip)
open Replace

/-! ## Nodes wherever they stand -/

mutual

/-- A node without the number of its line, and without what `getSpacePreserve` finds in
the attributes of its ancestors. -/
def Node.unplaced (node : Node) : Node :=
  match node with
  | .mk info children =>
    .mk { info with lineNo := 0, spacePreserve := false } (unplacedAll children)
termination_by structural node

def unplacedAll (children : List Node) : List Node :=
  match children with
  | [] => []
  | child :: rest => child.unplaced :: unplacedAll rest
termination_by structural children

end

theorem unplacedAll_eq_map : ∀ children : List Node,
    unplacedAll children = children.map Node.unplaced := by
  intro children
  induction children with
  | nil => rfl
  | cons child rest ih => rw [unplacedAll, ih, List.map_cons]

theorem unplaced_children (node : Node) :
    node.unplaced.children = unplacedAll node.children := by
  obtain ⟨info, children⟩ := node
  rfl

theorem unplaced_mk {info : Info} {as bs : List Node}
    (h : unplacedAll as = unplacedAll bs) :
    (Node.mk info as).unplaced = (Node.mk info bs).unplaced := by
  rw [Node.unplaced, Node.unplaced, h]

theorem children_ne_nil_of_unplaced {a b : Node} (h : a.unplaced = b.unplaced)
    (hne : b.children ≠ []) : a.children ≠ [] := by
  intro hnil
  have hchildren : unplacedAll a.children = unplacedAll b.children := by
    rw [← unplaced_children, ← unplaced_children, h]
  rw [hnil, unplacedAll_eq_map, unplacedAll_eq_map] at hchildren
  exact hne (List.map_eq_nil_iff.mp hchildren.symm)

section Reported

variable (options : Options)

mutual

/-- The elements in a node whose messages are reported, each with its ancestors. -/
def reportedOf (ancestors : List Node) (node : Node) : List (List Node × Node) :=
  match node with
  | .mk info children =>
    if info.type = .element then
      reported (.mk info children :: ancestors) children ++
        if worthOutputting options ancestors (.mk info children) then
          [(ancestors, .mk info children)]
        else []
    else []
termination_by structural node

def reported (ancestors : List Node) (children : List Node) : List (List Node × Node) :=
  match children with
  | [] => []
  | child :: rest => reportedOf ancestors child ++ reported ancestors rest
termination_by structural children

end

end Reported

section Untranslated

variable {options : Options} {lib : Libxml2} {m : Merging}

/-- There is nothing in the catalogue, and nothing is marked. -/
structure Merging.Untranslated (options : Options) (lib : Libxml2) (m : Merging) : Prop where
  ugettext : ∀ s, m.ugettext s = none
  mark : m.markUntranslated = false
  blank : ∀ s, strip (normalizeString options lib s true) = [] →
    normalizeString options lib s true = [] ∨ normalizeString options lib s true = s

theorem Merging.Untranslated.template (h : m.Untranslated options lib) (call : Call) :
    call.template options lib m = call.text := by
  rw [Call.template, Call.answer]
  by_cases hblank : strip (call.msgid options lib) = []
  · rw [if_pos hblank]
    have hmsgid : call.msgid options lib = [] ∨ call.msgid options lib = call.text := by
      rw [Call.msgid] at hblank ⊢
      cases hspace : call.spacepreserve with
      | true => exact Or.inr rfl
      | false =>
        rw [hspace] at hblank
        exact h.blank call.text hblank
    rcases hmsgid with hnil | htext
    · rw [hnil]
      rfl
    · rw [htext, Option.filter_some]
      split_ifs
      · rfl
      · rfl
  · rw [if_neg hblank, h.ugettext]
    rfl

/-- The content that is put in, if the elements are filled in as they are. -/
theorem contentOf_plain (h : m.Untranslated options lib) {ancestors : List Node} {node : Node}
    (helement : node.type = .element) (hapart : ∀ n ∈ nodes node, ApartNode options lib n)
    (hfillers : fillers options lib m (node :: ancestors) node.children =
      holes (pieces options lib (node :: ancestors) node.children)) :
    contentOf options lib m ancestors node =
      plain options lib (node :: ancestors) node.children := by
  have hin : ∀ n ∈ forest node.children, ApartNode options lib n := fun n hn =>
    hapart n (forest_subset_nodes helement n hn)
  have hclean := (pieces_apart.2 node.children hin (node :: ancestors)).2
  rw [contentOf, h.template, hfillers, ← pieces_full.2]
  show fillTexts 0 _ (render 0 (pieces options lib (node :: ancestors) node.children)) = _
  rw [← filled_zero]
  exact fillTexts_filled hclean rfl

/-- The elements are filled in as they are in the document. -/
theorem fillers_untranslated (h : m.Untranslated options lib) :
    (∀ node : Node, (∀ n ∈ nodes node, ApartNode options lib n) → ∀ ancestors,
      ExtractableNode options lib ancestors node →
      fillersOf options lib m ancestors node = holes (piecesOf options lib ancestors node)) ∧
    ∀ children : List Node, (∀ n ∈ forest children, ApartNode options lib n) → ∀ ancestors,
      Extractable options lib ancestors children →
      fillers options lib m ancestors children = holes (pieces options lib ancestors children) := by
  apply Node.both
  case mk =>
    intro info children ih hapart ancestors hextract
    by_cases helement : (Node.mk info children).type = .element
    · have hin : ∀ n ∈ forest children, ApartNode options lib n := fun n hn =>
        hapart n (forest_subset_nodes helement n hn)
      have hfillers := ih hin _ (hextract.children helement)
      cases hbreaks : breaks options ancestors (.mk info children) with
      | true =>
        rw [fillersOf_breaks hbreaks, piecesOf_breaks hbreaks,
          contentOf_plain h helement hapart hfillers, plainOf_element helement]
        rfl
      | false =>
        rw [fillersOf_inline hbreaks helement, holes_inline hbreaks helement]
        exact hfillers
    · obtain ⟨hbreaks, _⟩ := hextract.leaf helement
      rw [fillersOf_leaf hbreaks helement, (piecesOf_leaf hbreaks helement 0).2]
  case nil =>
    intro _ ancestors _
    rfl
  case cons =>
    intro child rest ihchild ihrest hapart ancestors hextract
    rw [forest, List.forall_mem_append] at hapart
    obtain ⟨hchild, hrest⟩ := hextract.of_cons
    rw [fillers, pieces, holes, List.filterMap_append, ihchild hapart.1 _ hchild,
      ihrest hapart.2 _ hrest]
    rfl

/-- The elements that are put in are read back as they are serialized. -/
def ReadsBack (options : Options) (lib : Libxml2) (m : Merging)
    (elements : List (List Node × Node)) : Prop :=
  ∀ p ∈ elements, ∃ newelem, m.parseElement (plainOf options lib p.1 p.2) = some newelem ∧
    newelem.unplaced = p.2.unplaced

theorem reportedOf_element {ancestors : List Node} {node : Node} (h : node.type = .element) :
    reportedOf options ancestors node = reported options (node :: ancestors) node.children ++
      if worthOutputting options ancestors node then [(ancestors, node)] else [] := by
  obtain ⟨info, children⟩ := node
  have htype : info.type = .element := h
  rw [reportedOf, if_pos htype]
  rfl

theorem reportedOf_leaf {ancestors : List Node} {node : Node} (h : node.type ≠ .element) :
    reportedOf options ancestors node = [] := by
  obtain ⟨info, children⟩ := node
  rw [reportedOf]
  exact if_neg h

/-- An element in which no node is changed is not changed. -/
theorem mergedOf_untranslated (h : m.Untranslated options lib) {ancestors : List Node}
    {node : Node} (helement : node.type = .element)
    (hapart : ∀ n ∈ nodes node, ApartNode options lib n)
    (hextract : Extractable options lib (node :: ancestors) node.children)
    (hreads : ReadsBack options lib m (reportedOf options ancestors node))
    (hsame : unplacedAll (merged options lib m (node :: ancestors) node.children) =
      unplacedAll node.children) :
    (mergedOf options lib m ancestors node).unplaced = node.unplaced := by
  have hinside : (Node.mk node.info
      (merged options lib m (node :: ancestors) node.children)).unplaced = node.unplaced := by
    rw [unplaced_mk hsame]
    obtain ⟨info, children⟩ := node
    rfl
  by_cases hworth : worthOutputting options ancestors node = true
  · rw [reportedOf_element helement, if_pos hworth] at hreads
    obtain ⟨newelem, hread, hnew⟩ := hreads _ (List.mem_append_right _ List.mem_cons_self)
    have hfillers := (fillers_untranslated h).2 node.children
      (fun n hn => hapart n (forest_subset_nodes helement n hn)) _ hextract
    have hne : newelem.children ≠ [] :=
      children_ne_nil_of_unplaced hnew (children_of_worthOutputting helement hworth)
    have hmark : (((messageOf options lib ancestors [] node).call.answer options lib m).isNone &&
        m.markUntranslated) = false := by rw [h.mark, Bool.and_false]
    rw [plainOf_element helement, ← contentOf_plain h helement hapart hfillers] at hread
    rw [mergedOf_read helement hworth hmark hread hne, hnew]
  · rw [mergedOf_element helement, if_neg hworth, hinside]

/-- No node is changed. -/
theorem merged_untranslated (h : m.Untranslated options lib) :
    (∀ node : Node, (∀ n ∈ nodes node, ApartNode options lib n) → ∀ ancestors,
      ExtractableNode options lib ancestors node →
      ReadsBack options lib m (reportedOf options ancestors node) →
      (mergedOf options lib m ancestors node).unplaced = node.unplaced) ∧
    ∀ children : List Node, (∀ n ∈ forest children, ApartNode options lib n) → ∀ ancestors,
      Extractable options lib ancestors children →
      ReadsBack options lib m (reported options ancestors children) →
      unplacedAll (merged options lib m ancestors children) = unplacedAll children := by
  apply Node.both
  case mk =>
    intro info children ih hapart ancestors hextract hreads
    by_cases helement : (Node.mk info children).type = .element
    · have hchildren := hextract.children helement
      have hin : ∀ n ∈ forest children, ApartNode options lib n := fun n hn =>
        hapart n (forest_subset_nodes helement n hn)
      have hinside : ReadsBack options lib m
          (reported options (.mk info children :: ancestors) children) := by
        intro p hp
        apply hreads
        rw [reportedOf_element helement]
        exact List.mem_append_left _ hp
      exact mergedOf_untranslated h helement hapart hchildren hreads
        (ih hin _ hchildren hinside)
    · rw [mergedOf_leaf helement]
  case nil =>
    intro _ ancestors _ _
    rfl
  case cons =>
    intro child rest ihchild ihrest hapart ancestors hextract hreads
    rw [forest, List.forall_mem_append] at hapart
    obtain ⟨hchild, hrest⟩ := hextract.of_cons
    rw [reported] at hreads
    rw [merged, unplacedAll, unplacedAll,
      ihchild hapart.1 _ hchild fun p hp => hreads p (List.mem_append_left _ hp),
      ihrest hapart.2 _ hrest fun p hp => hreads p (List.mem_append_right _ hp)]

theorem merged_top (h : m.Untranslated options lib) {doc : Node}
    (hextract : ∀ c ∈ doc.children, c.type = .element →
      Extractable options lib [c, doc] c.children) : ∀ {children : List Node},
    (∀ c ∈ children, c ∈ doc.children) → (∀ n ∈ forest children, ApartNode options lib n) →
    ReadsBack options lib m (reported options [doc] children) →
    unplacedAll (merged options lib m [doc] children) = unplacedAll children := by
  intro children
  induction children with
  | nil =>
    intro _ _ _
    rfl
  | cons c rest ih =>
    intro hsub hapart hreads
    rw [List.forall_mem_cons] at hsub
    rw [forest, List.forall_mem_append] at hapart
    rw [reported] at hreads
    have hc : (mergedOf options lib m [doc] c).unplaced = c.unplaced := by
      by_cases helement : c.type = .element
      · have hchildren := hextract c hsub.1 helement
        refine mergedOf_untranslated h helement hapart.1 hchildren
          (fun p hp => hreads p (List.mem_append_left _ hp)) ?_
        refine (merged_untranslated h).2 c.children
          (fun n hn => hapart.1 n (forest_subset_nodes helement n hn)) _ hchildren ?_
        intro p hp
        apply hreads
        rw [reportedOf_element helement, List.append_assoc]
        exact List.mem_append_left _ hp
      · rw [mergedOf_leaf helement]
    rw [merged, unplacedAll, unplacedAll, hc,
      ih hsub.2 hapart.2 fun p hp => hreads p (List.mem_append_right _ hp)]

theorem mergedDocument_untranslated (h : m.Untranslated options lib) {doc : Node}
    (hapart : ∀ n ∈ forest doc.children, ApartNode options lib n)
    (hreads : ReadsBack options lib m (reported options [doc] doc.children))
    (hextract : ∀ c ∈ doc.children, c.type = .element →
      Extractable options lib [c, doc] c.children) :
    (mergedDocument options lib m doc).unplaced = doc.unplaced := by
  rw [mergedDocument, unplaced_mk (merged_top h hextract (fun _ hc => hc) hapart hreads)]
  obtain ⟨info, children⟩ := doc
  rfl

/-- Merged with a catalogue in which nothing is translated, a document stays as it is. -/
theorem merge_untranslated (hm : m.Proper lib) (h : m.Untranslated options lib)
    (hsound : options.Sound) {doc : Node} (hdoc : ProperDocument options doc)
    (hplain : PlainDocument options doc)
    (hroot : ∀ c ∈ doc.children, worthOutputting options [doc] c = true →
      isAscii (startTag options lib c) = true)
    (hapart : ∀ n ∈ forest doc.children, ApartNode options lib n)
    (hreads : ReadsBack options lib m (reported options [doc] doc.children))
    (hextracts : ∃ x, doSerialize options lib [] [] doc = .ok x) :
    ∃ s doc', mergeSerialize options lib m [] doc = .ok (s, doc') ∧
      doc'.unplaced = doc.unplaced := by
  have hextract := extractable_of_extracts hsound hdoc hplain hextracts
  obtain ⟨s, hs⟩ : ∃ s, mergeSerialize options lib m [] doc = _ :=
    mergeSerialize_document hm hsound hdoc hplain hroot hextract
  exact ⟨s, _, hs, mergedDocument_untranslated h hapart hreads hextract⟩

end Untranslated

/-! ## An empty catalogue -/

/-- A parser for the reported elements of the document. -/
def emptyCatalogue : Merging where
  ugettext _ := none
  markUntranslated := false
  parseElement := readsElements [
    (text "<title>A title</title>", (tag "title" [textNode "A title"]).unplaced),
    (text "<para>an item</para>", (tag "para" [textNode "an item"]).unplaced),
    (text "<para>Some <emphasis>text</emphasis> and " ++ itemizedText ++ text " more.</para>",
      paragraph.unplaced)]

theorem proper_emptyCatalogue : emptyCatalogue.Proper plainText where
  element := readsElements_element (by decide)
  lang h := Bool.noConfusion h

theorem untranslated_emptyCatalogue : emptyCatalogue.Untranslated someTags plainText where
  ugettext _ := rfl
  mark := rfl
  blank _ _ := Or.inr rfl

theorem readsBack_emptyCatalogue :
    ReadsBack someTags plainText emptyCatalogue (reported someTags [listing] listing.children) := by
  have hthree : reported someTags [listing] listing.children = [_, _, _] := rfl
  intro p hp
  rw [hthree] at hp
  rcases List.mem_cons.mp hp with rfl | hp
  · exact ⟨_, rfl, rfl⟩
  rcases List.mem_cons.mp hp with rfl | hp
  · exact ⟨_, rfl, rfl⟩
  rw [List.mem_singleton.mp hp]
  exact ⟨_, rfl, rfl⟩

theorem merge_untranslated_listing :
    ∃ s doc', mergeSerialize someTags plainText emptyCatalogue [] listing = .ok (s, doc') ∧
      doc'.unplaced = listing.unplaced :=
  merge_untranslated proper_emptyCatalogue untranslated_emptyCatalogue (Or.inr sound_someTags)
    proper_listing plain_listing root_listing (by decide) readsBack_emptyCatalogue listing_runs

end Xml2po
end I18nZh
