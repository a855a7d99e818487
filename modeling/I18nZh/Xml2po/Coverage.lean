import I18nZh.Xml2po.Messages

/-!
# Every text is in one message

The text nodes of a document that are not blank and the text nodes of its messages:
none is in two messages, and the ones that are in none stand in a tag to be ignored.
-/

namespace I18nZh
namespace Xml2po

open Po (Text text strip)

section Texts

variable (lib : Libxml2)

mutual

/-- The text nodes in a node that are not blank, each with the name of its parent. -/
def textNodesOf (parent : Text) (node : Node) : List (Text × Text) :=
  match node with
  | .mk info children =>
    if info.type = .element then textNodes info.name children
    else if info.type = .text && strip info.content ≠ [] then
      [(parent, lib.serialize (.mk info children))]
    else []
termination_by structural node

def textNodes (parent : Text) (children : List Node) : List (Text × Text) :=
  match children with
  | [] => []
  | child :: rest => textNodesOf parent child ++ textNodes parent rest
termination_by structural children

end

end Texts

/-- The tags are not looked at, or the tags to be ignored are final tags. -/
def Options.Sound (options : Options) : Prop :=
  options.automatic = true ∨ ∀ tag ∈ options.ignoredTags, tag ∈ options.ultimateTags

section Coverage

variable {options : Options} {lib : Libxml2}

/-! ## What is dropped -/

/-- A node with a text that is not blank and that is not final by itself. -/
theorem ignored_of_not_auto {parent child : Node} (hchild : child ∈ parent.children)
    (htype : child.type = .text) (hcontent : strip child.content ≠ [])
    (hauto : autoNodeIsFinal options parent = false) : parent.name ∈ options.ignoredTags := by
  by_contra hignored
  have hany : (parent.children.any fun child => child.type = .text && strip child.content ≠ []) =
      true := List.any_eq_true.mpr ⟨child, hchild, by simp [htype, hcontent]⟩
  rw [autoNodeIsFinal, if_neg hignored, hany] at hauto
  split_ifs at hauto

theorem leafText_text {ancestors : List Node} {node : Node} (hp : ProperNode options node)
    (htype : node.type = .text) : leafText options lib ancestors node = lib.serialize node := by
  have hname := hp.text htype
  have hignore : ignoreNode options ancestors node = false := by
    unfold ignoreNode
    split_ifs
    · simp [htype]
    · rfl
    · simp [htype, hname]
  have hnil : node.children = [] := by
    rcases hp.leaf with h | h | h
    · rw [htype] at h; cases h
    · rw [htype] at h; cases h
    · exact h
  rw [leafText, hignore, if_neg Bool.false_ne_true, hnil]
  rfl

theorem piecesOf_text {ancestors : List Node} {parent node : Node}
    (hp : ProperNode options node) (htype : node.type = .text)
    (hbreaks : breaks options (parent :: ancestors) node = false) :
    piecesOf options lib (parent :: ancestors) node =
      [.text parent.name node.content (lib.serialize node)] := by
  have hleaf : leafText options lib (parent :: ancestors) node = lib.serialize node :=
    leafText_text hp htype
  obtain ⟨info, children⟩ := node
  have htext : info.type = .text := htype
  rw [piecesOf, if_neg (by rw [hbreaks]; exact Bool.false_ne_true),
    if_neg (by rw [htext]; decide), if_pos htext, hleaf]
  rfl

theorem texts_text (parent content serialized : Text) :
    texts [.text parent content serialized] =
      if strip content = [] then [] else [(parent, serialized)] := by
  rw [texts, List.filterMap_cons, Piece.textNode?]
  by_cases h : strip content = []
  · rw [if_pos h, if_pos h]
    rfl
  · rw [if_neg h, if_neg h]
    rfl

theorem texts_inline {ancestors : List Node} {node : Node}
    (hbreaks : breaks options ancestors node = false) (helement : node.type = .element) :
    texts (piecesOf options lib ancestors node) =
      texts (pieces options lib (node :: ancestors) node.children) := by
  rw [piecesOf_inline hbreaks helement, texts, List.filterMap_cons_none rfl,
    List.filterMap_append]
  exact List.append_nil _

theorem texts_other {ancestors : List Node} {node : Node}
    (hbreaks : breaks options ancestors node = false) (helement : node.type ≠ .element)
    (htext : node.type ≠ .text) : texts (piecesOf options lib ancestors node) = [] := by
  obtain ⟨info, children⟩ := node
  have hinfo : info.type ≠ .element := helement
  have hinfo' : info.type ≠ .text := htext
  rw [piecesOf, if_neg (by rw [hbreaks]; exact Bool.false_ne_true), if_neg hinfo, if_neg hinfo']
  rfl

/-- A child that is inlined under a parent that drops its text. -/
theorem inline_drops {ancestors : List Node} {parent child : Node}
    (hbreaks : breaks options (parent :: ancestors) child = false)
    (helement : child.type = .element)
    (hclimb : climb options false (parent :: ancestors) = true) :
    climb options false (child :: parent :: ancestors) = true ∧
      autoNodeIsFinal options child = false := by
  have hworth := not_worth_of_not_breaks hbreaks helement
  rw [breaks, Bool.or_eq_false_iff] at hbreaks
  refine ⟨?_, ?_⟩
  · rw [climb_false_cons, if_neg (by rw [hbreaks.1]; exact Bool.false_ne_true)]
    exact hclimb
  · by_contra hauto
    rw [Bool.not_eq_false] at hauto
    rw [(worthOutputting_iff child).mpr ⟨hauto, Or.inr hclimb⟩] at hworth
    cases hworth

/-- Where no parent takes the text, its parent is to be ignored. -/
theorem dropped :
    (∀ node : Node, (∀ n ∈ nodes node, ProperNode options n) → ∀ {parent ancestors},
      node ∈ parent.children → climb options false (parent :: ancestors) = true →
      autoNodeIsFinal options parent = false →
      ∀ x ∈ texts (piecesOf options lib (parent :: ancestors) node), x.1 ∈ options.ignoredTags) ∧
    ∀ children : List Node, (∀ n ∈ forest children, ProperNode options n) → ∀ {parent ancestors},
      (∀ child ∈ children, child ∈ parent.children) →
      climb options false (parent :: ancestors) = true →
      autoNodeIsFinal options parent = false →
      ∀ x ∈ texts (pieces options lib (parent :: ancestors) children),
        x.1 ∈ options.ignoredTags := by
  apply Node.both
  case mk =>
    intro info children ih hproper parent ancestors hchild hclimb hauto x hx
    cases hbreaks : breaks options (parent :: ancestors) (.mk info children) with
    | true =>
      rw [piecesOf_breaks hbreaks] at hx
      cases hx
    | false =>
      by_cases helement : info.type = .element
      · obtain ⟨hclimb', hauto'⟩ := inline_drops hbreaks helement hclimb
        have hin : ∀ n ∈ forest children, ProperNode options n := fun n hn =>
          hproper n (forest_subset_nodes (show (Node.mk info children).type = _ from helement) n hn)
        have hsub : ∀ child ∈ children, child ∈ (Node.mk info children).children := fun _ h => h
        rw [texts_inline hbreaks helement] at hx
        exact ih hin hsub hclimb' hauto' x hx
      · by_cases htext : info.type = .text
        · rw [piecesOf_text (hproper _ (mem_nodes_self _)) htext hbreaks, texts_text] at hx
          split_ifs at hx with hblank
          · cases hx
          · rw [List.mem_singleton.mp hx]
            exact ignored_of_not_auto hchild htext hblank hauto
        · rw [texts_other hbreaks helement htext] at hx
          cases hx
  case nil =>
    intro _ parent ancestors _ _ _ x hx
    cases hx
  case cons =>
    intro child rest ihchild ihrest hproper parent ancestors hchildren hclimb hauto x hx
    rw [forest, List.forall_mem_append] at hproper
    rw [List.forall_mem_cons] at hchildren
    rw [pieces, texts, List.filterMap_append] at hx
    rcases List.mem_append.mp hx with hx | hx
    · exact ihchild hproper.1 hchildren.1 hclimb hauto x hx
    · exact ihrest hproper.2 hchildren.2 hclimb hauto x hx

/-! ## What is reported -/

/-- A final node that is not worth outputting lets its text be dropped. -/
theorem final_drops {ancestors : List Node} {node : Node}
    (hbreaks : breaks options ancestors node = true)
    (hworth : worthOutputting options ancestors node = false) :
    climb options false (node :: ancestors) = true ∧ autoNodeIsFinal options node = false := by
  rw [breaks, hworth, Bool.and_false, Bool.or_false] at hbreaks
  have hauto : autoNodeIsFinal options node = false := by
    by_contra hauto
    rw [Bool.not_eq_false] at hauto
    rw [(worthOutputting_iff node).mpr ⟨hauto, Or.inl hbreaks⟩] at hworth
    cases hworth
  rw [climb_false_cons, if_pos hbreaks, hauto]
  exact ⟨rfl, rfl⟩

/-- A text node that is taken for a final one stands in a tag to be ignored. -/
theorem ignored_of_final_text {ancestors : List Node} {parent node : Node}
    (hp : ProperNode options node) (htype : node.type = .text) (hchild : node ∈ parent.children)
    (hcontent : strip node.content ≠ [])
    (hbreaks : breaks options (parent :: ancestors) node = true) :
    parent.name ∈ options.ignoredTags := by
  have hfinal : isFinalNode options (parent :: ancestors) node = true := by
    simpa [breaks, htype] using hbreaks
  have hnil : node.children = [] := by
    rcases hp.leaf with h | h | h
    · rw [htype] at h; cases h
    · rw [htype] at h; cases h
    · exact h
  unfold isFinalNode at hfinal
  by_cases hautomatic : options.automatic = true
  · rw [if_pos hautomatic, Bool.and_eq_true, List.all_cons, Bool.and_eq_true] at hfinal
    exact ignored_of_not_auto hchild htype hcontent (Bool.not_eq_true' _ ▸ hfinal.2.1)
  · rw [if_neg hautomatic] at hfinal
    obtain ⟨info, children⟩ := node
    have htext : info.type = .text := htype
    have hempty : children = [] := hnil
    rw [tagsFinal, htext, hempty] at hfinal
    cases hfinal

/-- The texts of an element and the texts of its messages, when those of its children
are accounted for. -/
theorem element_covered {ancestors : List Node} {node : Node} {lost : List (Text × Text)}
    (helement : node.type = .element)
    (hperm : (textNodes lib node.name node.children).Perm
      ((messages options lib (node :: ancestors) [] node.children).flatMap Message.texts ++
        texts (pieces options lib (node :: ancestors) node.children) ++ lost))
    (hlost : ∀ x ∈ lost, x.1 ∈ options.ignoredTags)
    (hdrops : worthOutputting options ancestors node = false →
      ∀ x ∈ texts (pieces options lib (node :: ancestors) node.children),
        x.1 ∈ options.ignoredTags) :
    ∃ lost', (textNodes lib node.name node.children).Perm
        ((messagesOf options lib ancestors prevs node).flatMap Message.texts ++ lost') ∧
      ∀ x ∈ lost', x.1 ∈ options.ignoredTags := by
  rw [messagesOf_element helement, List.flatMap_append]
  cases hworth : worthOutputting options ancestors node with
  | true =>
    refine ⟨lost, ?_, hlost⟩
    rw [if_pos rfl, List.flatMap_singleton]
    exact hperm
  | false =>
    refine ⟨texts (pieces options lib (node :: ancestors) node.children) ++ lost, ?_, ?_⟩
    · rw [if_neg Bool.false_ne_true, List.flatMap_nil, List.append_nil, ← List.append_assoc]
      exact hperm
    · intro x hx
      rcases List.mem_append.mp hx with hx | hx
      · exact hdrops hworth x hx
      · exact hlost x hx

theorem textNodesOf_element {parent : Text} {node : Node} (h : node.type = .element) :
    textNodesOf lib parent node = textNodes lib node.name node.children := by
  obtain ⟨info, children⟩ := node
  have htype : info.type = .element := h
  rw [textNodesOf, if_pos htype]
  rfl

theorem textNodesOf_leaf {parent : Text} {node : Node} (h : node.type ≠ .element) :
    textNodesOf lib parent node =
      if node.type = .text ∧ strip node.content ≠ [] then [(parent, lib.serialize node)]
      else [] := by
  obtain ⟨info, children⟩ := node
  have htype : info.type ≠ .element := h
  rw [textNodesOf, if_neg htype]
  simp only [Bool.and_eq_true, decide_eq_true_eq]
  rfl

/-- What stands in a node: in a message of the node, in the message around it, or in a
tag to be ignored. -/
def Covered (options : Options) (found : List (Text × Text)) (reported : List Message)
    (around : List Piece) : Prop :=
  ∃ lost, found.Perm (reported.flatMap Message.texts ++ texts around ++ lost) ∧
    ∀ x ∈ lost, x.1 ∈ options.ignoredTags

theorem leaf_covered {ancestors prevs : List Node} {parent node : Node}
    (hp : ProperNode options node) (htype : node.type ≠ .element)
    (hchild : node ∈ parent.children) :
    Covered options (textNodesOf lib parent.name node)
      (messagesOf options lib (parent :: ancestors) prevs node)
      (piecesOf options lib (parent :: ancestors) node) := by
  rw [messagesOf_leaf htype, textNodesOf_leaf htype]
  cases hbreaks : breaks options (parent :: ancestors) node with
  | true =>
    rw [piecesOf_breaks hbreaks]
    by_cases htext : node.type = .text ∧ strip node.content ≠ []
    · rw [if_pos htext]
      refine ⟨[(parent.name, lib.serialize node)], List.Perm.refl _, ?_⟩
      rw [List.forall_mem_singleton]
      exact ignored_of_final_text hp htext.1 hchild htext.2 hbreaks
    · rw [if_neg htext]
      exact ⟨[], List.Perm.refl _, by simp⟩
  | false =>
    refine ⟨[], ?_, by simp⟩
    rw [List.append_nil]
    by_cases htext : node.type = .text
    · rw [piecesOf_text hp htext hbreaks, texts_text]
      by_cases hblank : strip node.content = []
      · rw [if_neg fun h => h.2 hblank, if_pos hblank]
        exact List.Perm.refl _
      · rw [if_pos ⟨htext, hblank⟩, if_neg hblank]
        exact List.Perm.refl _
    · rw [if_neg fun h => htext h.1, texts_other hbreaks htype htext]
      exact List.Perm.refl _

theorem covered :
    (∀ node : Node, (∀ n ∈ nodes node, ProperNode options n) → ∀ parent ancestors prevs,
      node ∈ parent.children →
      Covered options (textNodesOf lib parent.name node)
        (messagesOf options lib (parent :: ancestors) prevs node)
        (piecesOf options lib (parent :: ancestors) node)) ∧
    ∀ children : List Node, (∀ n ∈ forest children, ProperNode options n) →
      ∀ parent ancestors prevs,
      (∀ child ∈ children, child ∈ parent.children) →
      Covered options (textNodes lib parent.name children)
        (messages options lib (parent :: ancestors) prevs children)
        (pieces options lib (parent :: ancestors) children) := by
  apply Node.both
  case mk =>
    intro info children ih hproper parent ancestors prevs hchild
    by_cases helement : (Node.mk info children).type = .element
    · have hin : ∀ n ∈ forest children, ProperNode options n := fun n hn =>
        hproper n (forest_subset_nodes helement n hn)
      have hsub : ∀ child ∈ children, child ∈ (Node.mk info children).children := fun _ h => h
      obtain ⟨lost, hperm, hlost⟩ := ih hin (.mk info children) (parent :: ancestors) [] hsub
      rw [textNodesOf_element helement]
      cases hbreaks : breaks options (parent :: ancestors) (.mk info children) with
      | true =>
        obtain ⟨lost', hperm', hlost'⟩ := element_covered helement hperm hlost fun hworth => by
          obtain ⟨hclimb, hauto⟩ := final_drops hbreaks hworth
          exact dropped.2 children hin hsub hclimb hauto
        rw [piecesOf_breaks hbreaks]
        refine ⟨lost', ?_, hlost'⟩
        rw [show texts [Piece.hole _] = [] from rfl, List.append_nil]
        exact hperm'
      | false =>
        rw [messagesOf_element helement, not_worth_of_not_breaks hbreaks helement,
          if_neg Bool.false_ne_true, List.append_nil]
        refine ⟨lost, ?_, hlost⟩
        rw [texts_inline hbreaks helement]
        exact hperm
    · exact leaf_covered (hproper _ (mem_nodes_self _)) helement hchild
  case nil =>
    intro _ parent ancestors prevs _
    exact ⟨[], List.Perm.refl _, by simp⟩
  case cons =>
    intro child rest ihchild ihrest hproper parent ancestors prevs hchildren
    rw [forest, List.forall_mem_append] at hproper
    rw [List.forall_mem_cons] at hchildren
    obtain ⟨lost, hperm, hlost⟩ := ihchild hproper.1 parent ancestors prevs hchildren.1
    obtain ⟨lost', hperm', hlost'⟩ := ihrest hproper.2 parent ancestors
      (child :: prevs) hchildren.2
    refine ⟨lost ++ lost', ?_, ?_⟩
    · rw [textNodes, messages, pieces, List.flatMap_append, texts, List.filterMap_append]
      refine (hperm.append hperm').trans ?_
      rw [List.perm_iff_count]
      intro x
      simp only [List.count_append, texts]
      omega
    · intro x hx
      rcases List.mem_append.mp hx with hx | hx
      · exact hlost x hx
      · exact hlost' x hx

/-! ## Tags to be ignored that are final -/

section Tags

variable (hautomatic : options.automatic = false)
variable (hfinal : ∀ tag ∈ options.ignoredTags, tag ∈ options.ultimateTags)

include hautomatic hfinal

theorem not_ignored_of_not_breaks {ancestors : List Node} {node : Node}
    (hbreaks : breaks options ancestors node = false) (helement : node.type = .element) :
    node.name ∉ options.ignoredTags := by
  intro hignored
  obtain ⟨info, children⟩ := node
  have htype : info.type = .element := helement
  have hname : info.name ∈ options.ultimateTags := hfinal _ hignored
  rw [breaks, Bool.or_eq_false_iff, isFinalNode, hautomatic, if_neg Bool.false_ne_true,
    tagsFinal] at hbreaks
  simp [htype, hname] at hbreaks

/-- In the message around it a text stands in its parent, or in a tag that is not
ignored. -/
theorem around_not_ignored :
    (∀ node : Node, (∀ n ∈ nodes node, ProperNode options n) → ∀ parent ancestors,
      ∀ x ∈ texts (piecesOf options lib (parent :: ancestors) node),
        x.1 = parent.name ∨ x.1 ∉ options.ignoredTags) ∧
    ∀ children : List Node, (∀ n ∈ forest children, ProperNode options n) → ∀ parent ancestors,
      ∀ x ∈ texts (pieces options lib (parent :: ancestors) children),
        x.1 = parent.name ∨ x.1 ∉ options.ignoredTags := by
  apply Node.both
  case mk =>
    intro info children ih hproper parent ancestors x hx
    cases hbreaks : breaks options (parent :: ancestors) (.mk info children) with
    | true =>
      rw [piecesOf_breaks hbreaks] at hx
      cases hx
    | false =>
      by_cases helement : (Node.mk info children).type = .element
      · have hin : ∀ n ∈ forest children, ProperNode options n := fun n hn =>
          hproper n (forest_subset_nodes helement n hn)
        rw [texts_inline hbreaks helement] at hx
        rcases ih hin (.mk info children) (parent :: ancestors) x hx with h | h
        · rw [h]
          exact Or.inr (not_ignored_of_not_breaks hautomatic hfinal hbreaks helement)
        · exact Or.inr h
      · by_cases htext : info.type = .text
        · rw [piecesOf_text (hproper _ (mem_nodes_self _)) htext hbreaks, texts_text] at hx
          split_ifs at hx with hblank
          · cases hx
          · rw [List.mem_singleton.mp hx]
            exact Or.inl rfl
        · rw [texts_other hbreaks helement htext] at hx
          cases hx
  case nil =>
    intro _ parent ancestors x hx
    cases hx
  case cons =>
    intro child rest ihchild ihrest hproper parent ancestors x hx
    rw [forest, List.forall_mem_append] at hproper
    rw [pieces, texts, List.filterMap_append] at hx
    rcases List.mem_append.mp hx with hx | hx
    · exact ihchild hproper.1 parent ancestors x hx
    · exact ihrest hproper.2 parent ancestors x hx

theorem reported_not_ignored :
    (∀ node : Node, (∀ n ∈ nodes node, ProperNode options n) → ∀ ancestors prevs,
      ∀ x ∈ (messagesOf options lib ancestors prevs node).flatMap Message.texts,
        x.1 ∉ options.ignoredTags) ∧
    ∀ children : List Node, (∀ n ∈ forest children, ProperNode options n) → ∀ ancestors prevs,
      ∀ x ∈ (messages options lib ancestors prevs children).flatMap Message.texts,
        x.1 ∉ options.ignoredTags := by
  apply Node.both
  case mk =>
    intro info children ih hproper ancestors prevs x hx
    by_cases helement : (Node.mk info children).type = .element
    · have hin : ∀ n ∈ forest children, ProperNode options n := fun n hn =>
        hproper n (forest_subset_nodes helement n hn)
      rw [messagesOf_element helement, List.flatMap_append] at hx
      rcases List.mem_append.mp hx with hx | hx
      · exact ih hin _ _ x hx
      · by_cases hworth : worthOutputting options ancestors (.mk info children) = true
        · rw [if_pos hworth, List.flatMap_singleton] at hx
          rcases (around_not_ignored hautomatic hfinal).2 children hin _ _ x hx with h | h
          · rw [h]
            intro hignored
            have hauto := ((worthOutputting_iff _).mp hworth).1
            rw [autoNodeIsFinal_ignored hignored] at hauto
            cases hauto
          · exact h
        · rw [if_neg hworth] at hx
          cases hx
    · rw [messagesOf_leaf helement] at hx
      cases hx
  case nil =>
    intro _ ancestors prevs x hx
    cases hx
  case cons =>
    intro child rest ihchild ihrest hproper ancestors prevs x hx
    rw [forest, List.forall_mem_append] at hproper
    rw [messages, List.flatMap_append] at hx
    rcases List.mem_append.mp hx with hx | hx
    · exact ihchild hproper.1 ancestors prevs x hx
    · exact ihrest hproper.2 ancestors (child :: prevs) x hx

end Tags

/-! ## Documents -/

/-- Of what a DTD has in it only an entity has children. -/
def Declares (dtd : Node) : Prop := ∀ d ∈ dtd.children, d.type = .entityDecl ∨ d.children = []

/-- What a parser puts into a document; its name is the name of the file.  The DTD is
not taken for a final node, or it has nothing but declarations in it. -/
structure ProperDocument (options : Options) (doc : Node) : Prop where
  type : doc.type = .document
  name : doc.name ∉ options.ignoredTags
  child : ∀ c ∈ doc.children,
    (c.type = .element ∧ ∀ n ∈ nodes c, ProperNode options n) ∨
      ((c.type = .comment ∨ c.type = .pi) ∧ c.children = []) ∨
      (c.type = .dtd ∧ (tagsFinal options c = false ∨ Declares c))

theorem ProperDocument.not_auto {doc : Node} (h : ProperDocument options doc) :
    autoNodeIsFinal options doc = false := by
  have htext : isText doc = false := by rw [isText, h.type]; rfl
  rw [autoNodeIsFinal, if_neg h.name, htext, Bool.false_and, if_neg Bool.false_ne_true,
    List.any_eq_false]
  intro c hc
  have htype : c.type ≠ .text := by
    rcases h.child c hc with ⟨h, _⟩ | ⟨h | h, _⟩ | ⟨h, _⟩
    all_goals
      rw [h]
      decide
  simp [htype]

theorem ProperDocument.climb {doc : Node} (h : ProperDocument options doc) :
    climb options false [doc] = true := by
  rw [climb_false_cons, h.not_auto]
  split_ifs <;> rfl

theorem ignoreNode_element (hsound : options.Sound) {ancestors : List Node} {node : Node}
    (htype : node.type = .element) : ignoreNode options ancestors node = false := by
  unfold ignoreNode
  rcases hsound with hautomatic | hfinal
  · rw [if_pos hautomatic, htype]
    rfl
  · by_cases hautomatic : options.automatic = true
    · rw [if_pos hautomatic, htype]
      rfl
    · rw [if_neg hautomatic]
      by_cases hnode : isFinalNode options ancestors node = true
      · rw [if_pos hnode]
      · rw [if_neg hnode, htype]
        have hname : node.name ∉ options.ignoredTags := by
          intro hignored
          obtain ⟨info, children⟩ := node
          have helement : info.type = .element := htype
          have hultimate : info.name ∈ options.ultimateTags := hfinal _ hignored
          rw [isFinalNode, if_neg hautomatic, tagsFinal] at hnode
          simp [helement, hultimate] at hnode
        simp [hname]

theorem messagesOf_nil {ancestors prevs : List Node} {node : Node} (hnil : node.children = []) :
    messagesOf options lib ancestors prevs node = [] := by
  by_cases helement : node.type = .element
  · have hauto : autoNodeIsFinal options node = false := by
      have htext : isText node = false := by rw [isText, helement]; rfl
      rw [autoNodeIsFinal, htext, Bool.false_and, if_neg Bool.false_ne_true, hnil]
      split_ifs <;> rfl
    have hworth : worthOutputting options ancestors node ≠ true := by
      rw [Ne, worthOutputting_iff, hauto]
      exact fun h => Bool.noConfusion h.1
    rw [messagesOf_element helement, hnil, if_neg hworth]
    rfl
  · exact messagesOf_leaf helement

/-! ### The DTD -/

theorem serializeLeaf_declaration {d : Node} (h : d.type = .entityDecl ∨ d.children = []) :
    serializeLeaf lib d = .ok (str (lib.serialize d)) := by
  unfold serializeLeaf
  rcases h with h | h
  · simp [h]
  · simp [h]

theorem isLeaf_declaration {info : Info} {children : List Node}
    (h : (Node.mk info children).type = .entityDecl ∨ (Node.mk info children).children = []) :
    (children.isEmpty || decide (info.type = .entityRef) ||
      decide (info.type = .entityDecl) || decide (info.type = .text)) = true := by
  rcases h with h | h
  · have htype : info.type = .entityDecl := h
    simp [htype]
  · have hnil : children = [] := h
    simp [hnil]

theorem not_isLeaf_dtd {info : Info} {children : List Node} (htype : info.type = .dtd)
    (hne : (Node.mk info children).children ≠ []) :
    ¬ (children.isEmpty || decide (info.type = .entityRef) ||
      decide (info.type = .entityDecl) || decide (info.type = .text)) = true := by
  have hchildren : children ≠ [] := hne
  simp [htype, hchildren]

theorem doSerialize_declaration (ancestors prevs : List Node) {d : Node}
    (h : d.type = .entityDecl ∨ d.children = []) :
    ∃ t, doSerialize options lib ancestors prevs d = .ok (str t, []) := by
  have hleaf : serializeLeaf lib d = _ := serializeLeaf_declaration h
  obtain ⟨info, children⟩ := d
  rw [doSerialize, if_pos (isLeaf_declaration h), hleaf]
  split_ifs
  · exact ⟨_, rfl⟩
  · exact ⟨_, rfl⟩

theorem serializeChildren_declarations (ancestors : List Node) : ∀ {children : List Node}
    (prevs : List Node) (outtxt : Text), (∀ d ∈ children, d.type = .entityDecl ∨ d.children = []) →
    ∃ t, serializeChildren options lib ancestors prevs (str outtxt) children =
      .ok (str t, []) := by
  intro children
  induction children with
  | nil =>
    intro prevs outtxt _
    exact ⟨outtxt, rfl⟩
  | cons d rest ih =>
    intro prevs outtxt h
    rw [List.forall_mem_cons] at h
    obtain ⟨t, ht⟩ : ∃ t, doSerialize options lib ancestors prevs d = .ok (str t, []) :=
      doSerialize_declaration ancestors prevs h.1
    obtain ⟨u, hu⟩ := ih (d :: prevs) (outtxt ++ t) h.2
    have happend : (str outtxt).append (str t) = .ok (str (outtxt ++ t)) := rfl
    refine ⟨u, ?_⟩
    rw [serializeChildren, ht, Po.ok_bind]
    simp only
    rw [happend, Po.ok_bind, hu]
    rfl

theorem doSerialize_dtd (ancestors prevs : List Node) {dtd : Node} (htype : dtd.type = .dtd)
    (h : Declares dtd) : ∃ t, doSerialize options lib ancestors prevs dtd = .ok (str t, []) := by
  by_cases hnil : dtd.children = []
  · exact doSerialize_declaration ancestors prevs (Or.inr hnil)
  · obtain ⟨info, children⟩ := dtd
    have hdtd : info.type = .dtd := htype
    have helement : info.type ≠ .element := by
      rw [hdtd]
      decide
    obtain ⟨t, ht⟩ : ∃ t, serializeChildren options lib (.mk info children :: ancestors) []
        (str []) children = .ok (str t, []) := serializeChildren_declarations _ [] [] h
    rw [doSerialize, if_neg (not_isLeaf_dtd hdtd hnil), if_neg helement, ht]
    split_ifs
    · exact ⟨_, rfl⟩
    · exact ⟨_, rfl⟩

/-- At the top of a document, what has children and is no element is ignored, or a DTD. -/
theorem ProperDocument.leaf {doc c : Node} (h : ProperDocument options doc)
    (hc : c ∈ doc.children) (hother : c.type ≠ .element ∨ c.children = []) :
    ignoreNode options [doc] c = true ∨ c.children = [] ∨ (c.type = .dtd ∧ Declares c) := by
  rcases h.child c hc with ⟨htype, _⟩ | ⟨_, hnil⟩ | ⟨htype, hfinal | hdeclares⟩
  · exact Or.inr (Or.inl (hother.resolve_left (not_not.mpr htype)))
  · exact Or.inr (Or.inl hnil)
  · left
    unfold ignoreNode isFinalNode
    by_cases hautomatic : options.automatic = true
    · rw [if_pos hautomatic, htype]
      rfl
    · rw [if_neg hautomatic, if_neg hautomatic, hfinal, htype]
      simp
  · exact Or.inr (Or.inr ⟨htype, hdeclares⟩)

/-- What stands at the top of a document and is no element with children. -/
theorem ProperDocument.doSerialize_other {doc c : Node} (h : ProperDocument options doc)
    (hc : c ∈ doc.children) (hother : c.type ≠ .element ∨ c.children = []) (prevs : List Node) :
    ∃ t, doSerialize options lib [doc] prevs c = .ok (str t, []) := by
  rcases h.leaf hc hother with hignore | hnil | ⟨htype, hdeclares⟩
  · obtain ⟨info, children⟩ := c
    rw [doSerialize, if_pos hignore]
    exact ⟨[], rfl⟩
  · exact doSerialize_declaration [doc] prevs (Or.inr hnil)
  · exact doSerialize_dtd [doc] prevs htype hdeclares

theorem ProperDocument.not_ignored {doc : Node} (h : ProperDocument options doc) :
    ignoreNode options [] doc = false := by
  unfold ignoreNode
  split_ifs
  · rw [h.type]
    rfl
  · rfl
  · simp [h.name, h.type]

/-- What stands at the top of a document. -/
theorem doSerialize_child (hsound : options.Sound) {doc c : Node} {prevs : List Node}
    {s : PyString} {calls : List Call} (hdoc : ProperDocument options doc) (hc : c ∈ doc.children)
    (h : doSerialize options lib [doc] prevs c = .ok (s, calls)) :
    calls = (messagesOf options lib [doc] prevs c).map Message.call := by
  by_cases hother : c.type ≠ .element ∨ c.children = []
  · obtain ⟨t, ht⟩ : ∃ t, doSerialize options lib [doc] prevs c = .ok (str t, []) :=
      hdoc.doSerialize_other hc hother prevs
    have hnone : messagesOf options lib [doc] prevs c = [] :=
      hother.elim messagesOf_leaf messagesOf_nil
    rw [ht] at h
    cases h
    rw [hnone]
    rfl
  · rw [not_or, not_not] at hother
    obtain ⟨htype, hnil⟩ := hother
    have hproper : ∀ n ∈ nodes c, ProperNode options n := by
      rcases hdoc.child c hc with ⟨_, hproper⟩ | ⟨_, hempty⟩ | ⟨hno, _⟩
      · exact hproper
      · exact absurd hempty hnil
      · rw [htype] at hno
        cases hno
    rw [doSerialize_element options lib [doc] prevs (ignoreNode_element hsound htype) hnil
      htype] at h
    obtain ⟨⟨r, repl', calls'⟩, hrun, h⟩ := exists_of_bind h
    obtain ⟨t, _, h⟩ := exists_of_bind h
    cases h
    exact ((processed.1 c) hproper (fun hno => Bool.noConfusion hno) hrun).calls

theorem serializeChildren_calls (hsound : options.Sound) {doc : Node}
    (hdoc : ProperDocument options doc) : ∀ {children prevs : List Node} {outtxt s : PyString}
    {calls : List Call}, (∀ c ∈ children, c ∈ doc.children) →
    serializeChildren options lib [doc] prevs outtxt children = .ok (s, calls) →
    calls = (messages options lib [doc] prevs children).map Message.call := by
  intro children
  induction children with
  | nil =>
    intro prevs outtxt s calls _ h
    cases h
    rfl
  | cons child rest ih =>
    intro prevs outtxt s calls hsub h
    rw [List.forall_mem_cons] at hsub
    rw [serializeChildren] at h
    obtain ⟨⟨t, c⟩, hchild, h⟩ := exists_of_bind h
    obtain ⟨o, _, h⟩ := exists_of_bind h
    obtain ⟨⟨o', c'⟩, hrest, h⟩ := exists_of_bind h
    cases h
    rw [doSerialize_child hsound hdoc hsub.1 hchild, ih hsub.2 hrest, messages,
      List.map_append]

theorem doSerialize_document {doc : Node} (hdoc : ProperDocument options doc)
    (hne : doc.children ≠ []) : doSerialize options lib [] [] doc =
      serializeChildren options lib [doc] [] (str []) doc.children := by
  have htype := hdoc.type
  have hignore := hdoc.not_ignored
  obtain ⟨info, children⟩ := doc
  have hinfo : info.type = .document := htype
  have hempty : children.isEmpty = false := by
    rw [Bool.eq_false_iff, Ne, List.isEmpty_iff]
    exact hne
  rw [doSerialize, if_neg (by rw [hignore]; exact Bool.false_ne_true), hempty, hinfo]
  rfl

theorem document_calls (hsound : options.Sound) {doc : Node} (hdoc : ProperDocument options doc)
    {s : PyString} {calls : List Call}
    (h : doSerialize options lib [] [] doc = .ok (s, calls)) :
    calls = (messages options lib [doc] [] doc.children).map Message.call := by
  by_cases hnil : doc.children = []
  · obtain ⟨t, ht⟩ : ∃ t, doSerialize options lib [] [] doc = .ok (str t, []) :=
      doSerialize_declaration [] [] (Or.inr hnil)
    rw [ht] at h
    cases h
    rw [hnil]
    rfl
  rw [doSerialize_document hdoc hnil] at h
  exact serializeChildren_calls hsound hdoc (fun c hc => hc) h

theorem top_covered {doc : Node} (hdoc : ProperDocument options doc) :
    ∀ (children prevs : List Node), (∀ c ∈ children, c ∈ doc.children) →
    ∃ lost, (textNodes lib doc.name children).Perm
        ((messages options lib [doc] prevs children).flatMap Message.texts ++ lost) ∧
      ∀ x ∈ lost, x.1 ∈ options.ignoredTags := by
  intro children
  induction children with
  | nil =>
    intro prevs _
    exact ⟨[], List.Perm.refl _, by simp⟩
  | cons child rest ih =>
    intro prevs hsub
    rw [List.forall_mem_cons] at hsub
    obtain ⟨lost, hperm, hlost⟩ := ih (child :: prevs) hsub.2
    have hchild : ∃ lost, (textNodesOf lib doc.name child).Perm
        ((messagesOf options lib [doc] prevs child).flatMap Message.texts ++ lost) ∧
          ∀ x ∈ lost, x.1 ∈ options.ignoredTags := by
      by_cases helement : child.type = .element
      · have hproper : ∀ n ∈ forest child.children, ProperNode options n := by
          rcases hdoc.child child hsub.1 with ⟨_, h⟩ | ⟨h | h, _⟩ | ⟨h, _⟩
          · exact fun n hn => h n (forest_subset_nodes helement n hn)
          all_goals
            rw [h] at helement
            cases helement
        obtain ⟨lost', hperm', hlost'⟩ := covered.2 child.children hproper child [doc] []
          fun c hc => hc
        rw [textNodesOf_element helement]
        refine element_covered helement hperm' hlost' fun hworth => ?_
        have hauto : autoNodeIsFinal options child = false := by
          by_contra hno
          rw [Bool.not_eq_false] at hno
          rw [(worthOutputting_iff child).mpr ⟨hno, Or.inr hdoc.climb⟩] at hworth
          cases hworth
        have hclimb : climb options false [child, doc] = true := by
          rw [climb_false_cons, hauto, hdoc.climb]
          split_ifs <;> rfl
        exact dropped.2 child.children hproper (fun c hc => hc) hclimb hauto
      · refine ⟨[], ?_, by simp⟩
        have htext : child.type ≠ .text := by
          rcases hdoc.child child hsub.1 with ⟨h, _⟩ | ⟨h | h, _⟩ | ⟨h, _⟩
          all_goals
            rw [h]
            decide
        rw [messagesOf_leaf helement, textNodesOf_leaf helement, if_neg fun h => htext h.1]
        exact List.Perm.refl _
    obtain ⟨lost', hperm', hlost'⟩ := hchild
    refine ⟨lost' ++ lost, ?_, ?_⟩
    · rw [textNodes, messages, List.flatMap_append]
      refine (hperm'.append hperm).trans ?_
      rw [List.perm_iff_count]
      intro x
      simp only [List.count_append]
      omega
    · intro x hx
      rcases List.mem_append.mp hx with hx | hx
      · exact hlost' x hx
      · exact hlost x hx

/-- The messages of a document that is extracted: every text that is not blank is in one
of them, and in one only, or stands in a tag to be ignored. -/
theorem document_covered (hsound : options.Sound) {doc : Node}
    (hdoc : ProperDocument options doc) {s : PyString} {calls : List Call}
    (h : doSerialize options lib [] [] doc = .ok (s, calls)) :
    calls = (messages options lib [doc] [] doc.children).map Message.call ∧
      ∃ lost, (textNodes lib doc.name doc.children).Perm
          ((messages options lib [doc] [] doc.children).flatMap Message.texts ++ lost) ∧
        ∀ x ∈ lost, x.1 ∈ options.ignoredTags :=
  ⟨document_calls hsound hdoc h, top_covered hdoc doc.children [] fun _ hc => hc⟩

section Tags

variable (hautomatic : options.automatic = false)
variable (hfinal : ∀ tag ∈ options.ignoredTags, tag ∈ options.ultimateTags)

include hautomatic hfinal

theorem top_not_ignored {doc : Node} (hdoc : ProperDocument options doc) :
    ∀ (children prevs : List Node), (∀ c ∈ children, c ∈ doc.children) →
    ∀ x ∈ (messages options lib [doc] prevs children).flatMap Message.texts,
      x.1 ∉ options.ignoredTags := by
  intro children
  induction children with
  | nil =>
    intro prevs _ x hx
    cases hx
  | cons child rest ih =>
    intro prevs hsub x hx
    rw [List.forall_mem_cons] at hsub
    rw [messages, List.flatMap_append] at hx
    rcases List.mem_append.mp hx with hx | hx
    · by_cases helement : child.type = .element
      · rcases hdoc.child child hsub.1 with ⟨_, h⟩ | ⟨h | h, _⟩ | ⟨h, _⟩
        · exact (reported_not_ignored hautomatic hfinal).1 child h [doc] prevs x hx
        all_goals
          rw [h] at helement
          cases helement
      · rw [messagesOf_leaf helement] at hx
        cases hx
    · exact ih (child :: prevs) hsub.2 x hx

/-- By the tags, when the tags to be ignored are final: the texts of the messages are
those that stand in no tag to be ignored, each of them once. -/
theorem document_covered_tags {doc : Node} (hdoc : ProperDocument options doc) {s : PyString}
    {calls : List Call} (h : doSerialize options lib [] [] doc = .ok (s, calls)) :
    calls = (messages options lib [doc] [] doc.children).map Message.call ∧
      ((messages options lib [doc] [] doc.children).flatMap Message.texts).Perm
        ((textNodes lib doc.name doc.children).filter fun x => x.1 ∉ options.ignoredTags) := by
  refine ⟨document_calls (Or.inr hfinal) hdoc h, ?_⟩
  obtain ⟨lost, hperm, hlost⟩ := top_covered hdoc doc.children [] fun _ hc => hc
  have hkept : ((messages options lib [doc] [] doc.children).flatMap Message.texts).filter
      (fun x => x.1 ∉ options.ignoredTags) =
        (messages options lib [doc] [] doc.children).flatMap Message.texts := by
    rw [List.filter_eq_self]
    intro x hx
    exact decide_eq_true (top_not_ignored hautomatic hfinal hdoc _ _ (fun _ hc => hc) x hx)
  have hnone : lost.filter (fun x => x.1 ∉ options.ignoredTags) = [] := by
    rw [List.filter_eq_nil_iff]
    intro x hx
    simp [hlost x hx]
  have hfilter := hperm.filter (fun x => x.1 ∉ options.ignoredTags)
  rw [List.filter_append, hkept, hnone, List.append_nil] at hfilter
  exact hfilter.symm

end Tags

end Coverage

/-! ## A document -/

def listing : Node :=
  .mk ⟨.document, text "book.xml", [], [], 0, false⟩
    [tag "book" [textNode "\n", tag "title" [textNode "A title"], textNode "\n", paragraph]]

theorem proper_listing : ProperDocument someTags listing := by
  refine ⟨rfl, by decide, ?_⟩
  intro c hc
  rw [List.mem_singleton.mp hc]
  exact Or.inl ⟨rfl, by decide⟩

theorem sound_someTags : ∀ tag ∈ someTags.ignoredTags, tag ∈ someTags.ultimateTags := by decide

theorem listing_runs : ∃ x, doSerialize someTags plainText [] [] listing = .ok x := ⟨_, rfl⟩

theorem document_covered_listing : ∃ s calls,
    doSerialize someTags plainText [] [] listing = .ok (s, calls) ∧
      calls = (messages someTags plainText [listing] [] listing.children).map Message.call ∧
      ∃ lost, (textNodes plainText listing.name listing.children).Perm
          ((messages someTags plainText [listing] [] listing.children).flatMap Message.texts ++
            lost) ∧
        ∀ x ∈ lost, x.1 ∈ someTags.ignoredTags := by
  obtain ⟨⟨s, calls⟩, hrun⟩ := listing_runs
  exact ⟨s, calls, hrun, document_covered (Or.inr sound_someTags) proper_listing hrun⟩

theorem document_covered_tags_listing : ∃ s calls,
    doSerialize someTags plainText [] [] listing = .ok (s, calls) ∧
      calls = (messages someTags plainText [listing] [] listing.children).map Message.call ∧
      ((messages someTags plainText [listing] [] listing.children).flatMap Message.texts).Perm
        ((textNodes plainText listing.name listing.children).filter
          fun x => x.1 ∉ someTags.ignoredTags) := by
  obtain ⟨⟨s, calls⟩, hrun⟩ := listing_runs
  exact ⟨s, calls, hrun, document_covered_tags rfl sound_someTags proper_listing hrun⟩

end Xml2po
end I18nZh
