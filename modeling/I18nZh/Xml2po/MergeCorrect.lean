import I18nZh.Xml2po.Translated

/-!
# What merging makes of a document

The run that changes the tree on the way comes to its end for every catalogue, and leaves
the translated document.
-/

namespace I18nZh
namespace Xml2po

open Po (Text text strip)

section MergeCorrect

variable {options : Options} {lib : Libxml2} {m : Merging}

/-! ## What is put in -/

theorem type_mark (call : Call) (node : Node) :
    (m.mark options lib call node).type = node.type := by
  rw [Merging.mark]
  split_ifs <;> rfl

theorem type_put (hm : m.Proper lib) {node : Node} (h : node.type = .element) (content : Text) :
    (m.put options lib content node).type = .element := by
  rw [Merging.put]
  cases hparse : m.parseElement (element (startTag options lib node) content node.name) with
  | none => exact h
  | some newelem =>
    show (if newelem.children = [] then node else newelem).type = .element
    split_ifs
    · exact h
    · exact hm.element _ newelem hparse

theorem mergedOf_element {ancestors : List Node} {node : Node} (h : node.type = .element) :
    mergedOf options lib m ancestors node =
      if worthOutputting options ancestors node then
        m.put options lib (contentOf options lib m ancestors node)
          (m.mark options lib (messageOf options lib ancestors [] node).call
            (.mk node.info (merged options lib m (node :: ancestors) node.children)))
      else .mk node.info (merged options lib m (node :: ancestors) node.children) := by
  obtain ⟨info, children⟩ := node
  have htype : info.type = .element := h
  rw [mergedOf, if_pos htype]
  rfl

theorem mergedOf_leaf {ancestors : List Node} {node : Node} (h : node.type ≠ .element) :
    mergedOf options lib m ancestors node = node := by
  obtain ⟨info, children⟩ := node
  rw [mergedOf]
  exact if_neg h

/-- What is parsed takes the place of an element that is not marked. -/
theorem mergedOf_read {ancestors : List Node} {node newelem : Node} (h : node.type = .element)
    (hworth : worthOutputting options ancestors node = true)
    (hmark : (((messageOf options lib ancestors [] node).call.answer options lib m).isNone &&
      m.markUntranslated) = false)
    (hparse : m.parseElement (element (startTag options lib node)
      (contentOf options lib m ancestors node) node.name) = some newelem)
    (hne : newelem.children ≠ []) : mergedOf options lib m ancestors node = newelem := by
  have hstart : startTag options lib (Node.mk node.info
      (merged options lib m (node :: ancestors) node.children)) = startTag options lib node := rfl
  have hname : (Node.mk node.info
      (merged options lib m (node :: ancestors) node.children)).name = node.name := rfl
  rw [mergedOf_element h, if_pos hworth, Merging.mark, hmark, if_neg Bool.false_ne_true,
    Merging.put, hstart, hname, hparse]
  exact if_neg hne

/-- Instead of an element there is an element. -/
theorem swapped_mergedOf (hm : m.Proper lib) (ancestors : List Node) (node : Node) :
    Swapped (mergedOf options lib m ancestors node) node := by
  by_cases helement : node.type = .element
  · have htype : (mergedOf options lib m ancestors node).type = .element := by
      rw [mergedOf_element helement]
      split_ifs
      · apply type_put hm
        rw [type_mark]
        exact helement
      · exact helement
    exact Or.inr ⟨by rw [htype]; decide, by rw [helement]; decide⟩
  · exact Or.inl (mergedOf_leaf helement)

theorem swapped_merged (hm : m.Proper lib) (ancestors : List Node) : ∀ children : List Node,
    List.Forall₂ Swapped (merged options lib m ancestors children) children := by
  intro children
  induction children with
  | nil => exact .nil
  | cons child rest ih => exact .cons (swapped_mergedOf hm ancestors child) ih

/-! ## One placeholder for each element that is put in -/

theorem fillersOf_breaks {ancestors : List Node} {node : Node}
    (h : breaks options ancestors node = true) : fillersOf options lib m ancestors node =
      [element (startTag options lib node) (contentOf options lib m ancestors node)
        node.name] := by
  obtain ⟨info, children⟩ := node
  rw [fillersOf, if_pos h]
  rfl

theorem fillersOf_inline {ancestors : List Node} {node : Node}
    (h : breaks options ancestors node = false) (helement : node.type = .element) :
    fillersOf options lib m ancestors node =
      fillers options lib m (node :: ancestors) node.children := by
  obtain ⟨info, children⟩ := node
  have htype : info.type = .element := helement
  rw [fillersOf, if_neg (by rw [h]; exact Bool.false_ne_true), if_pos htype]
  rfl

theorem fillersOf_leaf {ancestors : List Node} {node : Node}
    (h : breaks options ancestors node = false) (helement : node.type ≠ .element) :
    fillersOf options lib m ancestors node = [] := by
  obtain ⟨info, children⟩ := node
  have htype : info.type ≠ .element := helement
  rw [fillersOf, if_neg (by rw [h]; exact Bool.false_ne_true), if_neg htype]

theorem holes_inline {ancestors : List Node} {node : Node}
    (h : breaks options ancestors node = false) (helement : node.type = .element) :
    holes (piecesOf options lib ancestors node) =
      holes (pieces options lib (node :: ancestors) node.children) := by
  rw [piecesOf_inline h helement, holes, List.filterMap_cons_none rfl, List.filterMap_append]
  exact List.append_nil _

theorem length_fillers :
    (∀ (node : Node) (ancestors : List Node), (fillersOf options lib m ancestors node).length =
      (holes (piecesOf options lib ancestors node)).length) ∧
    ∀ (children ancestors : List Node), (fillers options lib m ancestors children).length =
      (holes (pieces options lib ancestors children)).length := by
  apply Node.both
  case mk =>
    intro info children ih ancestors
    cases hbreaks : breaks options ancestors (.mk info children) with
    | true =>
      rw [fillersOf_breaks hbreaks, piecesOf_breaks hbreaks]
      rfl
    | false =>
      by_cases helement : info.type = .element
      · rw [fillersOf_inline hbreaks helement, holes_inline hbreaks helement]
        exact ih _
      · rw [fillersOf_leaf hbreaks helement, (piecesOf_leaf hbreaks helement 0).2]
  case nil =>
    intro ancestors
    rfl
  case cons =>
    intro child rest ihchild ihrest ancestors
    rw [fillers, pieces, holes, List.filterMap_append, List.length_append, List.length_append,
      ihchild, ihrest]
    rfl

/-! ## Where merging does not fail -/

structure Extractable (options : Options) (lib : Libxml2) (ancestors children : List Node) :
    Prop where
  placed : ∀ n ∈ placed options ancestors children, Placeable options lib n
  entities : ∀ e ∈ entities options lib ancestors children, EntityParses lib e

structure ExtractableNode (options : Options) (lib : Libxml2) (ancestors : List Node)
    (node : Node) : Prop where
  placed : ∀ n ∈ placedOf options ancestors node, Placeable options lib n
  entities : ∀ e ∈ entitiesOf options lib ancestors node, EntityParses lib e

theorem Extractable.of_cons {ancestors : List Node} {child : Node} {rest : List Node}
    (h : Extractable options lib ancestors (child :: rest)) :
    ExtractableNode options lib ancestors child ∧ Extractable options lib ancestors rest := by
  have hplaced := h.placed
  have hentities := h.entities
  rw [Xml2po.placed, List.forall_mem_append] at hplaced
  rw [Xml2po.entities, List.forall_mem_append] at hentities
  exact ⟨⟨hplaced.1, hentities.1⟩, ⟨hplaced.2, hentities.2⟩⟩

theorem ExtractableNode.placeable {ancestors : List Node} {node : Node}
    (h : ExtractableNode options lib ancestors node)
    (hbreaks : breaks options ancestors node = true) : Placeable options lib node := by
  obtain ⟨info, children⟩ := node
  apply h.placed
  rw [placedOf, if_pos hbreaks]
  exact List.mem_append_left _ List.mem_cons_self

theorem ExtractableNode.children {ancestors : List Node} {node : Node}
    (h : ExtractableNode options lib ancestors node) (helement : node.type = .element) :
    Extractable options lib (node :: ancestors) node.children := by
  obtain ⟨info, children⟩ := node
  have htype : info.type = .element := helement
  constructor
  · intro n hn
    apply h.placed
    rw [placedOf, if_pos htype]
    exact List.mem_append_right _ hn
  · intro e he
    apply h.entities
    rw [entitiesOf, if_pos htype]
    exact he

theorem ExtractableNode.leaf {ancestors : List Node} {node : Node}
    (h : ExtractableNode options lib ancestors node) (helement : node.type ≠ .element) :
    breaks options ancestors node = false ∧
      ∀ e ∈ leafEntities options lib ancestors node, EntityParses lib e := by
  obtain ⟨info, children⟩ := node
  have htype : info.type ≠ .element := helement
  constructor
  · by_contra hno
    rw [Bool.not_eq_false] at hno
    exact helement (h.placeable hno).1
  · intro e he
    apply h.entities
    rw [entitiesOf, if_neg htype]
    exact he

/-! ## A node that is no element -/

theorem serializeLeaf_text {ancestors : List Node} {node : Node}
    (hignore : ignoreNode options ancestors node = false)
    (h : ∀ e ∈ leafEntities options lib ancestors node, EntityParses lib e) :
    serializeLeaf lib node = .ok (str (leafText options lib ancestors node)) := by
  rw [leafEntities, hignore, Bool.false_or] at h
  rw [serializeLeaf, leafText, hignore, if_neg Bool.false_ne_true]
  by_cases hleaf : (node.children.isEmpty || decide (node.type ≠ .entityRef) ||
      lib.isExternal node) = true
  · rw [if_pos hleaf, if_pos hleaf]
  · rw [if_neg hleaf, List.forall_mem_singleton, EntityParses] at h
    rw [if_neg hleaf, if_neg hleaf]
    cases hs : stringForEntity lib node with
    | none =>
      rw [hs] at h
      cases h
    | some s => rfl

theorem mergeSerialize_leaf {frames gs : List Frame}
    (hframes : List.Forall₂ Frame.Edited frames gs) {node : Node} (hp : ProperNode options node)
    (helement : node.type ≠ .element)
    (h : ∀ e ∈ leafEntities options lib (above gs node) node, EntityParses lib e) :
    mergeSerialize options lib m frames node =
      .ok (str (leafText options lib (above gs node) node), node) := by
  have hignored : ignoreNode options (above frames node) node = _ :=
    ignoreNode_above hframes node
  obtain ⟨info, children⟩ := node
  have hleaf := hp.isLeaf helement
  rw [mergeSerialize, hignored]
  cases hignore : ignoreNode options (above gs (.mk info children)) (.mk info children) with
  | true =>
    rw [if_pos rfl, leafText, if_pos hignore]
  | false =>
    rw [if_neg Bool.false_ne_true, if_pos hleaf, serializeLeaf_text hignore h]
    rfl

/-! ## Elements and their children -/

/-- One turn of the loop over the children. -/
def mergeTurn (options : Options) (lib : Libxml2) (m : Merging) (frames : List Frame)
    (outtxt : PyString) (myrepl : List Replacement) (child : Node) :
    Except Error (PyString × List Replacement × Node) :=
  if breaks options (above frames child) child then do
    let (r, myrepl, child) ← mergeElementTag options lib m frames myrepl true child
    let myrepl := myrepl ++ [r]
    let outtxt ← outtxt.append (str (placeholder myrepl.length))
    return (outtxt, myrepl, child)
  else if child.type = .element then do
    let (r, myrepl, child) ← mergeElementTag options lib m frames myrepl false child
    let s ← tagged r.starttag r.outtxt r.endtag
    let outtxt ← outtxt.append s
    return (outtxt, myrepl, child)
  else do
    let (s, child) ← mergeSerialize options lib m frames child
    let outtxt ← outtxt.append s
    return (outtxt, myrepl, child)

theorem mergeChildren_turn (frames : List Frame) (info : Info) (done : List Node)
    (outtxt : PyString) (myrepl : List Replacement) (child : Node) (rest : List Node) :
    mergeChildren options lib m frames info done outtxt myrepl (child :: rest) =
      mergeTurn options lib m (⟨info, done, rest⟩ :: frames) outtxt myrepl child >>= fun x =>
        mergeChildren options lib m frames info (done ++ [x.2.2]) x.1 x.2.1 rest := by
  rw [mergeChildren]
  rfl

/-- The run over an element, in terms of the node as it was. -/
def ElementMerges (options : Options) (lib : Libxml2) (m : Merging) (node : Node) : Prop :=
  (∀ n ∈ nodes node, Sane options n) → node.type = .element →
    ∀ {frames gs : List Frame}, List.Forall₂ Frame.Edited frames gs →
    ∀ {repl : List Replacement}, (∀ r ∈ repl, r.Ready) → ∀ restart,
    (restart = false → worthOutputting options (above gs node) node = false) →
    (worthOutputting options (above gs node) node = true →
      isAscii (startTag options lib node) = true) →
    Extractable options lib (node :: above gs node) node.children →
    ∃ t new, mergeElementTag options lib m frames repl restart node =
        .ok (⟨str (startTag options lib node), str (render (if restart then 0 else repl.length)
          (pieces options lib (node :: above gs node) node.children)), str node.name, t⟩,
          if restart then repl else repl ++ new, mergedOf options lib m (above gs node) node) ∧
      t.Mixes ∧ (restart = true → t.chars = contentOf options lib m (above gs node) node) ∧
      (∀ r ∈ new, r.Ready) ∧ new.map Replacement.element =
        fillers options lib m (node :: above gs node) node.children

/-- The run over children, in terms of the parent as it was. -/
def ChildrenMerge (options : Options) (lib : Libxml2) (m : Merging) (children : List Node) :
    Prop :=
  (∀ n ∈ forest children, Sane options n) →
    ∀ {frames gs : List Frame}, List.Forall₂ Frame.Edited frames gs →
    ∀ {info : Info} {done before : List Node}, info.type = .element →
    List.Forall₂ Swapped done before → ∀ {parent : Node}, parent = .mk info (before ++ children) →
    ∀ {myrepl : List Replacement}, (∀ r ∈ myrepl, r.Ready) →
    Extractable options lib (parent :: above gs parent) children → ∀ outtxt,
    ∃ new, mergeChildren options lib m frames info done (str outtxt) myrepl children =
        .ok (str (outtxt ++ render myrepl.length
          (pieces options lib (parent :: above gs parent) children)), myrepl ++ new,
          done ++ merged options lib m (parent :: above gs parent) children) ∧
      (∀ r ∈ new, r.Ready) ∧
      new.map Replacement.element = fillers options lib m (parent :: above gs parent) children

/-- The text nodes of an element are leaves. -/
theorem textLeaves {node : Node} (helement : node.type = .element)
    (h : ∀ n ∈ nodes node, Sane options n) : TextLeaves node := by
  have hmem : ∀ {children : List Node} {c : Node}, c ∈ children → c ∈ forest children := by
    intro children c hc
    induction children with
    | nil => cases hc
    | cons child rest ih =>
      rw [forest]
      rcases List.mem_cons.mp hc with rfl | hc
      · exact List.mem_append_left _ (mem_nodes_self c)
      · exact List.mem_append_right _ (ih hc)
  intro c hc htype
  have hsane := h c (forest_subset_nodes helement c (hmem hc))
  rcases hsane.proper.leaf with hl | hl | hl
  · rw [htype] at hl
    cases hl
  · rw [htype] at hl
    cases hl
  · exact hl

/-- The end of an element, with its children as they are then. -/
theorem closeTranslated_merged (hm : m.Proper lib) {frames gs : List Frame}
    (hframes : List.Forall₂ Frame.Edited frames gs) {node node' : Node}
    (hnode' : node' = .mk node.info (merged options lib m (node :: above gs node) node.children))
    (helement : node.type = .element) (hsane : ∀ n ∈ nodes node, Sane options n)
    (hascii : worthOutputting options (above gs node) node = true →
      isAscii (startTag options lib node) = true) {restart : Bool}
    (hworth : restart = false → worthOutputting options (above gs node) node = false)
    {outtxt : Text} (houttxt : restart = true →
      outtxt = render 0 (pieces options lib (node :: above gs node) node.children))
    {myrepl : List Replacement} (hready : ∀ r ∈ myrepl, r.Ready) (helements : restart = true →
      myrepl.map Replacement.element =
        fillers options lib m (node :: above gs node) node.children) :
    ∃ t, closeTranslated options lib m (above frames node') node' restart (str outtxt) myrepl =
        .ok (⟨str (startTag options lib node), str outtxt, str node.name, t⟩,
          mergedOf options lib m (above gs node) node) ∧ t.Mixes ∧
      (restart = true → t.chars = contentOf options lib m (above gs node) node) := by
  have hedited : Edited node' node := by
    rw [hnode']
    exact ⟨rfl, swapped_merged hm _ node.children⟩
  have helement' : node'.type = .element := (congrArg Info.type hedited.info).trans helement
  have hsame : worthOutputting options (above frames node') node' =
      worthOutputting options (above gs node) node :=
    worthOutputting_edited hframes hedited helement' (textLeaves helement hsane)
  have hstart : startTag options lib node' = startTag options lib node := by
    rw [startTag, startTag, Node.name, Node.name, hedited.info]
  have hplain : PlainNode options node' := by
    rw [PlainNode, hedited.info]
    exact (hsane node (mem_nodes_self node)).plain
  have hspace : isSpacePreserveNode options node = isSpacePreserveNode options node' := by
    rw [isSpacePreserveNode, isSpacePreserveNode, Node.name, Node.name, hedited.info]
  let call : Call := ⟨outtxt, node.info.lineNo, getCommentForNode [],
    isSpacePreserveNode options node, some node.name⟩
  have hcall : restart = true → call = (messageOf options lib (above gs node) [] node).call := by
    intro hrestart
    show Call.mk outtxt _ _ _ _ = _
    rw [houttxt hrestart]
    rfl
  have hascii' : worthOutputting options (above frames node') node' = true →
      isAscii (startTag options lib node') = true := by
    rw [hsame, hstart]
    exact hascii
  obtain ⟨t, ht, hmixes, hchars⟩ :=
    closeTranslated_bytes hm restart call hplain hspace hready hascii'
  refine ⟨t, ?_, hmixes, ?_⟩
  · have hname : node'.name = node.name := congrArg Info.name hedited.info
    rw [show str outtxt = str call.text from rfl, ht, hstart, hsame, hname,
      mergedOf_element helement, hnode']
    cases hw : worthOutputting options (above gs node) node with
    | true =>
      have hrestart : restart = true := by
        by_contra hno
        rw [Bool.not_eq_true] at hno
        rw [hworth hno] at hw
        cases hw
      rw [if_pos rfl, if_pos rfl, helements hrestart, hcall hrestart]
      rfl
    | false => rfl
  · intro hrestart
    rw [hchars hrestart, helements hrestart, hcall hrestart]
    rfl

theorem mergeElementTag_element (frames : List Frame) (repl : List Replacement) (restart : Bool)
    {node : Node} (h : node.type = .element) :
    mergeElementTag options lib m frames repl restart node = do
      let (outtxt, myrepl, children) ← mergeChildren options lib m frames node.info [] (str [])
        (if restart then [] else repl) node.children
      let (r, node) ← closeTranslated options lib m (above frames (.mk node.info children))
        (.mk node.info children) restart outtxt myrepl
      return (r, if restart then repl else myrepl, node) := by
  obtain ⟨info, children⟩ := node
  have htype : info.type = .element := h
  rw [mergeElementTag, if_pos htype]
  rfl

/-- From the children to the element. -/
theorem elementMerges_of_children (hm : m.Proper lib) {node : Node}
    (ih : ChildrenMerge options lib m node.children) : ElementMerges options lib m node := by
  intro hsane helement frames gs hframes repl hrepl restart hworth hascii hextract
  have hin : ∀ r ∈ (if restart then [] else repl), r.Ready := by
    cases restart with
    | true => exact fun r hr => absurd hr List.not_mem_nil
    | false => exact hrepl
  have hforest : ∀ n ∈ forest node.children, Sane options n := fun n hn =>
    hsane n (forest_subset_nodes helement n hn)
  have hparent : node = .mk node.info ([] ++ node.children) := by
    obtain ⟨info, children⟩ := node
    rfl
  obtain ⟨new, hrun, hnew, helements⟩ :=
    ih hforest hframes helement .nil hparent hin hextract []
  have hready : ∀ r ∈ (if restart then [] else repl) ++ new, r.Ready := fun r hr =>
    (List.mem_append.mp hr).elim (hin r) (hnew r)
  have houttxt : restart = true → [] ++ render (if restart then [] else repl).length
      (pieces options lib (node :: above gs node) node.children) =
        render 0 (pieces options lib (node :: above gs node) node.children) := by
    intro hrestart
    rw [hrestart]
    rfl
  have hfilled : restart = true → ((if restart then [] else repl) ++ new).map
      Replacement.element = fillers options lib m (node :: above gs node) node.children := by
    intro hrestart
    rw [hrestart]
    exact helements
  obtain ⟨t, ht, hmixes, hchars⟩ := closeTranslated_merged hm hframes rfl helement hsane hascii
    hworth houttxt hready hfilled
  refine ⟨t, new, ?_, hmixes, hchars, hnew, helements⟩
  rw [mergeElementTag_element frames repl restart helement, hrun, Po.ok_bind]
  simp only
  rw [List.nil_append (merged options lib m _ _), ht, Po.ok_bind]
  cases restart <;> rfl

/-- One turn. -/
theorem mergeTurn_merged {child : Node} (ih : ElementMerges options lib m child)
    (hsane : ∀ n ∈ nodes child, Sane options n) {frames gs : List Frame}
    (hframes : List.Forall₂ Frame.Edited frames gs)
    (hextract : ExtractableNode options lib (above gs child) child) {myrepl : List Replacement}
    (hready : ∀ r ∈ myrepl, r.Ready) (outtxt : Text) :
    ∃ new, mergeTurn options lib m frames (str outtxt) myrepl child =
        .ok (str (outtxt ++ render myrepl.length (piecesOf options lib (above gs child) child)),
          myrepl ++ new, mergedOf options lib m (above gs child) child) ∧
      (∀ r ∈ new, r.Ready) ∧
      new.map Replacement.element = fillersOf options lib m (above gs child) child := by
  have hsame : breaks options (above frames child) child =
      breaks options (above gs child) child :=
    breaks_above hframes fun helement => textLeaves helement hsane
  rw [mergeTurn, hsame]
  cases hbreaks : breaks options (above gs child) child with
  | true =>
    obtain ⟨helement, hascii⟩ := hextract.placeable hbreaks
    obtain ⟨t, new, hrun, hmixes, hchars, _, _⟩ := ih hsane helement hframes hready true
      (fun hno => Bool.noConfusion hno) (fun _ => hascii) (hextract.children helement)
    refine ⟨[⟨str (startTag options lib child), str (render 0 (pieces options lib
      (child :: above gs child) child.children)), str child.name, t⟩], ?_, ?_, ?_⟩
    · rw [if_pos rfl, hrun, Po.ok_bind, piecesOf_breaks hbreaks]
      simp only [if_true]
      rw [PyString.append_bytes, List.length_append]
      show Except.ok _ = Except.ok (str (outtxt ++ (placeholder (myrepl.length + 1) ++ [])), _)
      rw [List.append_nil]
      rfl
    · rw [List.forall_mem_singleton]
      exact ⟨⟨_, rfl, hascii⟩, ⟨_, rfl, isAscii_name hascii⟩, hmixes⟩
    · rw [fillersOf_breaks hbreaks, ← hchars rfl]
      rfl
  | false =>
    by_cases helement : child.type = .element
    · have hworth := not_worth_of_not_breaks hbreaks helement
      obtain ⟨t, new, hrun, _, _, hnew, helements⟩ := ih hsane helement hframes hready false
        (fun _ => hworth) (fun h => absurd (hworth.symm.trans h) Bool.false_ne_true)
        (hextract.children helement)
      refine ⟨new, ?_, hnew, ?_⟩
      · rw [if_neg Bool.false_ne_true, if_pos helement, hrun, Po.ok_bind]
        simp only [Bool.false_eq_true, if_false]
        rw [tagged_bytes, Po.ok_bind, PyString.append_bytes, Po.ok_bind,
          render_inline hbreaks helement]
        rfl
      · rw [helements, fillersOf_inline hbreaks helement]
    · obtain ⟨_, hentities⟩ := hextract.leaf helement
      refine ⟨[], ?_, fun r hr => absurd hr List.not_mem_nil, ?_⟩
      · rw [if_neg Bool.false_ne_true, if_neg helement,
          mergeSerialize_leaf hframes (hsane child (mem_nodes_self child)).proper helement
            hentities, Po.ok_bind]
        simp only
        rw [PyString.append_bytes, Po.ok_bind, (piecesOf_leaf hbreaks helement _).1,
          mergedOf_leaf helement, List.append_nil]
        rfl
      · rw [fillersOf_leaf hbreaks helement]
        rfl

/-- The run over the tree. -/
theorem merges (hm : m.Proper lib) : (∀ node, ElementMerges options lib m node) ∧
    ∀ children, ChildrenMerge options lib m children := by
  apply Node.both
  case mk =>
    intro info children ih
    exact elementMerges_of_children hm ih
  case nil =>
    intro _ frames gs _ info done before _ _ parent _ myrepl _ _ outtxt
    refine ⟨[], ?_, fun r hr => absurd hr List.not_mem_nil, rfl⟩
    rw [mergeChildren, pieces, merged, render, List.append_nil, List.append_nil, List.append_nil]
  case cons =>
    intro child rest ihchild ihrest hsane frames gs hframes info done before htype hdone parent
      hparent myrepl hready hextract outtxt
    rw [forest, List.forall_mem_append] at hsane
    obtain ⟨hchild, hrest⟩ := hextract.of_cons
    have hframe : Frame.Edited ⟨info, done, rest⟩ ⟨info, before, rest⟩ :=
      ⟨rfl, Or.inl htype, hdone, rfl⟩
    have habove : above (⟨info, before, rest⟩ :: gs) child = parent :: above gs parent := by
      rw [hparent]
      rfl
    rw [← habove] at hchild
    obtain ⟨new, hrun, hnew, helements⟩ :=
      mergeTurn_merged ihchild hsane.1 (.cons hframe hframes) hchild hready outtxt
    rw [habove] at hrun helements
    have hswapped : Swapped (mergedOf options lib m (parent :: above gs parent) child) child :=
      swapped_mergedOf hm _ child
    have hparent' : parent = .mk info (before ++ [child] ++ rest) := by
      rw [hparent, List.append_assoc]
      rfl
    have hready' : ∀ r ∈ myrepl ++ new, r.Ready := fun r hr =>
      (List.mem_append.mp hr).elim (hready r) (hnew r)
    obtain ⟨new', hrun', hnew', helements'⟩ := ihrest hsane.2 hframes htype
      (swapped_append hdone (.cons hswapped .nil)) hparent' hready' hrest
      (outtxt ++ render myrepl.length (piecesOf options lib (parent :: above gs parent) child))
    have hlen : (myrepl ++ new).length = myrepl.length +
        (holes (piecesOf options lib (parent :: above gs parent) child)).length := by
      have hmap := congrArg List.length helements
      rw [List.length_map, length_fillers.1] at hmap
      rw [List.length_append, hmap]
    refine ⟨new ++ new', ?_, ?_, ?_⟩
    · rw [mergeChildren_turn, hrun, Po.ok_bind, hrun', hlen, pieces, merged, render_append,
        List.append_assoc, List.append_assoc, List.append_assoc]
      rfl
    · exact fun r hr => (List.mem_append.mp hr).elim (hnew r) (hnew' r)
    · rw [List.map_append, helements, helements']
      rfl

/-! ## Documents -/

theorem mergeSerialize_element (frames : List Frame) {node : Node}
    (h : ignoreNode options (above frames node) node = false) (hne : node.children ≠ [])
    (helement : node.type = .element) :
    mergeSerialize options lib m frames node =
      mergeElementTag options lib m frames [] true node >>= fun x =>
        tagged x.1.starttag x.1.outtxt x.1.endtag >>= fun s => .ok (s, x.2.2) := by
  obtain ⟨info, children⟩ := node
  have htype : info.type = .element := helement
  have hempty : children.isEmpty = false := by
    rw [Bool.eq_false_iff, Ne, List.isEmpty_iff]
    exact hne
  rw [mergeSerialize, mergeElementTag]
  simp only [h, hempty, htype, if_true, reduceCtorEq, decide_false, Bool.or_self,
    Bool.false_eq_true, if_false, bind_assoc, pure_bind]
  rfl

theorem mergedOf_nil {ancestors : List Node} {node : Node} (hnil : node.children = []) :
    mergedOf options lib m ancestors node = node := by
  by_cases helement : node.type = .element
  · have hworth : ¬worthOutputting options ancestors node = true := fun h =>
      children_of_worthOutputting helement h hnil
    obtain ⟨info, children⟩ := node
    have hchildren : children = [] := hnil
    rw [mergedOf_element helement, if_neg hworth, hchildren]
    rfl
  · exact mergedOf_leaf helement

theorem mergeSerialize_declaration (frames : List Frame) {d : Node}
    (h : d.type = .entityDecl ∨ d.children = []) :
    ∃ t, mergeSerialize options lib m frames d = .ok (str t, d) := by
  have hleaf : serializeLeaf lib d = _ := serializeLeaf_declaration h
  obtain ⟨info, children⟩ := d
  rw [mergeSerialize, if_pos (isLeaf_declaration h), hleaf]
  split_ifs
  · exact ⟨_, rfl⟩
  · exact ⟨_, rfl⟩

theorem mergeSerializeChildren_declarations (frames : List Frame) (info : Info) :
    ∀ {children : List Node} (done : List Node) (outtxt : Text),
    (∀ d ∈ children, d.type = .entityDecl ∨ d.children = []) →
    ∃ t, mergeSerializeChildren options lib m frames info done (str outtxt) children =
      .ok (str t, done ++ children) := by
  intro children
  induction children with
  | nil =>
    intro done outtxt _
    rw [mergeSerializeChildren, List.append_nil]
    exact ⟨outtxt, rfl⟩
  | cons d rest ih =>
    intro done outtxt h
    rw [List.forall_mem_cons] at h
    obtain ⟨t, ht⟩ : ∃ t, mergeSerialize options lib m (⟨info, done, rest⟩ :: frames) d =
        .ok (str t, d) := mergeSerialize_declaration _ h.1
    obtain ⟨u, hu⟩ := ih (done ++ [d]) (outtxt ++ t) h.2
    refine ⟨u, ?_⟩
    rw [mergeSerializeChildren, ht, Po.ok_bind]
    simp only
    rw [PyString.append_bytes, Po.ok_bind, hu, List.append_assoc]
    rfl

theorem mergeSerialize_dtd (frames : List Frame) {dtd : Node} (htype : dtd.type = .dtd)
    (h : Declares dtd) : ∃ t, mergeSerialize options lib m frames dtd = .ok (str t, dtd) := by
  by_cases hnil : dtd.children = []
  · exact mergeSerialize_declaration frames (Or.inr hnil)
  · obtain ⟨info, children⟩ := dtd
    have hdtd : info.type = .dtd := htype
    have helement : info.type ≠ .element := by
      rw [hdtd]
      decide
    obtain ⟨t, ht⟩ : ∃ t, mergeSerializeChildren options lib m frames info [] (str []) children =
        .ok (str t, [] ++ children) := mergeSerializeChildren_declarations frames info [] [] h
    rw [mergeSerialize, if_neg (not_isLeaf_dtd hdtd hnil), if_neg helement, ht]
    split_ifs
    · exact ⟨_, rfl⟩
    · exact ⟨_, rfl⟩

/-- A node at the top of a document. -/
theorem mergeSerialize_top (hm : m.Proper lib) (hsound : options.Sound) {doc : Node}
    (hdoc : ProperDocument options doc) (hplain : PlainDocument options doc)
    (hroot : ∀ c ∈ doc.children, worthOutputting options [doc] c = true →
      isAscii (startTag options lib c) = true)
    {done before : List Node} (hdone : List.Forall₂ Swapped done before) {c : Node}
    {rest : List Node} (hchildren : doc.children = before ++ c :: rest)
    (hextract : c.type = .element → Extractable options lib [c, doc] c.children) :
    ∃ t, mergeSerialize options lib m [⟨doc.info, done, rest⟩] c =
      .ok (str t, mergedOf options lib m [doc] c) := by
  have hc : c ∈ doc.children := by
    rw [hchildren]
    exact List.mem_append_right _ List.mem_cons_self
  have hframes : List.Forall₂ Frame.Edited [⟨doc.info, done, rest⟩] [⟨doc.info, before, rest⟩] :=
    .cons ⟨rfl, Or.inr hdoc.type, hdone, rfl⟩ .nil
  have habove : above [⟨doc.info, before, rest⟩] c = [doc] := by
    obtain ⟨info, children⟩ := doc
    have hnode : children = before ++ c :: rest := hchildren
    rw [hnode]
    rfl
  have hignored : ignoreNode options (above [⟨doc.info, done, rest⟩] c) c = _ :=
    ignoreNode_above hframes c
  rw [habove] at hignored
  by_cases hother : c.type ≠ .element ∨ c.children = []
  · have hsame : mergedOf options lib m [doc] c = c :=
      hother.elim mergedOf_leaf mergedOf_nil
    rw [hsame]
    rcases hdoc.leaf hc hother with hignore | hnil | ⟨htype, hdeclares⟩
    · obtain ⟨info, children⟩ := c
      rw [mergeSerialize, hignored, if_pos hignore]
      exact ⟨[], rfl⟩
    · exact mergeSerialize_declaration _ (Or.inr hnil)
    · exact mergeSerialize_dtd _ htype hdeclares
  · rw [not_or, not_not] at hother
    obtain ⟨helement, hne⟩ := hother
    have hsane : ∀ n ∈ nodes c, Sane options n := by
      rcases hdoc.child c hc with ⟨_, h⟩ | ⟨_, h⟩ | ⟨h, _⟩
      · exact fun n hn => ⟨h n hn, hplain c hc n hn⟩
      · exact absurd h hne
      · rw [helement] at h
        cases h
    have hmerge := (merges hm).1 c hsane helement hframes
      (fun r hr => absurd hr List.not_mem_nil) true (fun hno => Bool.noConfusion hno)
    rw [habove] at hmerge
    obtain ⟨t, _, hrun, _⟩ := hmerge (hroot c hc) (hextract helement)
    rw [mergeSerialize_element _ (hignored.trans (ignoreNode_element hsound helement)) hne
      helement, hrun, Po.ok_bind, tagged_bytes]
    exact ⟨_, rfl⟩

theorem mergeSerializeChildren_top (hm : m.Proper lib) (hsound : options.Sound) {doc : Node}
    (hdoc : ProperDocument options doc) (hplain : PlainDocument options doc)
    (hroot : ∀ c ∈ doc.children, worthOutputting options [doc] c = true →
      isAscii (startTag options lib c) = true) : ∀ {children done before : List Node},
    List.Forall₂ Swapped done before → doc.children = before ++ children →
    (∀ c ∈ children, c.type = .element → Extractable options lib [c, doc] c.children) →
    ∀ outtxt, ∃ t, mergeSerializeChildren options lib m [] doc.info done (str outtxt) children =
      .ok (str t, done ++ merged options lib m [doc] children) := by
  intro children
  induction children with
  | nil =>
    intro done before _ _ _ outtxt
    rw [mergeSerializeChildren, merged, List.append_nil]
    exact ⟨outtxt, rfl⟩
  | cons c rest ih =>
    intro done before hdone hchildren hextract outtxt
    rw [List.forall_mem_cons] at hextract
    have htop : ∃ t, mergeSerialize options lib m [⟨doc.info, done, rest⟩] c = _ :=
      mergeSerialize_top hm hsound hdoc hplain hroot hdone hchildren hextract.1
    obtain ⟨t, ht⟩ := htop
    have hswapped : Swapped (mergedOf options lib m [doc] c) c := swapped_mergedOf hm [doc] c
    have hrest : doc.children = before ++ [c] ++ rest := by
      rw [hchildren, List.append_assoc]
      rfl
    obtain ⟨u, hu⟩ := ih (swapped_append hdone (.cons hswapped .nil)) hrest hextract.2
      (outtxt ++ t)
    refine ⟨u, ?_⟩
    rw [mergeSerializeChildren, ht, Po.ok_bind]
    simp only
    rw [PyString.append_bytes, Po.ok_bind, hu, merged, List.append_assoc]
    rfl

theorem extractable_of_extracts (hsound : options.Sound) {doc : Node}
    (hdoc : ProperDocument options doc) (hplain : PlainDocument options doc)
    (h : ∃ x, doSerialize options lib [] [] doc = .ok x) : ∀ c ∈ doc.children,
    c.type = .element → Extractable options lib [c, doc] c.children := by
  intro c hc helement
  obtain ⟨hplaced, hentities⟩ :=
    (doSerialize_document_iff hsound hdoc hplain).mp h c hc helement
  exact ⟨hplaced, hentities⟩

/-- The run over a document. -/
theorem mergeSerialize_document (hm : m.Proper lib) (hsound : options.Sound) {doc : Node}
    (hdoc : ProperDocument options doc) (hplain : PlainDocument options doc)
    (hroot : ∀ c ∈ doc.children, worthOutputting options [doc] c = true →
      isAscii (startTag options lib c) = true)
    (hextract : ∀ c ∈ doc.children, c.type = .element →
      Extractable options lib [c, doc] c.children) :
    ∃ s, mergeSerialize options lib m [] doc = .ok (s, mergedDocument options lib m doc) := by
  obtain ⟨t, ht⟩ := mergeSerializeChildren_top hm hsound hdoc hplain hroot .nil
    (List.nil_append _).symm hextract []
  have hignore := hdoc.not_ignored
  have htype := hdoc.type
  rw [mergedDocument]
  obtain ⟨info, children⟩ := doc
  have hinfo : info.type = .document := htype
  rw [mergeSerialize, above, hignore, if_neg Bool.false_ne_true]
  cases children with
  | nil => exact ⟨_, rfl⟩
  | cons c rest =>
    have hrun : mergeSerializeChildren options lib m [] info [] (str []) (c :: rest) = _ := ht
    rw [hrun, hinfo]
    exact ⟨_, rfl⟩

/-- A document that can be extracted can be merged with any catalogue, and becomes the
translated document. -/
theorem merge_document (hm : m.Proper lib) (hsound : options.Sound) {doc : Node}
    (hdoc : ProperDocument options doc) (hplain : PlainDocument options doc)
    (hroot : ∀ c ∈ doc.children, worthOutputting options [doc] c = true →
      isAscii (startTag options lib c) = true)
    (hextracts : ∃ x, doSerialize options lib [] [] doc = .ok x) :
    ∃ s, mergeSerialize options lib m [] doc = .ok (s, mergedDocument options lib m doc) :=
  mergeSerialize_document hm hsound hdoc hplain hroot
    (extractable_of_extracts hsound hdoc hplain hextracts)

end MergeCorrect

/-! ## A translated document -/

/-- A parser for some elements. -/
def readsElements (elements : List (Text × Node)) (s : Text) : Option Node :=
  (elements.find? fun p => p.1 = s).map Prod.snd

theorem readsElements_element {elements : List (Text × Node)}
    (h : ∀ p ∈ elements, p.2.type = .element) : ∀ s newelem,
    readsElements elements s = some newelem → newelem.type = .element := by
  intro s newelem hread
  obtain ⟨p, hp, rfl⟩ := Option.map_eq_some_iff.mp hread
  exact h p (List.mem_of_find?_eq_some hp)

/-- The list of the paragraph as it is serialized. -/
def itemizedText : Text :=
  text "<itemizedlist><listitem><para>an item</para></listitem></itemizedlist>"

/-- The title and the paragraph are translated, and the item in it is not. -/
def german : Merging where
  ugettext s :=
    if s = text "A title" then some (text "Ein Titel")
    else if s = text "Some <emphasis>text</emphasis> and <placeholder-1/> more." then
      some (text "<placeholder-1/> und mehr")
    else none
  markUntranslated := false
  parseElement := readsElements [
    (text "<title>Ein Titel</title>", tag "title" [textNode "Ein Titel"]),
    (text "<para>an item</para>", tag "para" [textNode "an item"]),
    (text "<para>" ++ itemizedText ++ text " und mehr</para>", tag "para"
      [tag "itemizedlist" [tag "listitem" [tag "para" [textNode "an item"]]],
        textNode " und mehr"])]

theorem proper_german : german.Proper plainText where
  element := readsElements_element (by decide)
  lang h := Bool.noConfusion h

theorem root_listing : ∀ c ∈ listing.children,
    worthOutputting someTags [listing] c = true →
      isAscii (startTag someTags plainText c) = true := by decide

theorem merge_document_listing : ∃ s, mergeSerialize someTags plainText german [] listing =
    .ok (s, mergedDocument someTags plainText german listing) :=
  merge_document proper_german (Or.inr sound_someTags) proper_listing plain_listing root_listing
    listing_runs

example : mergedDocument someTags plainText german listing =
    .mk listing.info [tag "book" [textNode "\n", tag "title" [textNode "Ein Titel"],
      textNode "\n", tag "para" [tag "itemizedlist" [tag "listitem" [tag "para"
        [textNode "an item"]]], textNode " und mehr"]]] := rfl

end Xml2po
end I18nZh
