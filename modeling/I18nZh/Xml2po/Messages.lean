import I18nZh.Xml2po.Placeholder

/-!
# What is reported

The messages that are reported are the messages of the pieces, in their order, and a
translation in which all placeholders are filled in is the content of the element.
-/

namespace I18nZh
namespace Xml2po

open Po (Text text strip)
open Replace

/-! ## The nodes of a document -/

mutual

/-- The node, and what is in it if it is an element. -/
def nodes (node : Node) : List Node :=
  match node with
  | .mk info children =>
    .mk info children :: if info.type = .element then forest children else []

def forest (children : List Node) : List Node :=
  match children with
  | [] => []
  | child :: rest => nodes child ++ forest rest

end

theorem mem_nodes_self (node : Node) : node ∈ nodes node := by
  obtain ⟨info, children⟩ := node
  rw [nodes]
  exact List.mem_cons_self

/-- What a parser puts into an element; only an entity reference has children besides
the elements.  The text nodes are no tag to be ignored. -/
structure ProperNode (options : Options) (node : Node) : Prop where
  type : node.type = .element ∨ node.type = .text ∨ node.type = .cdata ∨ node.type = .comment ∨
    node.type = .pi ∨ node.type = .entityRef
  leaf : node.type = .element ∨ node.type = .entityRef ∨ node.children = []
  text : node.type = .text → node.name ∉ options.ignoredTags

instance (options : Options) (node : Node) : Decidable (ProperNode options node) :=
  decidable_of_iff
    ((node.type = .element ∨ node.type = .text ∨ node.type = .cdata ∨ node.type = .comment ∨
      node.type = .pi ∨ node.type = .entityRef) ∧
      (node.type = .element ∨ node.type = .entityRef ∨ node.children.isEmpty = true) ∧
      (node.type = .text → options.ignoredTags.contains node.name = false))
    ⟨fun h => ⟨h.1, by simpa using h.2.1, by simpa using h.2.2⟩,
      fun h => ⟨h.type, by simpa using h.leaf, by simpa using h.text⟩⟩

/-- Nothing the node is serialized to looks like the start of a placeholder. -/
structure ApartNode (options : Options) (lib : Libxml2) (node : Node) : Prop where
  tag : node.type = .element → Apart opening (text "<" ++ startTag options lib node ++ text ">") ∧
    Apart opening (text "</" ++ node.name ++ text ">")
  leaf : node.type ≠ .element → Apart opening (lib.serialize node) ∧
    ∀ s, stringForEntity lib node = some s → Apart opening s

instance (options : Options) (lib : Libxml2) (node : Node) :
    Decidable (ApartNode options lib node) :=
  decidable_of_iff
    ((node.type = .element → Apart opening (text "<" ++ startTag options lib node ++ text ">") ∧
      Apart opening (text "</" ++ node.name ++ text ">")) ∧
      (node.type ≠ .element → Apart opening (lib.serialize node) ∧
        ∀ s ∈ stringForEntity lib node, Apart opening s))
    ⟨fun h => ⟨h.1, h.2⟩, fun h => ⟨h.tag, h.leaf⟩⟩

section Messages

variable {options : Options} {lib : Libxml2}

/-! ## A node that is no element -/

theorem leafText_apart {node : Node} (h : ApartNode options lib node)
    (htype : node.type ≠ .element) (ancestors : List Node) :
    Apart opening (leafText options lib ancestors node) := by
  obtain ⟨hserialize, hentity⟩ := h.leaf htype
  unfold leafText
  split_ifs
  · exact apart_nil opening
  · exact hserialize
  · cases hs : stringForEntity lib node with
    | none => exact apart_nil opening
    | some s => exact hentity s hs

/-- What is no element is serialized without a look at its children. -/
theorem ProperNode.isLeaf {info : Info} {children : List Node}
    (h : ProperNode options (.mk info children)) (htype : info.type ≠ .element) :
    (children.isEmpty || decide (info.type = .entityRef) ||
      decide (info.type = .entityDecl) || decide (info.type = .text)) = true := by
  rcases h.leaf with hl | hl | hl
  · exact absurd hl htype
  · have href : info.type = .entityRef := hl
    simp [href]
  · have hnil : children = [] := hl
    simp [hnil]

theorem doSerialize_leaf {ancestors prevs : List Node} {node : Node} {s : PyString}
    {calls : List Call} (hp : ProperNode options node) (htype : node.type ≠ .element)
    (h : doSerialize options lib ancestors prevs node = .ok (s, calls)) :
    calls = [] ∧ s.chars = leafText options lib ancestors node := by
  obtain ⟨info, children⟩ := node
  have hleaf := hp.isLeaf htype
  rw [doSerialize] at h
  unfold leafText
  by_cases hignore : ignoreNode options ancestors (.mk info children) = true
  · rw [if_pos hignore] at h ⊢
    cases h
    exact ⟨rfl, rfl⟩
  · rw [if_neg hignore, if_pos hleaf] at h
    rw [if_neg hignore]
    obtain ⟨s', hs, h⟩ := exists_of_bind h
    cases h
    refine ⟨rfl, ?_⟩
    unfold serializeLeaf at hs
    by_cases hser : ((Node.mk info children).children.isEmpty ||
        decide ((Node.mk info children).type ≠ .entityRef) ||
        lib.isExternal (.mk info children)) = true
    · rw [if_pos hser] at hs ⊢
      cases hs
      rfl
    · rw [if_neg hser] at hs ⊢
      cases hentity : stringForEntity lib (.mk info children) with
      | none =>
        rw [hentity] at hs
        cases hs
      | some t =>
        rw [hentity] at hs
        cases hs
        rfl

/-! ## The pieces filled in -/

theorem pieces_apart :
    (∀ node : Node, (∀ n ∈ nodes node, ApartNode options lib n) → ∀ ancestors,
      Apart opening (plainOf options lib ancestors node) ∧
        ∀ piece ∈ piecesOf options lib ancestors node, piece.Clean) ∧
    ∀ children : List Node, (∀ n ∈ forest children, ApartNode options lib n) → ∀ ancestors,
      Apart opening (plain options lib ancestors children) ∧
        ∀ piece ∈ pieces options lib ancestors children, piece.Clean := by
  apply Node.both
  case mk =>
    intro info children ih h ancestors
    have hself := h _ (mem_nodes_self _)
    have hplain : Apart opening (plainOf options lib ancestors (.mk info children)) := by
      rw [plainOf]
      by_cases htype : info.type = .element
      · rw [if_pos htype]
        obtain ⟨hstart, hend⟩ := hself.tag htype
        have hin : ∀ n ∈ forest children, ApartNode options lib n := by
          intro n hn
          apply h
          rw [nodes, if_pos htype]
          exact List.mem_cons_of_mem _ hn
        exact (hstart.append (ih hin _).1).append hend
      · rw [if_neg htype]
        exact leafText_apart hself htype ancestors
    refine ⟨hplain, ?_⟩
    rw [piecesOf]
    split_ifs with hbreaks htype htext
    · rw [List.forall_mem_singleton]
      exact hplain
    · obtain ⟨hstart, hend⟩ := hself.tag htype
      have hin : ∀ n ∈ forest children, ApartNode options lib n := by
        intro n hn
        apply h
        rw [nodes, if_pos htype]
        exact List.mem_cons_of_mem _ hn
      rw [List.forall_mem_cons, List.forall_mem_append, List.forall_mem_singleton]
      exact ⟨hstart, (ih hin _).2, hend⟩
    · rw [List.forall_mem_singleton]
      exact leafText_apart hself htype ancestors
    · rw [List.forall_mem_singleton]
      exact leafText_apart hself htype ancestors
  case nil =>
    intro _ ancestors
    exact ⟨apart_nil opening, fun piece hpiece => absurd hpiece List.not_mem_nil⟩
  case cons =>
    intro child rest ihchild ihrest h ancestors
    rw [forest, List.forall_mem_append] at h
    obtain ⟨hplain, hclean⟩ := ihchild h.1 ancestors
    obtain ⟨hplain', hclean'⟩ := ihrest h.2 ancestors
    rw [plain, pieces, List.forall_mem_append]
    exact ⟨hplain.append hplain', hclean, hclean'⟩

theorem pieces_full :
    (∀ (node : Node) (ancestors : List Node),
      (piecesOf options lib ancestors node).flatMap Piece.full =
        plainOf options lib ancestors node) ∧
    ∀ (children ancestors : List Node),
      (pieces options lib ancestors children).flatMap Piece.full =
        plain options lib ancestors children := by
  apply Node.both
  case mk =>
    intro info children ih ancestors
    rw [piecesOf]
    split_ifs with hbreaks htype htext
    · exact List.append_nil _
    · rw [List.flatMap_cons, List.flatMap_append, ih, plainOf, if_pos htype, element]
      simp [Piece.full]
    · rw [plainOf, if_neg htype]
      exact List.append_nil _
    · rw [plainOf, if_neg htype]
      exact List.append_nil _
  case nil =>
    intro ancestors
    rfl
  case cons =>
    intro child rest ihchild ihrest ancestors
    rw [pieces, plain, List.flatMap_append, ihchild, ihrest]

/-! ## The loop over the children -/

/-- What is known of an element that was processed. -/
structure ElementSpec (options : Options) (lib : Libxml2) (ancestors prevs : List Node)
    (node : Node) (restart : Bool) (repl : List Replacement) (r : Replacement)
    (repl' : List Replacement)
    (calls : List Call) : Prop where
  outtxt : r.outtxt.chars = render (if restart then 0 else repl.length)
    (pieces options lib (node :: ancestors) node.children)
  starttag : r.starttag.chars = startTag options lib node
  endtag : r.endtag.chars = node.name
  calls : calls = (messagesOf options lib ancestors prevs node).map Message.call
  kept : restart = true → repl' = repl
  added : restart = false → ∃ new, repl' = repl ++ new ∧
    new.length = (holes (pieces options lib (node :: ancestors) node.children)).length ∧
    ((∀ n ∈ nodes node, ApartNode options lib n) →
      new.map Replacement.element = holes (pieces options lib (node :: ancestors) node.children))
  translation : restart = true → (∀ n ∈ nodes node, ApartNode options lib n) →
    r.translation.chars = plain options lib (node :: ancestors) node.children

/-- What is known of some children that were processed. -/
structure ChildrenSpec (options : Options) (lib : Libxml2) (ancestors prevs children : List Node)
    (outtxt : PyString) (myrepl : List Replacement) (outtxt' : PyString)
    (myrepl' : List Replacement) (calls : List Call) : Prop where
  outtxt : outtxt'.chars = outtxt.chars ++
    render myrepl.length (pieces options lib ancestors children)
  calls : calls = (messages options lib ancestors prevs children).map Message.call
  added : ∃ new, myrepl' = myrepl ++ new ∧
    new.length = (holes (pieces options lib ancestors children)).length ∧
    ((∀ n ∈ forest children, ApartNode options lib n) →
      new.map Replacement.element = holes (pieces options lib ancestors children))

theorem plainOf_element {ancestors : List Node} {node : Node} (h : node.type = .element) :
    plainOf options lib ancestors node = element (startTag options lib node)
      (plain options lib (node :: ancestors) node.children) node.name := by
  obtain ⟨info, children⟩ := node
  have htype : info.type = .element := h
  rw [plainOf, if_pos htype]
  rfl

theorem piecesOf_breaks {ancestors : List Node} {node : Node}
    (h : breaks options ancestors node = true) :
    piecesOf options lib ancestors node = [.hole (plainOf options lib ancestors node)] := by
  obtain ⟨info, children⟩ := node
  rw [piecesOf, if_pos h]

theorem piecesOf_inline {ancestors : List Node} {node : Node}
    (h : breaks options ancestors node = false) (helement : node.type = .element) :
    piecesOf options lib ancestors node =
      .markup (text "<" ++ startTag options lib node ++ text ">") ::
        (pieces options lib (node :: ancestors) node.children ++
          [.markup (text "</" ++ node.name ++ text ">")]) := by
  obtain ⟨info, children⟩ := node
  have htype : info.type = .element := helement
  rw [piecesOf, if_neg (by rw [h]; exact Bool.false_ne_true), if_pos htype]
  rfl

theorem render_inline {ancestors : List Node} {node : Node}
    (h : breaks options ancestors node = false) (helement : node.type = .element) (k : Nat) :
    render k (piecesOf options lib ancestors node) = element (startTag options lib node)
      (render k (pieces options lib (node :: ancestors) node.children)) node.name := by
  rw [piecesOf_inline h helement, element]
  show (text "<" ++ startTag options lib node ++ text ">") ++
    render k (_ ++ [Piece.markup (text "</" ++ node.name ++ text ">")]) = _
  rw [render_append]
  simp [render]

theorem piecesOf_leaf {ancestors : List Node} {node : Node}
    (h : breaks options ancestors node = false) (helement : node.type ≠ .element) (k : Nat) :
    render k (piecesOf options lib ancestors node) = leafText options lib ancestors node ∧
      holes (piecesOf options lib ancestors node) = [] := by
  obtain ⟨info, children⟩ := node
  have htype : info.type ≠ .element := helement
  rw [piecesOf, if_neg (by rw [h]; exact Bool.false_ne_true), if_neg htype]
  split_ifs
  · exact ⟨List.append_nil _, rfl⟩
  · exact ⟨List.append_nil _, rfl⟩

theorem not_worth_of_not_breaks {ancestors : List Node} {node : Node}
    (h : breaks options ancestors node = false) (helement : node.type = .element) :
    worthOutputting options ancestors node = false := by
  rw [breaks, Bool.or_eq_false_iff, helement] at h
  exact h.2

/-! ## Elements and their children -/

/-- The specification of a node that is processed. -/
def Processed (options : Options) (lib : Libxml2) (node : Node) : Prop :=
  (∀ n ∈ nodes node, ProperNode options n) →
    ∀ {ancestors prevs : List Node} {repl repl' : List Replacement} {restart : Bool}
      {r : Replacement} {calls : List Call},
    (restart = false → worthOutputting options ancestors node = false) →
    processElementTag options lib ancestors prevs repl restart node = .ok (r, repl', calls) →
    ElementSpec options lib ancestors prevs node restart repl r repl' calls

def ChildrenProcessed (options : Options) (lib : Libxml2) (children : List Node) : Prop :=
  (∀ n ∈ forest children, ProperNode options n) →
    ∀ {ancestors prevs : List Node} {outtxt outtxt' : PyString} {myrepl myrepl' : List Replacement}
      {calls : List Call},
    processChildren options lib ancestors prevs outtxt myrepl children =
      .ok (outtxt', myrepl', calls) →
    ChildrenSpec options lib ancestors prevs children outtxt myrepl outtxt' myrepl' calls

theorem forest_subset_nodes {node : Node} (h : node.type = .element) :
    ∀ n ∈ forest node.children, n ∈ nodes node := by
  obtain ⟨info, children⟩ := node
  have htype : info.type = .element := h
  intro n hn
  rw [nodes, if_pos htype]
  exact List.mem_cons_of_mem _ hn

theorem messagesOf_element {ancestors prevs : List Node} {node : Node} (h : node.type = .element) :
    messagesOf options lib ancestors prevs node =
      messages options lib (node :: ancestors) [] node.children ++
      if worthOutputting options ancestors node then
        [messageOf options lib ancestors prevs node] else [] := by
  obtain ⟨info, children⟩ := node
  have htype : info.type = .element := h
  rw [messagesOf, if_pos htype]
  rfl

theorem messagesOf_leaf {ancestors prevs : List Node} {node : Node} (h : node.type ≠ .element) :
    messagesOf options lib ancestors prevs node = [] := by
  obtain ⟨info, children⟩ := node
  rw [messagesOf]
  exact if_neg h

/-- From the children to the element. -/
theorem processed_of_children {node : Node}
    (ih : ChildrenProcessed options lib node.children) : Processed options lib node := by
  intro hproper ancestors prevs repl repl' restart r calls hworth h
  obtain ⟨htype, myrepl, translation, c, hchildren, hdecode, hstart, hend, hrepl, hfill, hcalls⟩ :=
    processElementTag_ok h
  have hspec := ih (fun n hn => hproper n (forest_subset_nodes htype n hn)) hchildren
  obtain ⟨new, hnew, hlen, helements⟩ := hspec.added
  have hchars : r.outtxt.chars = render (if restart then [] else repl).length
      (pieces options lib (node :: ancestors) node.children) := hspec.outtxt
  constructor
  case outtxt =>
    rw [hchars]
    cases restart <;> rfl
  case starttag => exact startTagForNode_chars options lib hstart
  case endtag => rw [hend]; rfl
  case calls =>
    rw [hcalls, hspec.calls, messagesOf_element htype, List.map_append]
    congr 1
    by_cases hw : worthOutputting options ancestors node = true
    · have hrestart : restart = true := by
        by_contra hno
        rw [Bool.not_eq_true] at hno
        rw [hworth hno] at hw
        cases hw
      rw [if_pos (by rw [hw, Bool.or_true, Bool.and_true]), if_pos hw, List.map_singleton,
        hchars, hrestart]
      rfl
    · rw [if_neg (by simp [hw]), if_neg hw]
      rfl
  case kept =>
    intro hrestart
    rw [hrepl, if_pos hrestart]
  case added =>
    intro hrestart
    rw [hrestart] at hrepl hnew
    refine ⟨new, hrepl.trans hnew, hlen, fun hapart => ?_⟩
    exact helements fun n hn => hapart n (forest_subset_nodes htype n hn)
  case translation =>
    intro hrestart hapart
    have hin : ∀ n ∈ forest node.children, ApartNode options lib n := fun n hn =>
      hapart n (forest_subset_nodes htype n hn)
    rw [hrestart] at hfill hnew hchars
    rw [Bool.true_or, if_pos rfl] at hfill
    rw [if_pos rfl, List.nil_append] at hnew
    rw [fillPlaceholders_chars (pieces_apart.2 _ hin (node :: ancestors)).2 hfill, pieces_full.2]
    · rw [hnew, helements hin, List.drop_zero]
    · rw [PyString.decode_chars hdecode, hchars, filled_zero]
      rfl

/-- One turn. -/
theorem turn_spec {child : Node} (ih : Processed options lib child)
    (hproper : ∀ n ∈ nodes child, ProperNode options n) {ancestors prevs : List Node}
    {outtxt o : PyString} {myrepl m : List Replacement} {c : List Call}
    (h : Turn options lib ancestors prevs outtxt myrepl child o m c) :
    o.chars = outtxt.chars ++ render myrepl.length (piecesOf options lib ancestors child) ∧
      c = (messagesOf options lib ancestors prevs child).map Message.call ∧
      ∃ new, m = myrepl ++ new ∧
        new.length = (holes (piecesOf options lib ancestors child)).length ∧
        ((∀ n ∈ nodes child, ApartNode options lib n) →
          new.map Replacement.element = holes (piecesOf options lib ancestors child)) := by
  cases h with
  | @hole r m calls o hbreaks hrun hout =>
    have hspec := ih hproper (fun hno => Bool.noConfusion hno) hrun
    obtain ⟨htype, _⟩ := processElementTag_ok hrun
    rw [hspec.kept rfl] at hout ⊢
    rw [piecesOf_breaks hbreaks]
    refine ⟨?_, hspec.calls, [r], rfl, rfl, fun hapart => ?_⟩
    · rw [PyString.append_chars hout]
      show _ = outtxt.chars ++ (placeholder (myrepl.length + 1) ++ [])
      rw [List.append_nil, List.length_append]
      rfl
    · show [r.element] = [plainOf options lib ancestors child]
      rw [Replacement.element, hspec.starttag, hspec.endtag, hspec.translation rfl hapart,
        plainOf_element htype]
  | @inline r m calls s o hbreaks helement hrun htag hout =>
    have hspec := ih hproper (fun _ => not_worth_of_not_breaks hbreaks helement) hrun
    obtain ⟨new, hnew, hlen, helements⟩ := hspec.added rfl
    have hholes : holes (piecesOf options lib ancestors child) =
        holes (pieces options lib (child :: ancestors) child.children) := by
      rw [piecesOf_inline hbreaks helement, holes, List.filterMap_cons_none rfl,
        List.filterMap_append]
      exact List.append_nil _
    rw [hholes]
    refine ⟨?_, hspec.calls, new, hnew, hlen, helements⟩
    have hrender := hspec.outtxt
    rw [if_neg Bool.false_ne_true] at hrender
    rw [PyString.append_chars hout, tagged_chars htag, hspec.starttag, hspec.endtag, hrender,
      render_inline hbreaks helement]
  | @leaf s calls o hbreaks helement hrun hout =>
    obtain ⟨rfl, hs⟩ := doSerialize_leaf (hproper child (mem_nodes_self child)) helement hrun
    obtain ⟨hrender, hholes⟩ :
        render myrepl.length (piecesOf options lib ancestors child) = _ ∧ _ :=
      piecesOf_leaf hbreaks helement myrepl.length
    rw [hholes, messagesOf_leaf helement]
    refine ⟨?_, rfl, [], (List.append_nil _).symm, rfl, fun _ => rfl⟩
    rw [PyString.append_chars hout, hs, hrender]

/-- The run over the children, and over the tree. -/
theorem processed : (∀ node, Processed options lib node) ∧
    ∀ children, ChildrenProcessed options lib children := by
  apply Node.both
  case mk =>
    intro info children ih
    exact processed_of_children ih
  case nil =>
    intro _ ancestors prevs outtxt outtxt' myrepl myrepl' calls h
    cases h
    exact ⟨(List.append_nil _).symm, rfl, [], (List.append_nil _).symm, rfl, fun _ => rfl⟩
  case cons =>
    intro child rest ihchild ihrest hproper ancestors prevs outtxt outtxt' myrepl myrepl' calls h
    rw [forest, List.forall_mem_append] at hproper
    obtain ⟨o, m, c, c', hturn, hrest, rfl⟩ := processChildren_cons h
    obtain ⟨hchars, hcalls, new, rfl, hlen, helements⟩ := turn_spec ihchild hproper.1 hturn
    have hspec := ihrest hproper.2 hrest
    obtain ⟨new', hnew', hlen', helements'⟩ := hspec.added
    have hholes : holes (pieces options lib ancestors (child :: rest)) =
        holes (piecesOf options lib ancestors child) ++
          holes (pieces options lib ancestors rest) := by
      rw [pieces, holes, List.filterMap_append]
      rfl
    constructor
    case outtxt =>
      rw [hspec.outtxt, hchars, pieces, render_append, List.append_assoc, List.length_append, hlen]
    case calls =>
      rw [hcalls, hspec.calls, messages, List.map_append]
    case added =>
      refine ⟨new ++ new', by rw [hnew', List.append_assoc], ?_, fun hapart => ?_⟩
      · rw [hholes, List.length_append, List.length_append, hlen, hlen']
      · rw [forest, List.forall_mem_append] at hapart
        rw [hholes, List.map_append, helements hapart.1, helements' hapart.2]

/-- An element that is processed by itself: with all placeholders filled in, its message
is its content, and no placeholder is left. -/
theorem processElementTag_fills {ancestors prevs : List Node} {repl repl' : List Replacement}
    {node : Node} {r : Replacement} {calls : List Call}
    (hproper : ∀ n ∈ nodes node, ProperNode options n)
    (hapart : ∀ n ∈ nodes node, ApartNode options lib n)
    (h : processElementTag options lib ancestors prevs repl true node = .ok (r, repl', calls)) :
    r.outtxt.chars = render 0 (pieces options lib (node :: ancestors) node.children) ∧
      r.translation.chars = plain options lib (node :: ancestors) node.children ∧
      Apart opening r.translation.chars := by
  obtain ⟨helement, _⟩ := processElementTag_ok h
  have hspec := processed.1 node hproper (fun hno => Bool.noConfusion hno) h
  have htranslation := hspec.translation rfl hapart
  refine ⟨hspec.outtxt, htranslation, ?_⟩
  rw [htranslation]
  exact (pieces_apart.2 _ (fun n hn => hapart n (forest_subset_nodes helement n hn)) _).1

end Messages

/-! ## An example -/

def tag (name : String) (children : List Node) : Node := .mk ⟨.element, text name, [], [], 1, false⟩
  children

def textNode (content : String) : Node := .mk ⟨.text, text "text", text content, [], 1, false⟩ []

/-- A paragraph with a list in it. -/
def paragraph : Node :=
  tag "para" [textNode "Some ", tag "emphasis" [textNode "text"], textNode " and ",
    tag "itemizedlist" [tag "listitem" [tag "para" [textNode "an item"]]], textNode " more."]

/-- Text without markup is serialized as it is. -/
def plainText : Libxml2 where
  serialize node := node.content
  encodeEntities s := s
  isExternal _ := false
  parse _ := none

def someTags : Options where
  automatic := false
  expandEntities := true
  ultimateTags := [text "para", text "title", text "itemizedlist"]
  ignoredTags := [text "itemizedlist"]
  spacePreserveTags := []

theorem processElementTag_fills_paragraph : ∃ r repl' calls,
    processElementTag someTags plainText [] [] [] true paragraph = .ok (r, repl', calls) ∧
      r.outtxt.chars = render 0 (pieces someTags plainText [paragraph] paragraph.children) ∧
      r.translation.chars = plain someTags plainText [paragraph] paragraph.children ∧
      Apart opening r.translation.chars := by
  have hrun : ∃ x, processElementTag someTags plainText [] [] [] true paragraph = .ok x := ⟨_, rfl⟩
  obtain ⟨⟨r, repl', calls⟩, hrun⟩ := hrun
  exact ⟨r, repl', calls, hrun, processElementTag_fills (by decide) (by decide) hrun⟩

end Xml2po
end I18nZh
