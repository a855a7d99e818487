import I18nZh.Po.Merge

/-!
# The tree of a document

A document as `libxml2` gives it, and what `xml2po.py` asks of a node.  The node that
holds the document is a node too.  What stands above a node is the list of its
ancestors, the parent first.
-/

namespace I18nZh
namespace Xml2po

open Po (Text text strip isSpace)

inductive NodeType where
  | element
  | text
  | cdata
  | entityRef
  | entityDecl
  | pi
  | comment
  | dtd
  | document
  | other
  deriving DecidableEq, Repr

/-- A child of an attribute. -/
inductive AttributeChild where
  | text (content : Text)
  | entityRef (name content : Text)
  deriving DecidableEq, Repr

/-- `name` is the name with the namespace in front, `serialized` is the attribute as it
is serialized when it has no children. -/
structure Attribute where
  name : Text
  children : List AttributeChild
  serialized : Text
  deriving DecidableEq, Repr

/-- A node without its children.  `spacePreserve` is what `getSpacePreserve` says. -/
structure Info where
  type : NodeType
  name : Text
  content : Text
  properties : List Attribute
  lineNo : Nat
  spacePreserve : Bool
  deriving DecidableEq, Repr

inductive Node where
  | mk (info : Info) (children : List Node)

namespace Node

def info : Node → Info
  | mk info _ => info

def children : Node → List Node
  | mk _ children => children

def type (node : Node) : NodeType := node.info.type

def name (node : Node) : Text := node.info.name

def content (node : Node) : Text := node.info.content

/-- A fact about all nodes together with one about all lists of nodes. -/
theorem both {motive : Node → Prop} {motives : List Node → Prop}
    (mk : ∀ info children, motives children → motive (mk info children)) (nil : motives [])
    (cons : ∀ child rest, motive child → motives rest → motives (child :: rest)) :
    (∀ node, motive node) ∧ ∀ children, motives children := by
  have hnode : ∀ node, motive node := fun node =>
    @Node.rec motive motives mk nil cons node
  refine ⟨hnode, fun children => ?_⟩
  induction children with
  | nil => exact nil
  | cons child rest ih => exact cons child rest (hnode child) ih

end Node

/-- The options of a run: `-a`, `-k`, and the tags of the mode. -/
structure Options where
  automatic : Bool
  expandEntities : Bool
  ultimateTags : List Text
  ignoredTags : List Text
  spacePreserveTags : List Text

/-- What is called of `libxml2`: `serialize` and `encodeEntitiesReentrant`; whether
`debugDumpNode` shows an external entity; and the root element of a text parsed with the
DTD of the document in front, unless it is refused. -/
structure Libxml2 where
  serialize : Node → Text
  encodeEntities : Text → Text
  isExternal : Node → Bool
  parse : Text → Option Node

section Tests

variable (options : Options)

/-- Text or a CDATA section. -/
def isText (node : Node) : Bool := node.type = .text || node.type = .cdata

/-- White space only, as `libxml2` tells it. -/
def isBlankNode (node : Node) : Bool :=
  isText node && node.content.all (· ∈ [' ', '\t', '\n', '\r'])

def autoNodeIsFinal (node : Node) : Bool :=
  if node.name ∈ options.ignoredTags then false
  else if isText node && strip node.content ≠ [] then true
  else node.children.any fun child => child.type = .text && strip child.content ≠ []

mutual

/-- `isFinalNode` by the tags. -/
def tagsFinal (node : Node) : Bool :=
  match node with
  | .mk info children =>
    (info.type = .element && info.name ∈ options.ultimateTags) ||
      (!children.isEmpty && allFinal children)

/-- The loop over the children. -/
def allFinal (children : List Node) : Bool :=
  match children with
  | [] => true
  | child :: rest =>
    (isBlankNode child || child.type = .comment || tagsFinal child) && allFinal rest

end

def isFinalNode (ancestors : List Node) (node : Node) : Bool :=
  if options.automatic then
    autoNodeIsFinal options node && ancestors.all fun parent => !autoNodeIsFinal options parent
  else tagsFinal options node

def ignoreNode (ancestors : List Node) (node : Node) : Bool :=
  if options.automatic then node.type = .dtd || node.type = .comment
  else if isFinalNode options ancestors node then false
  else node.name ∈ options.ignoredTags || node.type = .dtd || node.type = .comment

def isSpacePreserveNode (node : Node) : Bool :=
  node.info.spacePreserve || node.name ∈ options.spacePreserveTags

/-- The loop over the parents, with `final` at its start: no parent takes the node.
A parent is asked `worthOutputting` itself. -/
def climb : Bool → List Node → Bool
  | true, _ => true
  | false, [] => true
  | false, parent :: ancestors =>
    let final := isFinalNode options ancestors parent
    let own := final && parent.name ∉ options.ignoredTags
    if own && (climb own ancestors && autoNodeIsFinal options parent) then false
    else climb final ancestors

def worthOutputting (ancestors : List Node) (node : Node) : Bool :=
  climb options (isFinalNode options ancestors node && node.name ∉ options.ignoredTags) ancestors &&
    autoNodeIsFinal options node

end Tests

section Climb

variable {options : Options} {ancestors : List Node}

theorem autoNodeIsFinal_ignored {node : Node} (h : node.name ∈ options.ignoredTags) :
    autoNodeIsFinal options node = false := by
  rw [autoNodeIsFinal, if_pos h]

@[simp] theorem climb_true : climb options true ancestors = true := by
  cases ancestors <;> rfl

/-- The first final parent decides. -/
theorem climb_false_cons (parent : Node) : climb options false (parent :: ancestors) =
    if isFinalNode options ancestors parent then !autoNodeIsFinal options parent
    else climb options false ancestors := by
  rw [climb]
  by_cases hfinal : isFinalNode options ancestors parent = true
  · by_cases hignored : parent.name ∈ options.ignoredTags
    · simp [hfinal, hignored, autoNodeIsFinal_ignored]
    · cases hauto : autoNodeIsFinal options parent <;> simp [hfinal, hignored]
  · simp [hfinal]

theorem worthOutputting_iff (node : Node) : worthOutputting options ancestors node = true ↔
    autoNodeIsFinal options node = true ∧
      (isFinalNode options ancestors node = true ∨ climb options false ancestors = true) := by
  rw [worthOutputting, Bool.and_eq_true, and_comm]
  apply and_congr_right
  intro hauto
  have hignored : node.name ∉ options.ignoredTags := by
    intro h
    rw [autoNodeIsFinal_ignored h] at hauto
    cases hauto
  cases hfinal : isFinalNode options ancestors node with
  | false => simp
  | true => simp [hignored]

end Climb

/-- The comment in front of a node, from the nodes there, the nearest first. -/
def getCommentForNode : List Node → Option Text
  | [] => none
  | prev :: before =>
    if prev.type = .text && strip prev.content = [] then getCommentForNode before
    else if prev.type = .comment then some (strip prev.content)
    else none

/-! ## Normalizing a string -/

def Node.setContent (node : Node) (content : Text) : Node :=
  .mk { node.info with content := content } node.children

/-- `re.sub('\s+', ' ', s)`; the flag says that a blank has just been written. -/
def collapseFrom : Bool → Text → Text
  | _, [] => []
  | written, c :: s =>
    if isSpace c then if written then collapseFrom true s else ' ' :: collapseFrom true s
    else c :: collapseFrom false s

section Normalize

variable (options : Options) (lib : Libxml2)

mutual

/-- `normalizeNode`, with the node before (normalized) and behind. -/
def normalizeNode (prev next : Option Node) (node : Node) : Node :=
  match node with
  | .mk info children =>
    if isSpacePreserveNode options (.mk info children) then .mk info children
    else if isText (.mk info children) then
      if isBlankNode (.mk info children) then
        if options.expandEntities || !((prev.any fun p => !isBlankNode p) &&
            next.any fun n => !isBlankNode n) then
          .mk { info with content := [] } children
        else .mk info children
      else .mk { info with content := collapseFrom false info.content } children
    else if info.type = .element then .mk info (normalizeChildren none children)
    else .mk info children

def normalizeChildren (prev : Option Node) (children : List Node) : List Node :=
  match children with
  | [] => []
  | child :: rest =>
    let child := normalizeNode prev rest.head? child
    child :: normalizeChildren (some child) rest

end

/-- `re.sub(' $', '', s)`; a line feed at the end may stand behind the blank. -/
def dropLastBlank (s : Text) : Text :=
  if s.getLast? = some ' ' then s.dropLast
  else if s.getLast? = some '\n' && s.dropLast.getLast? = some ' ' then
    s.dropLast.dropLast ++ ['\n']
  else s

/-- `re.sub('^ ', '', s)` -/
def dropFirstBlank (s : Text) : Text :=
  if s.head? = some ' ' then s.tail else s

def normalizeString (s : Text) (ignorewhitespace : Bool) : Text :=
  if !ignorewhitespace then s
  else
    match lib.parse (text "<norm>" ++ s ++ text "</norm>") with
    | none => s
    | some newnode =>
      let newnode := normalizeNode options none none newnode
      dropLastBlank (dropFirstBlank (newnode.children.flatMap lib.serialize))

/-- `stringForEntity`, unless the parser refuses the entity. -/
def stringForEntity (node : Node) : Option Text :=
  (lib.parse (text "<norm>" ++ lib.serialize node ++ text "</norm>")).map fun newnode =>
    newnode.children.flatMap lib.serialize

end Normalize

end Xml2po
end I18nZh
