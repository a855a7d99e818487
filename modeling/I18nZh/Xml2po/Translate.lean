import I18nZh.Xml2po.Extract

/-!
# Merging translations

`processElementTag` and `doSerialize` in the mode `merge`.  The tree is changed on the
way: where a node is looked at, the nodes in front of it may have been replaced already.
-/

namespace I18nZh
namespace Xml2po

open Po (Text text strip)

/-- What the mode needs besides: the catalogue, without a message that is not in it;
`--mark-untranslated`; and the root of a translated element, parsed with the DTD of the
document in front and with its entities kept. -/
structure Merging where
  ugettext : Text → Option Text
  markUntranslated : Bool
  parseElement : Text → Option Node

/-! ## A place in the tree -/

/-- The parent of a node, without the node. -/
structure Frame where
  info : Info
  before : List Node
  after : List Node

def Frame.fill (frame : Frame) (node : Node) : Node :=
  .mk frame.info (frame.before ++ node :: frame.after)

/-- The ancestors of a node as they are at the moment, the parent first. -/
def above : List Frame → Node → List Node
  | [], _ => []
  | frame :: frames, node => frame.fill node :: above frames (frame.fill node)

/-! ## Python strings -/

namespace PyString

/-- `s.replace(pattern, t)`, with an ASCII pattern. -/
def replace (s : PyString) (pattern : Text) (t : PyString) : Except Error PyString :=
  let chars := Replace.replace pattern t.chars s.chars
  if s.unicode = t.unicode then .ok ⟨s.unicode, chars⟩
  else if isAscii (if s.unicode then t.chars else s.chars) then .ok ⟨true, chars⟩
  else .error .unicodeDecodeError

/-- `encode('utf-8')` -/
def encode (s : PyString) : Except Error PyString :=
  if !s.unicode && !isAscii s.chars then .error .unicodeDecodeError else .ok (str s.chars)

end PyString

/-- The attribute gets the value in its place, or is the last one. -/
def setProperty (name value : Text) : List Attribute → List Attribute
  | [] => [⟨name, [.text value], []⟩]
  | p :: rest =>
    if p.name = name then ⟨name, [.text value], []⟩ :: rest else p :: setProperty name value rest

theorem mem_setProperty {name value : Text} {p : Attribute} : ∀ {properties : List Attribute},
    p ∈ setProperty name value properties → p ∈ properties ∨ p = ⟨name, [.text value], []⟩ := by
  intro properties
  induction properties with
  | nil => exact fun h => Or.inr (List.mem_singleton.mp h)
  | cons q rest ih =>
    intro h
    rw [setProperty] at h
    split_ifs at h
    · rcases List.mem_cons.mp h with rfl | h
      · exact Or.inr rfl
      · exact Or.inl (List.mem_cons_of_mem _ h)
    · rcases List.mem_cons.mp h with rfl | h
      · exact Or.inl List.mem_cons_self
      · exact (ih h).imp_left fun hp => List.mem_cons_of_mem _ hp

/-- `setProp` -/
def Node.setProp (node : Node) (name value : Text) : Node :=
  .mk { node.info with properties := setProperty name value node.info.properties } node.children

/-- `setLang` -/
def Node.setLang (node : Node) (lang : Text) : Node := node.setProp (text "xml:lang") lang

section Merge

variable (options : Options) (lib : Libxml2) (m : Merging)

/-- `normalizeString` of a Python string.  The parser takes a `unicode` string only if it
is ASCII. -/
def normalized (s : PyString) (ignorewhitespace : Bool) : PyString :=
  if ignorewhitespace && (!s.unicode || isAscii s.chars) &&
      (lib.parse (text "<norm>" ++ s.chars ++ text "</norm>")).isSome then
    str (normalizeString options lib s.chars true)
  else s

def getTranslation (s : PyString) (spacepreserve : Bool) : Except Error (Option PyString) :=
  let s := normalized options lib s (!spacepreserve)
  if strip s.chars = [] then .ok (some s)
  else do
    let s ← s.decode
    return (m.ugettext s.chars).map fun res => ⟨true, res⟩

/-- A node that is replaced has children (`children_of_worthOutputting`); the branch for
one without is left out. -/
def replaceNodeContentsWithText (node : Node) (s : PyString) : Except Error Node := do
  let starttag ← startTagForNode options lib node
  let content ← tagged starttag s (endTagForNode node)
  let tmp ← content.encode
  match m.parseElement tmp.chars with
  | none => return node
  | some newelem => return if newelem.children = [] then node else newelem

/-- The loop that fills in the placeholders, on a translation of any kind. -/
def fillTranslation : Nat → List Replacement → PyString → Except Error PyString
  | _, [], translation => .ok translation
  | i, r :: myrepl, translation => do
    let replacement ← tagged r.starttag r.translation r.endtag
    let translation ← translation.replace (placeholder (i + 1)) replacement
    fillTranslation (i + 1) myrepl translation

/-- The message itself when there is no translation; the node may be marked then. -/
def orOuttxt (node : Node) (outtxt : PyString) (worth : Bool) (translation : Option PyString) :
    Except Error (PyString × Node) :=
  match translation.filter fun s => s.chars ≠ [] with
  | some translation => .ok (translation, node)
  | none => do
    let translation ← outtxt.decode
    return (translation, if worth && m.markUntranslated then node.setLang (text "C") else node)

/-- What `processElementTag` does behind the loop over the children. -/
def closeTranslated (ancestors : List Node) (node : Node) (restart : Bool)
    (outtxt : PyString) (myrepl : List Replacement) : Except Error (Replacement × Node) := do
  let translation ← getTranslation options lib m outtxt (isSpacePreserveNode options node)
  let starttag ← startTagForNode options lib node
  let endtag := endTagForNode node
  let worth := worthOutputting options ancestors node
  let (translation, node) ← orOuttxt m node outtxt worth translation
  if restart || worth then
    let translation ← fillTranslation 0 myrepl translation
    let node ← (
      if worth then replaceNodeContentsWithText options lib m node translation
      else return node : Except Error Node)
    return (⟨starttag, outtxt, endtag, translation⟩, node)
  else return (⟨starttag, outtxt, endtag, translation⟩, node)

mutual

/-- Besides what is returned: the list `replacements`, and the node as it is then. -/
def mergeElementTag (frames : List Frame) (replacements : List Replacement) (restart : Bool)
    (node : Node) : Except Error (Replacement × List Replacement × Node) :=
  match node with
  | .mk info children =>
    if info.type = .element then do
      let (outtxt, myrepl, children) ← mergeChildren frames info [] (str [])
        (if restart then [] else replacements) children
      let (r, node) ← closeTranslated options lib m (above frames (.mk info children))
        (.mk info children) restart outtxt myrepl
      return (r, if restart then replacements else myrepl, node)
    else .error .notElement
termination_by structural node

/-- The loop over the children, from some child on; `done` are the children in front of
it. -/
def mergeChildren (frames : List Frame) (info : Info) (done : List Node) (outtxt : PyString)
    (myrepl : List Replacement) (children : List Node) :
    Except Error (PyString × List Replacement × List Node) :=
  match children with
  | [] => .ok (outtxt, myrepl, done)
  | child :: rest => do
    let frames' := ⟨info, done, rest⟩ :: frames
    let (outtxt, myrepl, child) ← (
      if breaks options (above frames' child) child then do
        let (r, myrepl, child) ← mergeElementTag frames' myrepl true child
        let myrepl := myrepl ++ [r]
        let outtxt ← outtxt.append (str (placeholder myrepl.length))
        return (outtxt, myrepl, child)
      else if child.type = .element then do
        let (r, myrepl, child) ← mergeElementTag frames' myrepl false child
        let s ← tagged r.starttag r.outtxt r.endtag
        let outtxt ← outtxt.append s
        return (outtxt, myrepl, child)
      else do
        let (s, child) ← mergeSerialize frames' child
        let outtxt ← outtxt.append s
        return (outtxt, myrepl, child) : Except Error (PyString × List Replacement × Node))
    mergeChildren frames info (done ++ [child]) outtxt myrepl rest
termination_by structural children

def mergeSerialize (frames : List Frame) (node : Node) : Except Error (PyString × Node) :=
  match node with
  | .mk info children =>
    if ignoreNode options (above frames (.mk info children)) (.mk info children) then
      .ok (str [], .mk info children)
    else if children.isEmpty || info.type = .entityRef || info.type = .entityDecl ||
        info.type = .text then do
      let s ← serializeLeaf lib (.mk info children)
      return (s, .mk info children)
    else if info.type = .element then do
      let (outtxt, myrepl, children) ← mergeChildren frames info [] (str []) [] children
      let (r, node) ← closeTranslated options lib m (above frames (.mk info children))
        (.mk info children) true outtxt myrepl
      let s ← tagged r.starttag r.outtxt r.endtag
      return (s, node)
    else do
      let (outtxt, children) ← mergeSerializeChildren frames info [] (str []) children
      return (outtxt, .mk info children)
termination_by structural node

/-- The loop at the end of `doSerialize`. -/
def mergeSerializeChildren (frames : List Frame) (info : Info) (done : List Node)
    (outtxt : PyString) (children : List Node) : Except Error (PyString × List Node) :=
  match children with
  | [] => .ok (outtxt, done)
  | child :: rest => do
    let (s, child) ← mergeSerialize (⟨info, done, rest⟩ :: frames) child
    let outtxt ← outtxt.append s
    mergeSerializeChildren frames info (done ++ [child]) outtxt rest
termination_by structural children

end

end Merge

end Xml2po
end I18nZh
