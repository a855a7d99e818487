import I18nZh.Xml2po.Extract

/-!
# The pieces of a message

What stands in a message, piece by piece: its own text nodes, tags and other markup,
and the placeholders, each with the element it stands for.
-/

namespace I18nZh
namespace Xml2po

open Po (Text text strip)

/-! ## Python strings that are put together -/

namespace PyString

theorem append_chars {a b c : PyString} (h : a.append b = .ok c) :
    c.chars = a.chars ++ b.chars := by
  unfold append at h
  by_cases hkind : a.unicode = b.unicode
  · rw [if_pos hkind] at h
    cases h
    rfl
  · rw [if_neg hkind] at h
    split_ifs at h
    all_goals
      cases h
      rfl

theorem decode_chars {a b : PyString} (h : a.decode = .ok b) : b.chars = a.chars := by
  unfold decode at h
  split_ifs at h
  cases h
  rfl

theorem foldlM_append_chars : ∀ {strings : List PyString} {a c : PyString},
    strings.foldlM append a = .ok c → c.chars = a.chars ++ strings.flatMap chars := by
  intro strings
  induction strings with
  | nil =>
    intro a c h
    cases h
    simp
  | cons b strings ih =>
    intro a c h
    rw [List.foldlM_cons] at h
    cases hb : a.append b with
    | error e =>
      rw [hb] at h
      cases h
    | ok ab =>
      rw [hb, Po.ok_bind] at h
      rw [ih h, append_chars hb, List.flatMap_cons, List.append_assoc]

theorem concat_chars {strings : List PyString} {c : PyString} (h : concat strings = .ok c) :
    c.chars = strings.flatMap chars := foldlM_append_chars h

end PyString

/-- The element around some text. -/
def element (starttag content endtag : Text) : Text :=
  text "<" ++ starttag ++ text ">" ++ content ++ (text "</" ++ endtag ++ text ">")

theorem tagged_chars {starttag content endtag s : PyString}
    (h : tagged starttag content endtag = .ok s) :
    s.chars = element starttag.chars content.chars endtag.chars := by
  rw [PyString.concat_chars h]
  simp [element, str]

section Pieces

variable (options : Options) (lib : Libxml2)

/-- The text of an attribute. -/
def attributeText (p : Attribute) : Text :=
  if p.children = [] then p.serialized
  else (p.children.map (attributeChild options lib)).flatMap PyString.chars

/-- The start tag of a node. -/
def startTag (node : Node) : Text :=
  node.name ++ node.info.properties.flatMap fun p =>
    text " " ++ p.name ++ text "=\"" ++ attributeText options lib p ++ text "\""

theorem myAttributeSerialize_chars {p : Attribute} {s : PyString}
    (h : myAttributeSerialize options lib p = .ok s) : s.chars = attributeText options lib p := by
  unfold myAttributeSerialize at h
  unfold attributeText
  split_ifs at h ⊢
  · cases h; rfl
  · exact PyString.concat_chars h

theorem param_chars {p : Attribute} {s : PyString} (h : param options lib p = .ok s) :
    s.chars = text " " ++ p.name ++ text "=\"" ++ attributeText options lib p ++ text "\"" := by
  rw [param] at h
  cases hv : myAttributeSerialize options lib p with
  | error e =>
    rw [hv] at h
    cases h
  | ok value =>
    rw [hv, Po.ok_bind] at h
    rw [PyString.concat_chars h, ← myAttributeSerialize_chars options lib hv]
    simp [str]

theorem params_chars : ∀ {properties : List Attribute} {params : List PyString},
    properties.mapM (param options lib) = .ok params →
    params.flatMap PyString.chars = properties.flatMap fun p =>
      text " " ++ p.name ++ text "=\"" ++ attributeText options lib p ++ text "\"" := by
  intro properties
  induction properties with
  | nil =>
    intro params h
    cases h
    rfl
  | cons p properties ih =>
    intro params h
    rw [List.mapM_cons] at h
    cases hp : param options lib p with
    | error e =>
      rw [hp] at h
      cases h
    | ok s =>
      rw [hp, Po.ok_bind] at h
      cases hps : properties.mapM (param options lib) with
      | error e =>
        rw [hps] at h
        cases h
      | ok rest =>
        rw [hps] at h
        cases h
        rw [List.flatMap_cons, List.flatMap_cons, ih hps, param_chars options lib hp]

theorem startTagForNode_chars {node : Node} {s : PyString}
    (h : startTagForNode options lib node = .ok s) : s.chars = startTag options lib node := by
  rw [startTagForNode] at h
  cases hp : node.info.properties.mapM (param options lib) with
  | error e =>
    rw [hp] at h
    cases h
  | ok params =>
    rw [hp, Po.ok_bind] at h
    rw [PyString.concat_chars h, List.flatMap_cons, params_chars options lib hp]
    rfl

/-- A node that is no element, as it is serialized. -/
def leafText (ancestors : List Node) (node : Node) : Text :=
  if ignoreNode options ancestors node then []
  else if node.children.isEmpty || node.type ≠ .entityRef || lib.isExternal node then
    lib.serialize node
  else (stringForEntity lib node).getD []

/-! ## Pieces -/

inductive Piece where
  | text (parent content serialized : Text)
  | markup (s : Text)
  | hole (element : Text)

/-- The holes are numbered, from the one behind `k` on. -/
def render : Nat → List Piece → Text
  | _, [] => []
  | k, .text _ _ serialized :: pieces => serialized ++ render k pieces
  | k, .markup s :: pieces => s ++ render k pieces
  | k, .hole _ :: pieces => placeholder (k + 1) ++ render (k + 1) pieces

def Piece.element? : Piece → Option Text
  | .hole element => some element
  | _ => none

/-- The elements the placeholders stand for. -/
def holes (pieces : List Piece) : List Text := pieces.filterMap Piece.element?

def Piece.textNode? : Piece → Option (Text × Text)
  | .text parent content serialized =>
    if strip content = [] then none else some (parent, serialized)
  | _ => none

/-- The text nodes of a message that are not blank: the name of the parent, and the
node as it is serialized. -/
def texts (pieces : List Piece) : List (Text × Text) := pieces.filterMap Piece.textNode?

mutual

/-- A node with everything in it, without comments. -/
def plainOf (ancestors : List Node) (node : Node) : Text :=
  match node with
  | .mk info children =>
    if info.type = .element then
      element (startTag options lib (.mk info children))
        (plain (.mk info children :: ancestors) children) info.name
    else leafText options lib ancestors (.mk info children)
termination_by structural node

def plain (ancestors : List Node) (children : List Node) : Text :=
  match children with
  | [] => []
  | child :: rest => plainOf ancestors child ++ plain ancestors rest
termination_by structural children

end

mutual

/-- What a child of the first ancestor is in the message. -/
def piecesOf (ancestors : List Node) (node : Node) : List Piece :=
  match node with
  | .mk info children =>
    if breaks options ancestors (.mk info children) then
      [.hole (plainOf options lib ancestors (.mk info children))]
    else if info.type = .element then
      .markup (text "<" ++ startTag options lib (.mk info children) ++ text ">") ::
        (pieces (.mk info children :: ancestors) children ++
          [.markup (text "</" ++ info.name ++ text ">")])
    else if info.type = .text then
      [.text ((ancestors.head?.map Node.name).getD []) info.content
        (leafText options lib ancestors (.mk info children))]
    else [.markup (leafText options lib ancestors (.mk info children))]
termination_by structural node

def pieces (ancestors : List Node) (children : List Node) : List Piece :=
  match children with
  | [] => []
  | child :: rest => piecesOf ancestors child ++ pieces ancestors rest
termination_by structural children

end

/-- A message that is reported, and what is said of it. -/
structure Message where
  pieces : List Piece
  lineno : Nat
  comment : Option Text
  spacepreserve : Bool
  tag : Text

def Message.texts (m : Message) : List (Text × Text) := Xml2po.texts m.pieces

/-- The message as it is reported. -/
def Message.call (m : Message) : Call :=
  ⟨render 0 m.pieces, m.lineno, m.comment, m.spacepreserve, some m.tag⟩

/-- The message of an element, with the nodes in front of it. -/
def messageOf (ancestors prevs : List Node) (node : Node) : Message :=
  ⟨pieces options lib (node :: ancestors) node.children, node.info.lineNo,
    getCommentForNode prevs, isSpacePreserveNode options node, node.name⟩

mutual

/-- The messages in a node, in the order in which they are reported. -/
def messagesOf (ancestors prevs : List Node) (node : Node) : List Message :=
  match node with
  | .mk info children =>
    if info.type = .element then
      messages (.mk info children :: ancestors) [] children ++
        if worthOutputting options ancestors (.mk info children) then
          [messageOf options lib ancestors prevs (.mk info children)]
        else []
    else []
termination_by structural node

def messages (ancestors prevs : List Node) (children : List Node) : List Message :=
  match children with
  | [] => []
  | child :: rest => messagesOf ancestors prevs child ++ messages ancestors (child :: prevs) rest
termination_by structural children

end

end Pieces

theorem render_append : ∀ (k : Nat) (ps qs : List Piece),
    render k (ps ++ qs) = render k ps ++ render (k + (holes ps).length) qs := by
  intro k ps
  induction ps generalizing k with
  | nil => intro qs; rfl
  | cons p ps ih =>
    intro qs
    cases p with
    | text parent content serialized =>
      show serialized ++ render k (ps ++ qs) = serialized ++ render k ps ++ _
      rw [ih, List.append_assoc]
      rfl
    | markup s =>
      show s ++ render k (ps ++ qs) = s ++ render k ps ++ _
      rw [ih, List.append_assoc]
      rfl
    | hole element =>
      have hlen : k + (holes (.hole element :: ps)).length = k + 1 + (holes ps).length := by
        show k + ((holes ps).length + 1) = _
        omega
      show placeholder (k + 1) ++ render (k + 1) (ps ++ qs) = placeholder (k + 1) ++
        render (k + 1) ps ++ _
      rw [ih, List.append_assoc, hlen]

end Xml2po
end I18nZh
