import I18nZh.Lib.Replace
import I18nZh.Xml2po.Node

/-!
# Extracting messages

`processElementTag` and `doSerialize` in the mode `pot`.  The calls of `outputMessage`
are returned in their order.  A byte string is given by the text it encodes; together
with a `unicode` string it has to be ASCII.
-/

namespace I18nZh
namespace Xml2po

open Po (Text text strip)
open Replace

inductive Error where
  | notElement
  | unicodeDecodeError
  | unicodeEncodeError
  | parserError
  | treeError
  | cannotOpen
  | attributeError
  deriving DecidableEq, Repr

theorem exists_of_bind {α β : Type} {x : Except Error α} {f : α → Except Error β} {b : β}
    (h : (x >>= f) = .ok b) : ∃ a, x = .ok a ∧ f a = .ok b := by
  cases x with
  | error e => cases h
  | ok a => exact ⟨a, rfl, h⟩

theorem bind_ok_iff {α β : Type} {x : Except Error α} {f : α → Except Error β} :
    (∃ b, (x >>= f) = .ok b) ↔ ∃ a, x = .ok a ∧ ∃ b, f a = .ok b := by
  constructor
  · rintro ⟨b, h⟩
    obtain ⟨a, hx, hf⟩ := exists_of_bind h
    exact ⟨a, hx, b, hf⟩
  · rintro ⟨a, rfl, hf⟩
    exact hf

/-! ## Python strings -/

structure PyString where
  unicode : Bool
  chars : Text
  deriving DecidableEq, Repr

def str (chars : Text) : PyString := ⟨false, chars⟩

def isAscii (chars : Text) : Bool := chars.all fun c => c.toNat < 128

namespace PyString

def append (a b : PyString) : Except Error PyString :=
  if a.unicode = b.unicode then .ok ⟨a.unicode, a.chars ++ b.chars⟩
  else if isAscii (if a.unicode then b.chars else a.chars) then .ok ⟨true, a.chars ++ b.chars⟩
  else .error .unicodeDecodeError

/-- The strings one behind the other, as `%` puts them together. -/
def concat (strings : List PyString) : Except Error PyString := strings.foldlM append (str [])

/-- `decode('utf-8')` -/
def decode (s : PyString) : Except Error PyString :=
  if s.unicode && !isAscii s.chars then .error .unicodeEncodeError else .ok ⟨true, s.chars⟩

end PyString

/-! ## Tags -/

section Extract

variable (options : Options) (lib : Libxml2)

def attributeChild : AttributeChild → PyString
  | .text content => str (lib.encodeEntities content)
  | .entityRef name content =>
    if options.expandEntities then ⟨true, content⟩ else str (text "&" ++ name ++ text ";")

def myAttributeSerialize (p : Attribute) : Except Error PyString :=
  if p.children = [] then .ok (str p.serialized)
  else PyString.concat (p.children.map (attributeChild options lib))

def param (p : Attribute) : Except Error PyString := do
  let value ← myAttributeSerialize options lib p
  PyString.concat [str (text " "), str p.name, str (text "=\""), value, str (text "\"")]

def startTagForNode (node : Node) : Except Error PyString := do
  let params ← node.info.properties.mapM (param options lib)
  PyString.concat (str node.name :: params)

def endTagForNode (node : Node) : PyString := str node.name

/-- `'<%s>%s</%s>' % (starttag, content, endtag)` -/
def tagged (starttag content endtag : PyString) : Except Error PyString :=
  PyString.concat [str (text "<"), starttag, str (text ">"), content, str (text "</"), endtag,
    str (text ">")]

def placeholder (k : Nat) : Text := text "<placeholder-" ++ Nat.toDigits 10 k ++ text "/>"

/-! ## Elements -/

/-- What `processElementTag` returns. -/
structure Replacement where
  starttag : PyString
  outtxt : PyString
  endtag : PyString
  translation : PyString
  deriving DecidableEq, Repr

/-- The arguments of `outputMessage`. -/
structure Call where
  text : Text
  lineno : Nat
  comment : Option Text
  spacepreserve : Bool
  tag : Option Text
  deriving DecidableEq, Repr

/-- The loop that fills in the placeholders from the one behind `i` on; `decode` has made
a `unicode` string of the translation. -/
def fillPlaceholders : Nat → List Replacement → PyString → Except Error PyString
  | _, [], translation => .ok translation
  | i, r :: myrepl, translation => do
    let replacement ← tagged r.starttag r.translation r.endtag
    fillPlaceholders (i + 1) myrepl
      ⟨true, replace (placeholder (i + 1)) replacement.chars translation.chars⟩

/-- What `processElementTag` does behind the loop over the children. -/
def closeElement (ancestors prevs : List Node) (node : Node) (restart : Bool)
    (outtxt : PyString) (myrepl : List Replacement) (calls : List Call) :
    Except Error (Replacement × List Call) := do
  let translation ← outtxt.decode
  let starttag ← startTagForNode options lib node
  let endtag := endTagForNode node
  let worth := worthOutputting options ancestors node
  if restart || worth then
    let translation ← fillPlaceholders 0 myrepl translation
    let message := ⟨outtxt.chars, node.info.lineNo, getCommentForNode prevs,
      isSpacePreserveNode options node, some node.name⟩
    return (⟨starttag, outtxt, endtag, translation⟩, if worth then calls ++ [message] else calls)
  else return (⟨starttag, outtxt, endtag, translation⟩, calls)

/-- A child that gets a placeholder. -/
def breaks (ancestors : List Node) (child : Node) : Bool :=
  isFinalNode options ancestors child ||
    (child.type = .element && worthOutputting options ancestors child)

/-- A node that is serialized without a look at its children. -/
def serializeLeaf (node : Node) : Except Error PyString :=
  if node.children.isEmpty || node.type ≠ .entityRef || lib.isExternal node then
    .ok (str (lib.serialize node))
  else
    match stringForEntity lib node with
    | none => .error .parserError
    | some s => .ok (str s)

mutual

/-- Besides what is returned: the list `replacements`, with what was appended to it. -/
def processElementTag (ancestors prevs : List Node) (replacements : List Replacement)
    (restart : Bool) (node : Node) : Except Error (Replacement × List Replacement × List Call) :=
  match node with
  | .mk info children =>
    if info.type = .element then do
      let (outtxt, myrepl, calls) ← processChildren (.mk info children :: ancestors) [] (str [])
        (if restart then [] else replacements) children
      let (r, calls) ← closeElement options lib ancestors prevs (.mk info children) restart
        outtxt myrepl calls
      return (r, if restart then replacements else myrepl, calls)
    else .error .notElement
termination_by structural node

/-- The loop over the children, from some child on. -/
def processChildren (ancestors prevs : List Node) (outtxt : PyString)
    (myrepl : List Replacement) (children : List Node) :
    Except Error (PyString × List Replacement × List Call) :=
  match children with
  | [] => .ok (outtxt, myrepl, [])
  | child :: rest => do
    let (outtxt, myrepl, calls) ← (
      if breaks options ancestors child then do
        let (r, myrepl, calls) ← processElementTag ancestors prevs myrepl true child
        let myrepl := myrepl ++ [r]
        let outtxt ← outtxt.append (str (placeholder myrepl.length))
        return (outtxt, myrepl, calls)
      else if child.type = .element then do
        let (r, myrepl, calls) ← processElementTag ancestors prevs myrepl false child
        let s ← tagged r.starttag r.outtxt r.endtag
        let outtxt ← outtxt.append s
        return (outtxt, myrepl, calls)
      else do
        let (s, calls) ← doSerialize ancestors prevs child
        let outtxt ← outtxt.append s
        return (outtxt, myrepl, calls) : Except Error (PyString × List Replacement × List Call))
    let (outtxt, myrepl, calls') ← processChildren ancestors (child :: prevs) outtxt myrepl rest
    return (outtxt, myrepl, calls ++ calls')
termination_by structural children

def doSerialize (ancestors prevs : List Node) (node : Node) :
    Except Error (PyString × List Call) :=
  match node with
  | .mk info children =>
    if ignoreNode options ancestors (.mk info children) then .ok (str [], [])
    else if children.isEmpty || info.type = .entityRef || info.type = .entityDecl ||
        info.type = .text then do
      let s ← serializeLeaf lib (.mk info children)
      return (s, [])
    else if info.type = .element then do
      let (outtxt, myrepl, calls) ← processChildren (.mk info children :: ancestors) [] (str [])
        [] children
      let (r, calls) ← closeElement options lib ancestors prevs (.mk info children) true
        outtxt myrepl calls
      let s ← tagged r.starttag r.outtxt r.endtag
      return (s, calls)
    else serializeChildren (.mk info children :: ancestors) [] (str []) children
termination_by structural node

/-- The loop at the end of `doSerialize`. -/
def serializeChildren (ancestors prevs : List Node) (outtxt : PyString) (children : List Node) :
    Except Error (PyString × List Call) :=
  match children with
  | [] => .ok (outtxt, [])
  | child :: rest => do
    let (s, calls) ← doSerialize ancestors prevs child
    let outtxt ← outtxt.append s
    let (outtxt, calls') ← serializeChildren ancestors (child :: prevs) outtxt rest
    return (outtxt, calls ++ calls')
termination_by structural children

end

/-- In `doSerialize` an element is processed with a list of its own. -/
theorem doSerialize_element (ancestors prevs : List Node) {node : Node}
    (h : ignoreNode options ancestors node = false) (hne : node.children ≠ [])
    (helement : node.type = .element) :
    doSerialize options lib ancestors prevs node = do
      let (r, _, calls) ← processElementTag options lib ancestors prevs [] true node
      let s ← tagged r.starttag r.outtxt r.endtag
      return (s, calls) := by
  obtain ⟨info, children⟩ := node
  have htype : info.type = .element := helement
  have hempty : children.isEmpty = false := by
    rw [Bool.eq_false_iff, Ne, List.isEmpty_iff]
    exact hne
  rw [doSerialize, processElementTag]
  simp only [h, hempty, htype, if_true, reduceCtorEq, decide_false, Bool.or_self,
    Bool.false_eq_true, if_false, bind_assoc, pure_bind]

/-- One turn of the loop over the children: the string, the list and the calls behind
it. -/
inductive Turn (ancestors prevs : List Node) (outtxt : PyString) (myrepl : List Replacement)
    (child : Node) : PyString → List Replacement → List Call → Prop
  | hole {r m calls o} (hbreaks : breaks options ancestors child = true)
      (hrun : processElementTag options lib ancestors prevs myrepl true child = .ok (r, m, calls))
      (hout : outtxt.append (str (placeholder (m ++ [r]).length)) = .ok o) :
      Turn ancestors prevs outtxt myrepl child o (m ++ [r]) calls
  | inline {r m calls s o} (hbreaks : breaks options ancestors child = false)
      (helement : child.type = .element)
      (hrun : processElementTag options lib ancestors prevs myrepl false child = .ok (r, m, calls))
      (htag : tagged r.starttag r.outtxt r.endtag = .ok s) (hout : outtxt.append s = .ok o) :
      Turn ancestors prevs outtxt myrepl child o m calls
  | leaf {s calls o} (hbreaks : breaks options ancestors child = false)
      (helement : child.type ≠ .element)
      (hrun : doSerialize options lib ancestors prevs child = .ok (s, calls))
      (hout : outtxt.append s = .ok o) :
      Turn ancestors prevs outtxt myrepl child o myrepl calls

variable {options lib}

theorem processChildren_cons {ancestors prevs : List Node} {outtxt outtxt' : PyString}
    {myrepl myrepl' : List Replacement} {child : Node} {rest : List Node} {calls : List Call}
    (h : processChildren options lib ancestors prevs outtxt myrepl (child :: rest) =
      .ok (outtxt', myrepl', calls)) :
    ∃ o m c c', Turn options lib ancestors prevs outtxt myrepl child o m c ∧
      processChildren options lib ancestors (child :: prevs) o m rest =
        .ok (outtxt', myrepl', c') ∧ calls = c ++ c' := by
  rw [processChildren] at h
  obtain ⟨⟨o, m, c⟩, hturn, h⟩ := exists_of_bind h
  obtain ⟨⟨o', m', c'⟩, hrest, h⟩ := exists_of_bind h
  cases h
  refine ⟨o, m, c, c', ?_, hrest, rfl⟩
  by_cases hbreaks : breaks options ancestors child = true
  · rw [if_pos hbreaks] at hturn
    obtain ⟨⟨r, m, calls⟩, hrun, hturn⟩ := exists_of_bind hturn
    obtain ⟨o, hout, hturn⟩ := exists_of_bind hturn
    cases hturn
    exact .hole hbreaks hrun hout
  · rw [if_neg hbreaks] at hturn
    rw [Bool.not_eq_true] at hbreaks
    by_cases helement : child.type = .element
    · rw [if_pos helement] at hturn
      obtain ⟨⟨r, m, calls⟩, hrun, hturn⟩ := exists_of_bind hturn
      obtain ⟨s, htag, hturn⟩ := exists_of_bind hturn
      obtain ⟨o, hout, hturn⟩ := exists_of_bind hturn
      cases hturn
      exact .inline hbreaks helement hrun htag hout
    · rw [if_neg helement] at hturn
      obtain ⟨⟨s, calls⟩, hrun, hturn⟩ := exists_of_bind hturn
      obtain ⟨o, hout, hturn⟩ := exists_of_bind hturn
      cases hturn
      exact .leaf hbreaks helement hrun hout

/-- What an element has been through that was processed. -/
theorem processElementTag_ok {ancestors prevs : List Node} {node : Node} {restart : Bool}
    {repl repl' : List Replacement} {r : Replacement} {calls : List Call}
    (h : processElementTag options lib ancestors prevs repl restart node =
      .ok (r, repl', calls)) :
    node.type = .element ∧ ∃ myrepl translation c,
      processChildren options lib (node :: ancestors) [] (str []) (if restart then [] else repl)
        node.children = .ok (r.outtxt, myrepl, c) ∧
      r.outtxt.decode = .ok translation ∧
      startTagForNode options lib node = .ok r.starttag ∧ r.endtag = endTagForNode node ∧
      repl' = (if restart then repl else myrepl) ∧
      (if restart || worthOutputting options ancestors node then
          fillPlaceholders 0 myrepl translation = .ok r.translation
        else r.translation = translation) ∧
      calls = c ++ if (restart || worthOutputting options ancestors node) &&
          worthOutputting options ancestors node then
        [⟨r.outtxt.chars, node.info.lineNo, getCommentForNode prevs,
          isSpacePreserveNode options node, some node.name⟩] else [] := by
  obtain ⟨info, children⟩ := node
  rw [processElementTag] at h
  by_cases htype : info.type = .element
  · rw [if_pos htype] at h
    obtain ⟨⟨outtxt, myrepl, c⟩, hchildren, h⟩ := exists_of_bind h
    obtain ⟨⟨r', calls'⟩, hclose, h⟩ := exists_of_bind h
    cases h
    rw [closeElement] at hclose
    obtain ⟨translation, hdecode, hclose⟩ := exists_of_bind hclose
    obtain ⟨starttag, hstart, hclose⟩ := exists_of_bind hclose
    refine ⟨htype, myrepl, translation, c, ?_⟩
    simp only at hclose
    by_cases hfill : (restart || worthOutputting options ancestors (.mk info children)) = true
    · rw [if_pos hfill] at hclose ⊢
      obtain ⟨t, ht, hclose⟩ := exists_of_bind hclose
      cases hclose
      refine ⟨hchildren, hdecode, hstart, rfl, rfl, ht, ?_⟩
      rw [hfill, Bool.true_and]
      split_ifs
      · rfl
      · rw [List.append_nil]
    · rw [if_neg hfill] at hclose ⊢
      cases hclose
      refine ⟨hchildren, hdecode, hstart, rfl, rfl, rfl, ?_⟩
      rw [Bool.not_eq_true] at hfill
      rw [hfill, Bool.false_and, if_neg Bool.false_ne_true, List.append_nil]
  · rw [if_neg htype] at h
    cases h

end Extract

end Xml2po
end I18nZh
