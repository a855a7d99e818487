import I18nZh.Xml2po.Coverage

/-!
# Documents that can be extracted

When `doSerialize` comes to its end: what gets a placeholder is an element with an
ASCII start tag, and each entity that is replaced is parsed.
-/

namespace I18nZh
namespace Xml2po

open Po (Text text strip)
open Replace

/-! ## Byte strings -/

namespace PyString

theorem append_bytes (a b : Text) : append (str a) (str b) = .ok (str (a ++ b)) := rfl

theorem foldlM_append_bytes : ∀ (strings : List Text) (a : Text),
    (strings.map str).foldlM append (str a) = .ok (str (a ++ strings.flatten)) := by
  intro strings
  induction strings with
  | nil =>
    intro a
    rw [List.flatten_nil, List.append_nil]
    rfl
  | cons b strings ih =>
    intro a
    rw [List.map_cons, List.foldlM_cons, append_bytes, Po.ok_bind, ih, List.flatten_cons,
      List.append_assoc]

theorem concat_bytes (strings : List Text) :
    concat (strings.map str) = .ok (str strings.flatten) := by
  rw [concat, foldlM_append_bytes, List.nil_append]

theorem append_unicode (a b : Text) : append (str a) ⟨true, b⟩ =
    if isAscii a then .ok ⟨true, a ++ b⟩ else .error .unicodeDecodeError := rfl

theorem unicode_append (a b : Text) : append ⟨true, a⟩ (str b) =
    if isAscii b then .ok ⟨true, a ++ b⟩ else .error .unicodeDecodeError := rfl

theorem decode_bytes (a : Text) : decode (str a) = .ok ⟨true, a⟩ := rfl

end PyString

theorem isAscii_append (a b : Text) : isAscii (a ++ b) = (isAscii a && isAscii b) :=
  List.all_append

section Complete

variable {options : Options} {lib : Libxml2}

theorem tagged_bytes (a b c : Text) :
    tagged (str a) (str b) (str c) = .ok (str (element a b c)) := by
  have h := PyString.concat_bytes [text "<", a, text ">", b, text "</", c, text ">"]
  rw [tagged]
  refine h.trans ?_
  simp [element]

/-- A `unicode` string can stand in an element with an ASCII tag only. -/
theorem tagged_unicode_iff (a b c : Text) :
    (∃ s, tagged (str a) ⟨true, b⟩ (str c) = .ok s) ↔ isAscii a = true ∧ isAscii c = true := by
  have hopen : isAscii ([] ++ text "<" ++ a ++ text ">") = isAscii a := by
    rw [isAscii_append, isAscii_append, show isAscii ([] ++ text "<") = true from rfl,
      show isAscii (text ">") = true from rfl, Bool.true_and, Bool.and_true]
  have hclose : isAscii (text "</") = true := rfl
  have hend : isAscii (text ">") = true := rfl
  simp only [tagged, PyString.concat, List.foldlM_cons, List.foldlM_nil]
  rw [PyString.append_bytes, Po.ok_bind, PyString.append_bytes, Po.ok_bind,
    PyString.append_bytes, Po.ok_bind, PyString.append_unicode, hopen]
  cases hstart : isAscii a with
  | false =>
    rw [if_neg Bool.false_ne_true]
    constructor
    · rintro ⟨s, hs⟩
      cases hs
    · rintro ⟨hno, _⟩
      cases hno
  | true =>
    rw [if_pos rfl, Po.ok_bind, PyString.unicode_append, hclose, if_pos rfl, Po.ok_bind,
      PyString.unicode_append]
    cases hname : isAscii c with
    | false =>
      rw [if_neg Bool.false_ne_true]
      constructor
      · rintro ⟨s, hs⟩
        cases hs
      · rintro ⟨_, hno⟩
        cases hno
    | true =>
      rw [if_pos rfl, Po.ok_bind, PyString.unicode_append, hend, if_pos rfl]
      exact ⟨fun _ => ⟨rfl, rfl⟩, fun _ => ⟨_, rfl⟩⟩

/-! ## Tags -/

/-- No attribute has an entity that would be replaced by a `unicode` string. -/
def PlainNode (options : Options) (node : Node) : Prop :=
  options.expandEntities = true → ∀ p ∈ node.info.properties, ∀ c ∈ p.children,
    ∃ content, c = .text content

theorem attributeChild_bytes {p : Attribute} (h : options.expandEntities = true →
    ∀ c ∈ p.children, ∃ content, c = .text content) : ∀ c ∈ p.children,
    attributeChild options lib c = str (attributeChild options lib c).chars := by
  intro c hc
  cases c with
  | text content => rfl
  | entityRef name content =>
    cases hexpand : options.expandEntities with
    | true =>
      obtain ⟨_, hno⟩ := h hexpand _ hc
      cases hno
    | false =>
      rw [attributeChild, hexpand]
      rfl

theorem myAttributeSerialize_bytes {p : Attribute} (h : options.expandEntities = true →
    ∀ c ∈ p.children, ∃ content, c = .text content) :
    myAttributeSerialize options lib p = .ok (str (attributeText options lib p)) := by
  rw [myAttributeSerialize, attributeText]
  by_cases hnil : p.children = []
  · rw [if_pos hnil, if_pos hnil]
  · rw [if_neg hnil, if_neg hnil]
    have hmap : p.children.map (attributeChild options lib) =
        (p.children.map fun c => (attributeChild options lib c).chars).map str := by
      rw [List.map_map]
      exact List.map_congr_left (attributeChild_bytes h)
    have hconcat := PyString.concat_bytes
      (p.children.map fun c => (attributeChild options lib c).chars)
    rw [← hmap] at hconcat
    rw [hconcat, List.flatMap_map, List.flatMap_def]

theorem startTagForNode_bytes {node : Node} (h : PlainNode options node) :
    startTagForNode options lib node = .ok (str (startTag options lib node)) := by
  have hparam : ∀ p ∈ node.info.properties, param options lib p =
      .ok (str (text " " ++ p.name ++ text "=\"" ++ attributeText options lib p ++ text "\"")) := by
    intro p hp
    rw [param, myAttributeSerialize_bytes fun hexpand => h hexpand p hp, Po.ok_bind]
    refine (PyString.concat_bytes [text " ", p.name, text "=\"", attributeText options lib p,
      text "\""]).trans ?_
    simp
  have hparams : ∀ properties : List Attribute, (∀ p ∈ properties, p ∈ node.info.properties) →
      properties.mapM (param options lib) = .ok (properties.map fun p =>
        str (text " " ++ p.name ++ text "=\"" ++ attributeText options lib p ++ text "\"")) := by
    intro properties
    induction properties with
    | nil =>
      intro _
      rfl
    | cons p properties ih =>
      intro hsub
      rw [List.forall_mem_cons] at hsub
      rw [List.mapM_cons, hparam p hsub.1, Po.ok_bind, ih hsub.2]
      rfl
  rw [startTagForNode, hparams _ fun p hp => hp, Po.ok_bind]
  refine Eq.trans ?_ ((PyString.concat_bytes (node.name :: node.info.properties.map fun p =>
    text " " ++ p.name ++ text "=\"" ++ attributeText options lib p ++ text "\"")).trans ?_)
  · rw [List.map_cons, List.map_map]
    rfl
  · rw [List.flatten_cons, startTag, List.flatMap_def]

/-- An ASCII start tag has an ASCII name. -/
theorem isAscii_name {node : Node} (h : isAscii (startTag options lib node) = true) :
    isAscii node.name = true := by
  rw [startTag, isAscii_append, Bool.and_eq_true] at h
  exact h.1

/-! ## The placeholders -/

/-- The element that is filled in for the placeholder can be put together. -/
def Replacement.Fills (r : Replacement) : Prop :=
  ∃ s, tagged r.starttag r.translation r.endtag = .ok s

theorem fillPlaceholders_iff : ∀ {myrepl : List Replacement} {i : Nat} {translation : PyString},
    (∃ t, fillPlaceholders i myrepl translation = .ok t) ↔ ∀ r ∈ myrepl, r.Fills := by
  intro myrepl
  induction myrepl with
  | nil =>
    intro i translation
    exact ⟨fun _ r hr => absurd hr List.not_mem_nil, fun _ => ⟨_, rfl⟩⟩
  | cons r myrepl ih =>
    intro i translation
    rw [fillPlaceholders, bind_ok_iff, List.forall_mem_cons]
    constructor
    · rintro ⟨s, hs, hrest⟩
      exact ⟨⟨s, hs⟩, ih.mp hrest⟩
    · rintro ⟨⟨s, hs⟩, hrest⟩
      exact ⟨s, hs, ih.mpr hrest⟩

theorem fillPlaceholders_unicode : ∀ {myrepl : List Replacement} {i : Nat}
    {translation t : PyString}, translation.unicode = true →
    fillPlaceholders i myrepl translation = .ok t → t.unicode = true := by
  intro myrepl
  induction myrepl with
  | nil =>
    intro i translation t htranslation h
    cases h
    exact htranslation
  | cons r myrepl ih =>
    intro i translation t _ h
    rw [fillPlaceholders] at h
    obtain ⟨s, _, h⟩ := exists_of_bind h
    exact ih rfl h

/-- What is behind the loop over the children comes to its end. -/
theorem closeElement_iff {ancestors prevs : List Node} {node : Node} {restart : Bool}
    {outtxt : Text} {myrepl : List Replacement} {calls : List Call}
    (hplain : PlainNode options node)
    (hworth : restart = false → worthOutputting options ancestors node = false) :
    (∃ x, closeElement options lib ancestors prevs node restart (str outtxt) myrepl calls =
      .ok x) ↔ (restart = true → ∀ r ∈ myrepl, r.Fills) := by
  rw [closeElement, PyString.decode_bytes, Po.ok_bind, startTagForNode_bytes hplain, Po.ok_bind]
  simp only
  cases restart with
  | true =>
    rw [Bool.true_or, if_pos rfl, bind_ok_iff]
    constructor
    · rintro ⟨t, ht, _⟩ _
      exact fillPlaceholders_iff.mp ⟨t, ht⟩
    · intro h
      obtain ⟨t, ht⟩ := fillPlaceholders_iff.mpr (h rfl)
      exact ⟨t, ht, _, rfl⟩
  | false =>
    rw [hworth rfl, Bool.false_or, if_neg Bool.false_ne_true]
    exact ⟨fun _ hno => Bool.noConfusion hno, fun _ => ⟨_, rfl⟩⟩

/-- The kinds of the strings that come out. -/
theorem closeElement_ok {ancestors prevs : List Node} {node : Node} {restart : Bool}
    {outtxt : Text} {myrepl : List Replacement} {calls c : List Call} {r : Replacement}
    (hplain : PlainNode options node)
    (h : closeElement options lib ancestors prevs node restart (str outtxt) myrepl calls =
      .ok (r, c)) :
    r.outtxt = str outtxt ∧ r.starttag = str (startTag options lib node) ∧
      r.endtag = str node.name ∧ r.translation.unicode = true := by
  rw [closeElement, PyString.decode_bytes, Po.ok_bind, startTagForNode_bytes hplain,
    Po.ok_bind] at h
  simp only at h
  split_ifs at h
  · obtain ⟨t, ht, h⟩ := exists_of_bind h
    cases h
    exact ⟨rfl, rfl, rfl, fillPlaceholders_unicode rfl ht⟩
  · obtain ⟨t, ht, h⟩ := exists_of_bind h
    cases h
    exact ⟨rfl, rfl, rfl, fillPlaceholders_unicode rfl ht⟩
  · cases h
    exact ⟨rfl, rfl, rfl, rfl⟩

/-- An element with a placeholder is filled in if its start tag is ASCII. -/
theorem fills_iff {node : Node} {r : Replacement}
    (hstart : r.starttag = str (startTag options lib node)) (hend : r.endtag = str node.name)
    (htranslation : r.translation.unicode = true) :
    r.Fills ↔ isAscii (startTag options lib node) = true := by
  obtain ⟨starttag, outtxt, endtag, unicode, chars⟩ := r
  have hunicode : unicode = true := htranslation
  have hstarttag : starttag = str (startTag options lib node) := hstart
  have hendtag : endtag = str node.name := hend
  rw [Replacement.Fills, hunicode, hstarttag, hendtag, tagged_unicode_iff]
  exact ⟨fun h => h.1, fun h => ⟨h, isAscii_name h⟩⟩

/-! ## Where a document can fail -/

section Places

variable (options : Options) (lib : Libxml2)

/-- A node that is no element, if it is an entity that is replaced. -/
def leafEntities (ancestors : List Node) (node : Node) : List Node :=
  if ignoreNode options ancestors node || node.children.isEmpty || node.type ≠ .entityRef ||
      lib.isExternal node then []
  else [node]

mutual

/-- The nodes in a node that get a placeholder, and the node itself if it gets one. -/
def placedOf (ancestors : List Node) (node : Node) : List Node :=
  match node with
  | .mk info children =>
    (if breaks options ancestors (.mk info children) then [.mk info children] else []) ++
      if info.type = .element then placed (.mk info children :: ancestors) children else []
termination_by structural node

def placed (ancestors : List Node) (children : List Node) : List Node :=
  match children with
  | [] => []
  | child :: rest => placedOf ancestors child ++ placed ancestors rest
termination_by structural children

end

mutual

/-- The entities in a node that are replaced. -/
def entitiesOf (ancestors : List Node) (node : Node) : List Node :=
  match node with
  | .mk info children =>
    if info.type = .element then entities (.mk info children :: ancestors) children
    else leafEntities options lib ancestors (.mk info children)
termination_by structural node

def entities (ancestors : List Node) (children : List Node) : List Node :=
  match children with
  | [] => []
  | child :: rest => entitiesOf ancestors child ++ entities ancestors rest
termination_by structural children

end

/-- A placeholder stands for an element with an ASCII start tag. -/
def Placeable (node : Node) : Prop :=
  node.type = .element ∧ isAscii (startTag options lib node) = true

def EntityParses (entity : Node) : Prop := (stringForEntity lib entity).isSome = true

mutual

/-- The elements that are filled in at the end of the message around a node are ASCII. -/
def FilledOf (ancestors : List Node) (node : Node) : Prop :=
  match node with
  | .mk info children =>
    if breaks options ancestors (.mk info children) then
      isAscii (startTag options lib (.mk info children)) = true
    else if info.type = .element then Filled (.mk info children :: ancestors) children
    else True
termination_by structural node

def Filled (ancestors : List Node) (children : List Node) : Prop :=
  match children with
  | [] => True
  | child :: rest => FilledOf ancestors child ∧ Filled ancestors rest
termination_by structural children

end

mutual

/-- The loop gets past a node. -/
def RunsOf (ancestors : List Node) (node : Node) : Prop :=
  match node with
  | .mk info children =>
    if info.type = .element then
      Runs (.mk info children :: ancestors) children ∧
        (breaks options ancestors (.mk info children) = true →
          Filled options lib (.mk info children :: ancestors) children)
    else breaks options ancestors (.mk info children) = false ∧
      ∀ e ∈ leafEntities options lib ancestors (.mk info children), EntityParses lib e
termination_by structural node

def Runs (ancestors : List Node) (children : List Node) : Prop :=
  match children with
  | [] => True
  | child :: rest => RunsOf ancestors child ∧ Runs ancestors rest
termination_by structural children

end

end Places

/-- In terms of the nodes where it can fail. -/
theorem runs_and_filled_iff :
    (∀ (node : Node) (ancestors : List Node),
      (RunsOf options lib ancestors node ∧ FilledOf options lib ancestors node) ↔
        (∀ n ∈ placedOf options ancestors node, Placeable options lib n) ∧
          ∀ e ∈ entitiesOf options lib ancestors node, EntityParses lib e) ∧
    ∀ (children ancestors : List Node),
      (Runs options lib ancestors children ∧ Filled options lib ancestors children) ↔
        (∀ n ∈ placed options ancestors children, Placeable options lib n) ∧
          ∀ e ∈ entities options lib ancestors children, EntityParses lib e := by
  apply Node.both
  case mk =>
    intro info children ih ancestors
    rw [RunsOf, FilledOf, placedOf, entitiesOf]
    have hchildren := ih (.mk info children :: ancestors)
    by_cases helement : info.type = .element
    · have htype : (Node.mk info children).type = .element := helement
      cases hbreaks : breaks options ancestors (.mk info children) with
      | true =>
        simp only [helement, if_true, List.singleton_append, List.forall_mem_cons, Placeable,
          htype, true_and, forall_const]
        constructor
        · rintro ⟨⟨hruns, hfilled⟩, hascii⟩
          obtain ⟨hplaced, hentities⟩ := hchildren.mp ⟨hruns, hfilled⟩
          exact ⟨⟨hascii, hplaced⟩, hentities⟩
        · rintro ⟨⟨hascii, hplaced⟩, hentities⟩
          exact ⟨hchildren.mpr ⟨hplaced, hentities⟩, hascii⟩
      | false =>
        simp only [helement, if_true, Bool.false_eq_true, if_false, List.nil_append,
          false_implies, and_true]
        exact hchildren
    · have htype : (Node.mk info children).type ≠ .element := helement
      cases hbreaks : breaks options ancestors (.mk info children) with
      | true => simp [helement, Placeable, htype]
      | false => simp [helement]
  case nil =>
    intro ancestors
    simp [Runs, Filled, placed, entities]
  case cons =>
    intro child rest ihchild ihrest ancestors
    rw [Runs, Filled, placed, entities, List.forall_mem_append, List.forall_mem_append,
      and_and_and_comm, ihchild, ihrest, and_and_and_comm]

/-! ## The run -/

theorem serializeLeaf_iff {ancestors : List Node} {node : Node}
    (hignore : ignoreNode options ancestors node = false) :
    (∃ s, serializeLeaf lib node = .ok s) ↔
      ∀ e ∈ leafEntities options lib ancestors node, EntityParses lib e := by
  rw [serializeLeaf, leafEntities, hignore, Bool.false_or]
  split_ifs with hleaf
  · exact ⟨fun _ e he => absurd he List.not_mem_nil, fun _ => ⟨_, rfl⟩⟩
  · rw [List.forall_mem_singleton, EntityParses]
    cases stringForEntity lib node with
    | none =>
      constructor
      · rintro ⟨s, hs⟩
        cases hs
      · intro hno
        cases hno
    | some s => exact ⟨fun _ => rfl, fun _ => ⟨_, rfl⟩⟩

theorem serializeLeaf_bytes {node : Node} {s : PyString} (h : serializeLeaf lib node = .ok s) :
    ∃ t, s = str t := by
  rw [serializeLeaf] at h
  split_ifs at h
  · cases h
    exact ⟨_, rfl⟩
  · cases hs : stringForEntity lib node with
    | none =>
      rw [hs] at h
      cases h
    | some t =>
      rw [hs] at h
      cases h
      exact ⟨t, rfl⟩

theorem doSerialize_leaf_iff {ancestors prevs : List Node} {node : Node}
    (hp : ProperNode options node) (htype : node.type ≠ .element) :
    (∃ x, doSerialize options lib ancestors prevs node = .ok x) ↔
      ∀ e ∈ leafEntities options lib ancestors node, EntityParses lib e := by
  obtain ⟨info, children⟩ := node
  have hleaf := hp.isLeaf htype
  rw [doSerialize]
  cases hignore : ignoreNode options ancestors (.mk info children) with
  | true =>
    rw [if_pos rfl, leafEntities, hignore]
    exact ⟨fun _ e he => absurd he List.not_mem_nil, fun _ => ⟨_, rfl⟩⟩
  | false =>
    rw [if_neg Bool.false_ne_true, if_pos hleaf, ← serializeLeaf_iff hignore, bind_ok_iff]
    constructor
    · rintro ⟨s, hs, _⟩
      exact ⟨s, hs⟩
    · rintro ⟨s, hs⟩
      exact ⟨s, hs, _, rfl⟩

theorem doSerialize_leaf_bytes {ancestors prevs : List Node} {node : Node} {s : PyString}
    {calls : List Call} (hp : ProperNode options node) (htype : node.type ≠ .element)
    (h : doSerialize options lib ancestors prevs node = .ok (s, calls)) : ∃ t, s = str t := by
  obtain ⟨info, children⟩ := node
  have hleaf := hp.isLeaf htype
  rw [doSerialize] at h
  split_ifs at h
  · cases h
    exact ⟨[], rfl⟩
  · obtain ⟨s', hs, h⟩ := exists_of_bind h
    cases h
    exact serializeLeaf_bytes hs

/-- One turn of the loop over the children. -/
def turn (options : Options) (lib : Libxml2) (ancestors prevs : List Node) (outtxt : PyString)
    (myrepl : List Replacement) (child : Node) :
    Except Error (PyString × List Replacement × List Call) :=
  if breaks options ancestors child then do
    let (r, myrepl, calls) ← processElementTag options lib ancestors prevs myrepl true child
    let myrepl := myrepl ++ [r]
    let outtxt ← outtxt.append (str (placeholder myrepl.length))
    return (outtxt, myrepl, calls)
  else if child.type = .element then do
    let (r, myrepl, calls) ← processElementTag options lib ancestors prevs myrepl false child
    let s ← tagged r.starttag r.outtxt r.endtag
    let outtxt ← outtxt.append s
    return (outtxt, myrepl, calls)
  else do
    let (s, calls) ← doSerialize options lib ancestors prevs child
    let outtxt ← outtxt.append s
    return (outtxt, myrepl, calls)

theorem processChildren_turn (ancestors prevs : List Node) (outtxt : PyString)
    (myrepl : List Replacement) (child : Node) (rest : List Node) :
    processChildren options lib ancestors prevs outtxt myrepl (child :: rest) = do
      let (outtxt, myrepl, calls) ← turn options lib ancestors prevs outtxt myrepl child
      let (outtxt, myrepl, calls') ← processChildren options lib ancestors (child :: prevs) outtxt
        myrepl rest
      return (outtxt, myrepl, calls ++ calls') := by
  rw [processChildren]
  rfl

/-- What is asked of the nodes. -/
structure Sane (options : Options) (node : Node) : Prop where
  proper : ProperNode options node
  plain : PlainNode options node

/-- An element that is processed: when it comes to its end, and what is known then. -/
structure ElementRuns (options : Options) (lib : Libxml2) (ancestors prevs : List Node)
    (node : Node) (restart : Bool) (repl : List Replacement) : Prop where
  runs : (∃ x, processElementTag options lib ancestors prevs repl restart node = .ok x) ↔
    Runs options lib (node :: ancestors) node.children ∧
      (restart = true → Filled options lib (node :: ancestors) node.children)
  bytes : ∀ {r repl' calls},
    processElementTag options lib ancestors prevs repl restart node = .ok (r, repl', calls) →
    r.starttag = str (startTag options lib node) ∧ (∃ t, r.outtxt = str t) ∧
      r.endtag = str node.name ∧ r.translation.unicode = true
  added : restart = false → ∀ {r repl' calls},
    processElementTag options lib ancestors prevs repl restart node = .ok (r, repl', calls) →
    ∃ new, repl' = repl ++ new ∧
      ((∀ r ∈ new, r.Fills) ↔ Filled options lib (node :: ancestors) node.children)

/-- Children that are processed. -/
structure ChildrenRun (options : Options) (lib : Libxml2) (ancestors prevs children : List Node)
    (outtxt : Text) (myrepl : List Replacement) : Prop where
  runs : (∃ x, processChildren options lib ancestors prevs (str outtxt) myrepl children =
    .ok x) ↔ Runs options lib ancestors children
  added : ∀ {o m calls},
    processChildren options lib ancestors prevs (str outtxt) myrepl children =
      .ok (o, m, calls) → (∃ t, o = str t) ∧ ∃ new, m = myrepl ++ new ∧
        ((∀ r ∈ new, r.Fills) ↔ Filled options lib ancestors children)

def AllElementsRun (options : Options) (lib : Libxml2) (node : Node) : Prop :=
  (∀ n ∈ nodes node, Sane options n) → node.type = .element →
    ∀ ancestors prevs restart repl,
      (restart = false → worthOutputting options ancestors node = false) →
      ElementRuns options lib ancestors prevs node restart repl

def AllChildrenRun (options : Options) (lib : Libxml2) (children : List Node) : Prop :=
  (∀ n ∈ forest children, Sane options n) → ∀ ancestors prevs outtxt myrepl,
    ChildrenRun options lib ancestors prevs children outtxt myrepl

theorem elementRuns_of_children {node : Node}
    (ih : AllChildrenRun options lib node.children) : AllElementsRun options lib node := by
  intro hsane helement ancestors prevs restart repl hworth
  have hchildren := ih (fun n hn => hsane n (forest_subset_nodes helement n hn))
    (node :: ancestors) [] [] (if restart then [] else repl)
  have hplain := (hsane node (mem_nodes_self node)).plain
  obtain ⟨info, children⟩ := node
  have htype : info.type = .element := helement
  constructor
  case runs =>
    rw [processElementTag, if_pos htype, bind_ok_iff, ← hchildren.runs]
    constructor
    · rintro ⟨⟨outtxt, myrepl, calls⟩, hrun, hclose⟩
      refine ⟨⟨_, hrun⟩, ?_⟩
      intro hrestart
      obtain ⟨⟨t, rfl⟩, new, hnew, hfills⟩ := hchildren.added hrun
      obtain ⟨x, hx, _⟩ := bind_ok_iff.mp hclose
      rw [if_pos hrestart, List.nil_append] at hnew
      rw [hnew] at hx
      exact hfills.mp ((closeElement_iff hplain hworth).mp ⟨x, hx⟩ hrestart)
    · rintro ⟨⟨⟨outtxt, myrepl, calls⟩, hrun⟩, hfilled⟩
      obtain ⟨⟨t, rfl⟩, new, hnew, hfills⟩ := hchildren.added hrun
      refine ⟨_, hrun, ?_⟩
      rw [bind_ok_iff]
      have hclose : ∃ x, closeElement options lib ancestors prevs (.mk info children) restart
          (str t) myrepl calls = .ok x := by
        rw [closeElement_iff hplain hworth]
        intro hrestart
        rw [if_pos hrestart, List.nil_append] at hnew
        rw [hnew]
        exact hfills.mpr (hfilled hrestart)
      obtain ⟨x, hx⟩ := hclose
      exact ⟨x, hx, _, rfl⟩
  case bytes =>
    intro r repl' calls h
    rw [processElementTag, if_pos htype] at h
    obtain ⟨⟨outtxt, myrepl, c⟩, hrun, h⟩ := exists_of_bind h
    obtain ⟨⟨r', c'⟩, hclose, h⟩ := exists_of_bind h
    cases h
    obtain ⟨⟨t, rfl⟩, _⟩ := hchildren.added hrun
    obtain ⟨houttxt, hstart, hend, htranslation⟩ := closeElement_ok hplain hclose
    exact ⟨hstart, ⟨t, houttxt⟩, hend, htranslation⟩
  case added =>
    intro hrestart r repl' calls h
    rw [processElementTag, if_pos htype] at h
    obtain ⟨⟨outtxt, myrepl, c⟩, hrun, h⟩ := exists_of_bind h
    obtain ⟨⟨r', c'⟩, hclose, h⟩ := exists_of_bind h
    cases h
    obtain ⟨_, new, hnew, hfills⟩ := hchildren.added hrun
    rw [hrestart] at hnew ⊢
    exact ⟨new, hnew, hfills⟩

theorem processElementTag_notElement {ancestors prevs : List Node} {node : Node}
    (h : node.type ≠ .element) (repl : List Replacement) (restart : Bool) :
    processElementTag options lib ancestors prevs repl restart node = .error .notElement := by
  obtain ⟨info, children⟩ := node
  rw [processElementTag]
  exact if_neg h

theorem runsOf_element {ancestors : List Node} {node : Node} (h : node.type = .element) :
    RunsOf options lib ancestors node ↔ Runs options lib (node :: ancestors) node.children ∧
      (breaks options ancestors node = true →
        Filled options lib (node :: ancestors) node.children) := by
  obtain ⟨info, children⟩ := node
  have htype : info.type = .element := h
  rw [RunsOf, if_pos htype]
  rfl

theorem runsOf_leaf {ancestors : List Node} {node : Node} (h : node.type ≠ .element) :
    RunsOf options lib ancestors node ↔ breaks options ancestors node = false ∧
      ∀ e ∈ leafEntities options lib ancestors node, EntityParses lib e := by
  obtain ⟨info, children⟩ := node
  have htype : info.type ≠ .element := h
  rw [RunsOf, if_neg htype]

theorem filledOf_breaks {ancestors : List Node} {node : Node}
    (h : breaks options ancestors node = true) : FilledOf options lib ancestors node ↔
      isAscii (startTag options lib node) = true := by
  obtain ⟨info, children⟩ := node
  rw [FilledOf, if_pos h]

theorem filledOf_inline {ancestors : List Node} {node : Node}
    (h : breaks options ancestors node = false) (helement : node.type = .element) :
    FilledOf options lib ancestors node ↔
      Filled options lib (node :: ancestors) node.children := by
  obtain ⟨info, children⟩ := node
  have htype : info.type = .element := helement
  rw [FilledOf, if_neg (by rw [h]; exact Bool.false_ne_true), if_pos htype]
  rfl

theorem filledOf_leaf {ancestors : List Node} {node : Node}
    (h : breaks options ancestors node = false) (helement : node.type ≠ .element) :
    FilledOf options lib ancestors node := by
  obtain ⟨info, children⟩ := node
  have htype : info.type ≠ .element := helement
  rw [FilledOf, if_neg (by rw [h]; exact Bool.false_ne_true), if_neg htype]
  trivial

/-- One turn: when it comes to its end, and what is known then. -/
theorem turn_runs {child : Node} (ih : AllElementsRun options lib child)
    (hsane : ∀ n ∈ nodes child, Sane options n) (ancestors prevs : List Node) (outtxt : Text)
    (myrepl : List Replacement) :
    ((∃ x, turn options lib ancestors prevs (str outtxt) myrepl child = .ok x) ↔
      RunsOf options lib ancestors child) ∧
    ∀ {o m calls}, turn options lib ancestors prevs (str outtxt) myrepl child =
      .ok (o, m, calls) → (∃ t, o = str t) ∧ ∃ new, m = myrepl ++ new ∧
        ((∀ r ∈ new, r.Fills) ↔ FilledOf options lib ancestors child) := by
  have hproper := (hsane child (mem_nodes_self child)).proper
  rw [turn]
  cases hbreaks : breaks options ancestors child with
  | true =>
    rw [if_pos rfl]
    by_cases helement : child.type = .element
    · have hrun := ih hsane helement ancestors prevs true myrepl fun hno => Bool.noConfusion hno
      refine ⟨?_, ?_⟩
      · rw [runsOf_element helement, hbreaks, bind_ok_iff]
        rw [← hrun.runs]
        constructor
        · rintro ⟨x, hx, _⟩
          exact ⟨x, hx⟩
        · rintro ⟨⟨r, m, c⟩, hx⟩
          exact ⟨_, hx, _, rfl⟩
      · intro o m calls h
        obtain ⟨⟨r, m', c⟩, hx, h⟩ := exists_of_bind h
        cases h
        obtain ⟨hstart, _, hend, htranslation⟩ := hrun.bytes hx
        obtain ⟨_, _, _, _, _, _, _, _, hkept, _⟩ := processElementTag_ok hx
        rw [if_pos rfl] at hkept
        refine ⟨⟨_, rfl⟩, [r], by rw [hkept], ?_⟩
        rw [List.forall_mem_singleton, filledOf_breaks hbreaks,
          fills_iff hstart hend htranslation]
    · rw [processElementTag_notElement helement]
      refine ⟨?_, ?_⟩
      · rw [runsOf_leaf helement, hbreaks]
        constructor
        · rintro ⟨x, hx⟩
          cases hx
        · rintro ⟨hno, _⟩
          cases hno
      · intro o m calls h
        cases h
  | false =>
    rw [if_neg Bool.false_ne_true]
    by_cases helement : child.type = .element
    · rw [if_pos helement]
      have hrun := ih hsane helement ancestors prevs false myrepl fun _ =>
        not_worth_of_not_breaks hbreaks helement
      refine ⟨?_, ?_⟩
      · rw [runsOf_element helement, hbreaks, bind_ok_iff, ← hrun.runs]
        constructor
        · rintro ⟨x, hx, _⟩
          exact ⟨x, hx⟩
        · rintro ⟨⟨r, m, c⟩, hx⟩
          obtain ⟨hstart, ⟨t, houttxt⟩, hend, _⟩ := hrun.bytes hx
          refine ⟨_, hx, ?_⟩
          simp only
          rw [hstart, houttxt, hend, tagged_bytes]
          exact ⟨_, rfl⟩
      · intro o m calls h
        obtain ⟨⟨r, m', c⟩, hx, h⟩ := exists_of_bind h
        obtain ⟨hstart, ⟨t, houttxt⟩, hend, _⟩ := hrun.bytes hx
        simp only at h
        rw [hstart, houttxt, hend, tagged_bytes] at h
        cases h
        refine ⟨⟨_, rfl⟩, ?_⟩
        rw [filledOf_inline hbreaks helement]
        exact hrun.added rfl hx
    · rw [if_neg helement]
      refine ⟨?_, ?_⟩
      · have hleaf : (∃ x, doSerialize options lib ancestors prevs child = .ok x) ↔ _ :=
          doSerialize_leaf_iff hproper helement
        rw [runsOf_leaf helement, hbreaks, bind_ok_iff, ← hleaf]
        constructor
        · rintro ⟨x, hx, _⟩
          exact ⟨rfl, x, hx⟩
        · rintro ⟨_, ⟨s, c⟩, hx⟩
          obtain ⟨t, rfl⟩ := doSerialize_leaf_bytes hproper helement hx
          exact ⟨_, hx, _, rfl⟩
      · intro o m calls h
        obtain ⟨⟨s, c⟩, hx, h⟩ := exists_of_bind h
        obtain ⟨t, rfl⟩ := doSerialize_leaf_bytes hproper helement hx
        cases h
        refine ⟨⟨_, rfl⟩, [], (List.append_nil _).symm, ?_⟩
        exact ⟨fun _ => filledOf_leaf hbreaks helement, fun _ r hr => absurd hr List.not_mem_nil⟩

/-- The run over the tree. -/
theorem allRun : (∀ node, AllElementsRun options lib node) ∧
    ∀ children, AllChildrenRun options lib children := by
  apply Node.both
  case mk =>
    intro info children ih
    exact elementRuns_of_children ih
  case nil =>
    intro _ ancestors prevs outtxt myrepl
    constructor
    · rw [Runs]
      exact ⟨fun _ => trivial, fun _ => ⟨_, rfl⟩⟩
    · intro o m calls h
      cases h
      refine ⟨⟨_, rfl⟩, [], (List.append_nil _).symm, ?_⟩
      rw [Filled]
      exact ⟨fun _ => trivial, fun _ r hr => absurd hr List.not_mem_nil⟩
  case cons =>
    intro child rest ihchild ihrest hsane ancestors prevs outtxt myrepl
    rw [forest, List.forall_mem_append] at hsane
    obtain ⟨hturn, hturned⟩ := turn_runs ihchild hsane.1 ancestors prevs outtxt myrepl
    have hrest := fun t m => ihrest hsane.2 ancestors (child :: prevs) t m
    constructor
    · rw [processChildren_turn, bind_ok_iff, Runs, ← hturn]
      constructor
      · rintro ⟨⟨o, m, c⟩, hx, hrun⟩
        obtain ⟨⟨t, rfl⟩, _⟩ := hturned hx
        obtain ⟨x, hx', _⟩ := bind_ok_iff.mp hrun
        exact ⟨⟨_, hx⟩, (hrest t m).runs.mp ⟨x, hx'⟩⟩
      · rintro ⟨⟨⟨o, m, c⟩, hx⟩, hruns⟩
        obtain ⟨⟨t, rfl⟩, _⟩ := hturned hx
        obtain ⟨x, hx'⟩ := (hrest t m).runs.mpr hruns
        exact ⟨_, hx, bind_ok_iff.mpr ⟨x, hx', _, rfl⟩⟩
    · intro o' m' calls h
      rw [processChildren_turn] at h
      obtain ⟨⟨o, m, c⟩, hx, h⟩ := exists_of_bind h
      obtain ⟨⟨t, rfl⟩, new, rfl, hfills⟩ := hturned hx
      obtain ⟨⟨o'', m'', c''⟩, hx', h⟩ := exists_of_bind h
      cases h
      obtain ⟨hbytes, new', hnew', hfills'⟩ := (hrest t (myrepl ++ new)).added hx'
      refine ⟨hbytes, new ++ new', by rw [hnew', List.append_assoc], ?_⟩
      rw [List.forall_mem_append, hfills, hfills', Filled]

/-! ## Documents -/

/-- The nodes of a document that get a placeholder. -/
def placedIn (options : Options) (doc : Node) : List Node :=
  doc.children.flatMap fun c =>
    if c.type = .element then placed options [c, doc] c.children else []

/-- The entities of a document that are replaced. -/
def entitiesIn (options : Options) (lib : Libxml2) (doc : Node) : List Node :=
  doc.children.flatMap fun c =>
    if c.type = .element then entities options lib [c, doc] c.children else []

/-- No attribute of the document brings a `unicode` string. -/
def PlainDocument (options : Options) (doc : Node) : Prop :=
  ∀ c ∈ doc.children, ∀ n ∈ nodes c, PlainNode options n

theorem doSerialize_top_element (hsound : options.Sound) {doc c : Node} {prevs : List Node}
    (helement : c.type = .element) (hne : c.children ≠ []) (hsane : ∀ n ∈ nodes c, Sane options n) :
    ((∃ x, doSerialize options lib [doc] prevs c = .ok x) ↔
      (∀ n ∈ placed options [c, doc] c.children, Placeable options lib n) ∧
        ∀ e ∈ entities options lib [c, doc] c.children, EntityParses lib e) ∧
    ∀ {s calls}, doSerialize options lib [doc] prevs c = .ok (s, calls) → ∃ t, s = str t := by
  have hrun : ElementRuns options lib [doc] prevs c true [] :=
    allRun.1 c hsane helement [doc] prevs true [] fun hno => Bool.noConfusion hno
  have hstring : ∀ {r repl' calls}, processElementTag options lib [doc] prevs [] true c =
      .ok (r, repl', calls) → ∃ t, tagged r.starttag r.outtxt r.endtag = .ok (str t) := by
    intro r repl' calls hx
    obtain ⟨hstart, ⟨t, houttxt⟩, hend, _⟩ := hrun.bytes hx
    rw [hstart, houttxt, hend, tagged_bytes]
    exact ⟨_, rfl⟩
  rw [doSerialize_element options lib [doc] prevs (ignoreNode_element hsound helement) hne helement]
  constructor
  · rw [bind_ok_iff, ← runs_and_filled_iff.2]
    have hruns := hrun.runs
    simp only [forall_const] at hruns
    rw [← hruns]
    constructor
    · rintro ⟨x, hx, _⟩
      exact ⟨x, hx⟩
    · rintro ⟨⟨r, repl', calls⟩, hx⟩
      obtain ⟨t, ht⟩ := hstring hx
      refine ⟨_, hx, ?_⟩
      simp only
      rw [ht]
      exact ⟨_, rfl⟩
  · intro s calls h
    obtain ⟨⟨r, repl', calls'⟩, hx, h⟩ := exists_of_bind h
    obtain ⟨t, ht⟩ := hstring hx
    simp only at h
    rw [ht] at h
    cases h
    exact ⟨t, rfl⟩

/-- A node at the top of a document. -/
theorem doSerialize_top (hsound : options.Sound) {doc c : Node} (prevs : List Node)
    (hdoc : ProperDocument options doc) (hplain : PlainDocument options doc)
    (hc : c ∈ doc.children) :
    ((∃ x, doSerialize options lib [doc] prevs c = .ok x) ↔ (c.type = .element →
      (∀ n ∈ placed options [c, doc] c.children, Placeable options lib n) ∧
        ∀ e ∈ entities options lib [c, doc] c.children, EntityParses lib e)) ∧
    ∀ {s calls}, doSerialize options lib [doc] prevs c = .ok (s, calls) → ∃ t, s = str t := by
  by_cases hother : c.type ≠ .element ∨ c.children = []
  · obtain ⟨t, hx⟩ : ∃ t, doSerialize options lib [doc] prevs c = .ok (str t, []) :=
      hdoc.doSerialize_other hc hother prevs
    refine ⟨⟨fun _ helement => ?_, fun _ => ⟨_, hx⟩⟩, ?_⟩
    · rw [hother.resolve_left (not_not.mpr helement)]
      exact ⟨fun n hn => absurd hn List.not_mem_nil, fun e he => absurd he List.not_mem_nil⟩
    · intro s calls' h
      rw [hx] at h
      cases h
      exact ⟨t, rfl⟩
  · rw [not_or, not_not] at hother
    have hsane : ∀ n ∈ nodes c, Sane options n := by
      rcases hdoc.child c hc with ⟨_, h⟩ | ⟨h | h, _⟩ | ⟨h, _⟩
      · exact fun n hn => ⟨h n hn, hplain c hc n hn⟩
      all_goals
        rw [h] at hother
        cases hother.1
    obtain ⟨hiff, hbytes⟩ : ((∃ x, doSerialize options lib [doc] prevs c = .ok x) ↔ _) ∧ _ :=
      doSerialize_top_element hsound hother.1 hother.2 hsane
    refine ⟨?_, hbytes⟩
    rw [hiff]
    exact ⟨fun h _ => h, fun h => h hother.1⟩

theorem serializeChildren_iff (hsound : options.Sound) {doc : Node}
    (hdoc : ProperDocument options doc) (hplain : PlainDocument options doc) :
    ∀ {children prevs : List Node} {outtxt : Text}, (∀ c ∈ children, c ∈ doc.children) →
    ((∃ x, serializeChildren options lib [doc] prevs (str outtxt) children = .ok x) ↔
      ∀ c ∈ children, c.type = .element →
        (∀ n ∈ placed options [c, doc] c.children, Placeable options lib n) ∧
          ∀ e ∈ entities options lib [c, doc] c.children, EntityParses lib e) := by
  intro children
  induction children with
  | nil =>
    intro prevs outtxt _
    exact ⟨fun _ c hc => absurd hc List.not_mem_nil, fun _ => ⟨_, rfl⟩⟩
  | cons c rest ih =>
    intro prevs outtxt hsub
    rw [List.forall_mem_cons] at hsub
    obtain ⟨htop, hbytes⟩ := doSerialize_top hsound prevs hdoc hplain hsub.1
    rw [serializeChildren, bind_ok_iff, List.forall_mem_cons, ← htop]
    constructor
    · rintro ⟨⟨s, calls⟩, hx, hrest⟩
      obtain ⟨t, rfl⟩ := hbytes hx
      obtain ⟨o, ho, hrest⟩ := bind_ok_iff.mp hrest
      cases ho
      obtain ⟨x, hx', _⟩ := bind_ok_iff.mp hrest
      exact ⟨⟨_, hx⟩, (ih hsub.2).mp ⟨x, hx'⟩⟩
    · rintro ⟨⟨⟨s, calls⟩, hx⟩, hrest⟩
      obtain ⟨t, rfl⟩ := hbytes hx
      obtain ⟨x, hx'⟩ := (ih hsub.2).mpr hrest
      refine ⟨_, hx, bind_ok_iff.mpr ⟨_, rfl, bind_ok_iff.mpr ⟨x, hx', _, rfl⟩⟩⟩

/-- The places of a document, child by child. -/
theorem places_iff (doc : Node) : (∀ c ∈ doc.children, c.type = .element →
      (∀ n ∈ placed options [c, doc] c.children, Placeable options lib n) ∧
        ∀ e ∈ entities options lib [c, doc] c.children, EntityParses lib e) ↔
      (∀ n ∈ placedIn options doc, Placeable options lib n) ∧
        ∀ e ∈ entitiesIn options lib doc, EntityParses lib e := by
  rw [placedIn, entitiesIn, List.forall_mem_flatMap, List.forall_mem_flatMap, ← forall₂_and]
  apply forall₂_congr
  intro c _
  by_cases helement : c.type = .element
  · simp only [helement, if_true, forall_const]
  · simp [helement]

theorem doSerialize_document_iff (hsound : options.Sound) {doc : Node}
    (hdoc : ProperDocument options doc) (hplain : PlainDocument options doc) :
    (∃ x, doSerialize options lib [] [] doc = .ok x) ↔ ∀ c ∈ doc.children, c.type = .element →
      (∀ n ∈ placed options [c, doc] c.children, Placeable options lib n) ∧
        ∀ e ∈ entities options lib [c, doc] c.children, EntityParses lib e := by
  by_cases hnil : doc.children = []
  · refine iff_of_true ?_ fun c hc => ?_
    · obtain ⟨info, children⟩ := doc
      have hchildren : children = [] := hnil
      subst hchildren
      rw [doSerialize]
      by_cases hignore : ignoreNode options [] (.mk info []) = true
      · rw [if_pos hignore]
        exact ⟨_, rfl⟩
      · rw [if_neg hignore, if_pos (by rfl)]
        exact ⟨_, rfl⟩
    · rw [hnil] at hc
      exact absurd hc List.not_mem_nil
  · rw [doSerialize_document hdoc hnil, serializeChildren_iff hsound hdoc hplain fun c hc => hc]

/-- A document is extracted if and only if what gets a placeholder is an element with an
ASCII start tag, and each entity that is replaced is parsed. -/
theorem document_extracts_iff (hsound : options.Sound) {doc : Node}
    (hdoc : ProperDocument options doc) (hplain : PlainDocument options doc) :
    (∃ x, doSerialize options lib [] [] doc = .ok x) ↔
      (∀ n ∈ placedIn options doc, n.type = .element ∧
        isAscii (startTag options lib n) = true) ∧
        ∀ e ∈ entitiesIn options lib doc, (stringForEntity lib e).isSome = true :=
  (doSerialize_document_iff hsound hdoc hplain).trans (places_iff doc)

end Complete

theorem plain_listing : PlainDocument someTags listing := by
  have hnone : ∀ c ∈ listing.children, ∀ n ∈ nodes c, n.info.properties = [] := by decide
  intro c hc n hn _ p hp
  rw [hnone c hc n hn] at hp
  cases hp

theorem document_extracts_iff_listing :
    (∃ x, doSerialize someTags plainText [] [] listing = .ok x) ↔
      (∀ n ∈ placedIn someTags listing, n.type = .element ∧
        isAscii (startTag someTags plainText n) = true) ∧
        ∀ e ∈ entitiesIn someTags plainText listing, (stringForEntity plainText e).isSome = true :=
  document_extracts_iff (Or.inr sound_someTags) proper_listing plain_listing

end Xml2po
end I18nZh
