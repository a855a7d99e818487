import I18nZh.Otf.NameLoad

/-!
# Name documents

The documents `loadNameRecord` is meant for, as the events a reader delivers:
any number of `string` elements, each with the four numbers and one `value`.
Around the values anything may stand, white space, comments, descriptions and
enclosing elements, and the reader may cut every text where it likes.
-/

namespace I18nZh
namespace Otf
namespace Tookit

open Java

/-- An event that neither starts nor ends a `string` or a `value`. -/
def Quiet : XmlEvent → Prop
  | .startElement name _ => name ≠ jstr "string" ∧ name ≠ jstr "value"
  | .endElement name => name ≠ jstr "string" ∧ name ≠ jstr "value"
  | .characters _ => True
  | .other => True
  | .endDocument => False

instance : DecidablePred Quiet
  | .startElement _ _ => inferInstanceAs (Decidable (_ ∧ _))
  | .endElement _ => inferInstanceAs (Decidable (_ ∧ _))
  | .characters _ => inferInstanceAs (Decidable True)
  | .other => inferInstanceAs (Decidable True)
  | .endDocument => inferInstanceAs (Decidable False)

/-- The events spell a text, in pieces that may be empty. -/
inductive Spells : JString → XmlFile → Prop where
  | nil : Spells [] []
  | characters {text : JString} {es : XmlFile} (piece : JString) :
      Spells text es → Spells (piece ++ text) (.characters piece :: es)
  | other {text : JString} {es : XmlFile} : Spells text es → Spells text (.other :: es)

/-- A `string` element: its attributes, which give four numbers, and the text of
its value. -/
structure NameElement where
  attributes : List (JString × JString)
  value : JString
  platformID : JShort
  encodingID : JShort
  languageID : JShort
  nameID : JShort
  platform_parses : parseShort (attributes.lookup (jstr "platformID")) = .ok platformID
  encoding_parses : parseShort (attributes.lookup (jstr "encodingID")) = .ok encodingID
  language_parses : parseShort (attributes.lookup (jstr "languageID")) = .ok languageID
  name_parses : parseShort (attributes.lookup (jstr "nameID")) = .ok nameID

namespace NameElement

/-- The record of an element. -/
def record (e : NameElement) : NameRecord :=
  { platformID := e.platformID, encodingID := e.encodingID, languageID := e.languageID,
    nameID := e.nameID, length := BitVec.ofNat 16 (encodeValue e.platformID e.value).length,
    offset := 0, bytes := some (encodeValue e.platformID e.value), value := some e.value }

/-- Its identifiers are one of the three triples that are kept. -/
def Listed (e : NameElement) : Prop :=
  (e.platformID, e.encodingID, e.languageID) ∈
    [((1, 0, 0) : JShort × JShort × JShort), (3, 1, 1033), (3, 1, 2052)]

instance (e : NameElement) : Decidable e.Listed := inferInstanceAs (Decidable (_ ∈ _))

theorem kept_iff_listed (e : NameElement) :
    kept e.platformID e.encodingID e.languageID = true ↔ e.Listed := by
  unfold kept Listed
  simp only [Bool.or_eq_true, Bool.and_eq_true, beq_iff_eq, List.mem_cons, Prod.mk.injEq,
    List.not_mem_nil, or_false]
  constructor
  · rintro (⟨⟨h1, h2⟩, h3 | h3⟩ | ⟨⟨h1, h2⟩, h3⟩)
    · exact Or.inr (Or.inl ⟨h1, h2, h3⟩)
    · exact Or.inr (Or.inr ⟨h1, h2, h3⟩)
    · exact Or.inl ⟨h1, h2, h3⟩
  · rintro (⟨h1, h2, h3⟩ | ⟨h1, h2, h3⟩ | ⟨h1, h2, h3⟩)
    · exact Or.inr ⟨⟨h1, h2⟩, h3⟩
    · exact Or.inl ⟨⟨h1, h2⟩, Or.inl h3⟩
    · exact Or.inl ⟨⟨h1, h2⟩, Or.inr h3⟩

end NameElement

/-- The events of a `string` element.  The description is among the quiet events
before the value. -/
inductive ElementEvents (e : NameElement) : XmlFile → Prop where
  | intro {before text after : XmlFile} (attributes : List (JString × JString)) :
      (∀ event ∈ before, Quiet event) → Spells e.value text → (∀ event ∈ after, Quiet event) →
      ElementEvents e (.startElement (jstr "string") e.attributes ::
        (before ++ .startElement (jstr "value") attributes ::
          (text ++ .endElement (jstr "value") ::
            (after ++ [.endElement (jstr "string")]))))

/-- The events of a document with the given elements, in their order. -/
inductive DocumentEvents : List NameElement → XmlFile → Prop where
  | finish {gap : XmlFile} :
      (∀ event ∈ gap, Quiet event) → DocumentEvents [] (gap ++ [.endDocument])
  | element {e : NameElement} {es : List NameElement} {gap own rest : XmlFile} :
      (∀ event ∈ gap, Quiet event) → ElementEvents e own → DocumentEvents es rest →
      DocumentEvents (e :: es) (gap ++ (own ++ rest))

theorem loadEvents_start {name : JString} {attributes : List (JString × JString)}
    {st st' : LoadState} (h : startString name attributes st = .ok st') (rest : XmlFile) :
    loadEvents (.startElement name attributes :: rest) st =
      loadEvents rest (startValue name st') := by
  rw [loadEvents, h, ok_bind]

theorem loadEvents_end {name : JString} {st mid st' : LoadState}
    (h1 : endString name st = .ok mid) (h2 : endValue name mid = .ok st') (rest : XmlFile) :
    loadEvents (.endElement name :: rest) st = loadEvents rest st' := by
  rw [loadEvents, h1, ok_bind, h2, ok_bind]

theorem startString_other {name : JString} (h : name ≠ jstr "string")
    (attributes : List (JString × JString)) (st : LoadState) :
    startString name attributes st = .ok st := if_neg h

theorem endString_other {name : JString} (h : name ≠ jstr "string") (st : LoadState) :
    endString name st = .ok st := if_neg h

theorem endValue_other {name : JString} (h : name ≠ jstr "value") (st : LoadState) :
    endValue name st = .ok st := if_neg h

theorem startValue_value (st : LoadState) :
    startValue (jstr "value") st = { st with value := [] } := if_pos rfl

theorem startValue_other {name : JString} (h : name ≠ jstr "value") (st : LoadState) :
    startValue name st = st := if_neg h

/-- Quiet events leave the records alone. -/
theorem loadEvents_quiet : ∀ (gap : XmlFile), (∀ event ∈ gap, Quiet event) →
    ∀ (rest : XmlFile) (st : LoadState), ∃ text,
      loadEvents (gap ++ rest) st = loadEvents rest { st with value := text } := by
  intro gap
  induction gap with
  | nil =>
    intro _ rest st
    exact ⟨st.value, rfl⟩
  | cons event gap ih =>
    intro hq rest st
    have hev : Quiet event := hq event List.mem_cons_self
    have htail := ih fun e he => hq e (List.mem_cons_of_mem event he)
    cases event with
    | endDocument => exact absurd hev id
    | characters piece =>
      obtain ⟨text, h⟩ := htail rest { st with value := st.value ++ piece }
      exact ⟨text, h⟩
    | other => exact htail rest st
    | startElement name attributes =>
      obtain ⟨text, h⟩ := htail rest st
      refine ⟨text, ?_⟩
      rw [List.cons_append, loadEvents_start (startString_other hev.1 attributes st),
        startValue_other hev.2, h]
    | endElement name =>
      obtain ⟨text, h⟩ := htail rest st
      refine ⟨text, ?_⟩
      rw [List.cons_append, loadEvents_end (endString_other hev.1 st) (endValue_other hev.2 st), h]

/-- A text is collected whole, however it is cut. -/
theorem loadEvents_spells {text : JString} {es : XmlFile} (h : Spells text es) :
    ∀ (rest : XmlFile) (st : LoadState), loadEvents (es ++ rest) st =
      loadEvents rest { st with value := st.value ++ text } := by
  induction h with
  | nil =>
    intro rest st
    rw [List.nil_append, List.append_nil]
  | characters piece _ ih =>
    intro rest st
    rw [List.cons_append, loadEvents, ih, List.append_assoc]
  | other _ ih =>
    intro rest st
    rw [List.cons_append, loadEvents, ih]

theorem startString_element (e : NameElement) (st : LoadState) :
    startString (jstr "string") e.attributes st = .ok { st with heap := st.heap ++
      [{ newNameRecord with
          platformID := e.platformID, encodingID := e.encodingID, languageID := e.languageID,
          nameID := e.nameID }] } := by
  rw [startString, if_pos rfl, e.platform_parses, e.encoding_parses, e.language_parses,
    e.name_parses]
  rfl

theorem endValue_value (heap : Heap) (nr : NameRecord) (nrs : List Nat) (value : JString) :
    endValue (jstr "value") { heap := heap ++ [nr], nrs, value } =
      .ok { heap := heap ++ [{ nr with
              bytes := some (encodeValue nr.platformID value), value := some value,
              length := BitVec.ofNat 16 (encodeValue nr.platformID value).length }],
            nrs, value } := by
  rw [endValue, if_pos rfl]
  simp only [LoadState.nr, List.getLast?_append, List.getLast?_singleton, Option.some_or,
    LoadState.setNr, List.dropLast_concat]
  rfl

theorem endString_string (heap : Heap) (nr : NameRecord) (nrs : List Nat) (value : JString) :
    endString (jstr "string") { heap := heap ++ [nr], nrs, value } =
      .ok { heap := heap ++ [nr], value,
            nrs := if kept nr.platformID nr.encodingID nr.languageID then nrs ++ [heap.length]
              else nrs } := by
  rw [endString, if_pos rfl]
  simp only [LoadState.nr, List.getLast?_append, List.getLast?_singleton, Option.some_or,
    List.length_append, List.length_singleton, Nat.add_sub_cancel]
  split <;> rfl

/-- The references of the listed elements, the first object being number `i`. -/
def listedRefs : Nat → List NameElement → List Nat
  | _, [] => []
  | i, e :: es => if e.Listed then i :: listedRefs (i + 1) es else listedRefs (i + 1) es

/-- One element makes one record, and only its own value enters it. -/
theorem loadEvents_element {e : NameElement} {own : XmlFile} (h : ElementEvents e own)
    (rest : XmlFile) (heap : Heap) (nrs : List Nat) (value : JString) :
    ∃ text, loadEvents (own ++ rest) { heap, nrs, value } = loadEvents rest
      { heap := heap ++ [e.record], value := text,
        nrs := if e.Listed then nrs ++ [heap.length] else nrs } := by
  obtain ⟨attributes, hbefore, htext, hafter⟩ := h
  simp only [List.cons_append, List.append_assoc, List.nil_append]
  rw [loadEvents_start (startString_element e _), startValue_other (by decide)]
  obtain ⟨_, hb⟩ := loadEvents_quiet _ hbefore _ _
  rw [hb, loadEvents_start (startString_other (by decide) _ _), startValue_value,
    loadEvents_spells htext, List.nil_append,
    loadEvents_end (endString_other (by decide) _) (endValue_value _ _ _ _)]
  obtain ⟨text, ha⟩ := loadEvents_quiet _ hafter _ _
  rw [ha, loadEvents_end (endString_string _ _ _ _) (endValue_other (by decide) _)]
  refine ⟨text, ?_⟩
  simp only [NameElement.kept_iff_listed]
  rfl

/-- The whole document. -/
theorem loadEvents_document {es : List NameElement} {xmlfile : XmlFile}
    (h : DocumentEvents es xmlfile) : ∀ (heap : Heap) (nrs : List Nat) (value : JString),
    ∃ text, loadEvents xmlfile { heap, nrs, value } =
      .ok { heap := heap ++ es.map NameElement.record, nrs := nrs ++ listedRefs heap.length es,
            value := text } := by
  induction h with
  | @finish gap hq =>
    intro heap nrs value
    obtain ⟨text, hgap⟩ := loadEvents_quiet gap hq [.endDocument] { heap, nrs, value }
    refine ⟨text, ?_⟩
    rw [hgap, listedRefs, List.append_nil, List.map_nil, List.append_nil]
    rfl
  | @element e es gap own rest hq hown _ ih =>
    intro heap nrs value
    obtain ⟨before, hgap⟩ := loadEvents_quiet gap hq (own ++ rest) { heap, nrs, value }
    obtain ⟨text, helem⟩ := loadEvents_element hown rest heap nrs before
    obtain ⟨last, hrest⟩ := ih (heap ++ [e.record])
      (if e.Listed then nrs ++ [heap.length] else nrs) text
    refine ⟨last, ?_⟩
    rw [hgap, helem, hrest, List.append_assoc, List.length_append, List.length_singleton,
      listedRefs]
    by_cases hk : e.Listed
    · rw [if_pos hk, if_pos hk, List.append_assoc]
      rfl
    · rw [if_neg hk, if_neg hk]
      rfl

theorem listedRefs_records : ∀ (es : List NameElement) (heap : Heap),
    (listedRefs heap.length es).map (deref (heap ++ es.map NameElement.record)) =
      (es.filter fun e => e.Listed).map NameElement.record := by
  intro es
  induction es with
  | nil =>
    intro heap
    rfl
  | cons e es ih =>
    intro heap
    have hrest := ih (heap ++ [e.record])
    rw [List.length_append, List.length_singleton, List.append_assoc] at hrest
    have hfirst : deref (heap ++ (e :: es).map NameElement.record) heap.length = e.record := by
      rw [List.map_cons, List.append_cons, deref_append_left (by simp), deref_concat]
    rw [listedRefs]
    by_cases hk : e.Listed
    · rw [if_pos hk, List.map_cons, hfirst, List.filter_cons_of_pos (by simpa using hk),
        List.map_cons]
      exact congrArg (e.record :: ·) hrest
    · rw [if_neg hk, List.filter_cons_of_neg (by simpa using hk)]
      exact hrest

/-- The loader returns the records of the listed elements in document order,
whatever stands around their values and however the texts are delivered. -/
theorem loadNameRecord_records {es : List NameElement} {xmlfile : XmlFile}
    (h : DocumentEvents es xmlfile) :
    ∃ heap nrs, loadNameRecord xmlfile = .ok (heap, nrs) ∧
      nrs.map (deref heap) = (es.filter fun e => e.Listed).map NameElement.record := by
  obtain ⟨text, hrun⟩ := loadEvents_document h [] [] []
  refine ⟨es.map NameElement.record, listedRefs 0 es, ?_, listedRefs_records es []⟩
  rw [loadNameRecord, hrun]
  rfl

/-- A document with white space, a comment and a description, its text in three
pieces. -/
theorem loadNameRecord_records_pieces :
    ∃ heap nrs, loadNameRecord
        [.startElement (jstr "name") [], .characters (jstr "\n  "),
          .startElement (jstr "string") [(jstr "nameID", jstr "4"), (jstr "platformID", jstr "3"),
            (jstr "encodingID", jstr "1"), (jstr "languageID", jstr "1033")],
          .startElement (jstr "description") [], .characters (jstr "Full font name"),
          .endElement (jstr "description"), .other, .characters (jstr "\n"),
          .startElement (jstr "value") [], .characters (jstr "A"), .characters [],
          .characters (jstr "B"), .endElement (jstr "value"), .characters (jstr "\n"),
          .endElement (jstr "string"), .endElement (jstr "name"), .endDocument] =
        .ok (heap, nrs) ∧
      nrs.map (deref heap) =
        [⟨3, 1, 1033, 4, 4, 0, some [0x00, 0x41, 0x00, 0x42], some (jstr "AB")⟩] := by
  have hevents := DocumentEvents.element
    (e := ⟨[(jstr "nameID", jstr "4"), (jstr "platformID", jstr "3"),
      (jstr "encodingID", jstr "1"), (jstr "languageID", jstr "1033")], jstr "AB", 3, 1, 1033, 4,
      by decide, by decide, by decide, by decide⟩)
    (by decide : ∀ event ∈ [.startElement (jstr "name") [], .characters (jstr "\n  ")],
      Quiet event)
    (.intro [] (by decide : ∀ event ∈ [.startElement (jstr "description") [],
        .characters (jstr "Full font name"), .endElement (jstr "description"), .other,
        .characters (jstr "\n")], Quiet event)
      (.characters (jstr "A") (.characters [] (.characters (jstr "B") .nil)))
      (by decide : ∀ event ∈ [.characters (jstr "\n")], Quiet event))
    (.finish (by decide : ∀ event ∈ [.endElement (jstr "name")], Quiet event))
  exact loadNameRecord_records hevents

end Tookit
end Otf
end I18nZh
