import I18nZh.Otf.RoundTrip

/-!
# The texts of the names

A table built from a document and read back: the texts come out as they went in,
but for the Macintosh names, whose charset has 256 characters only.
-/

namespace I18nZh
namespace Otf
namespace NameText

open Java Storage Tookit NameFormat DumpTable RoundTrip

/-- The document of the records in the order of the table, `text` giving the
text of each. -/
def textDocument (heap : Heap) (nrs : List Nat) (text : Nat → JString) : List XmlWrite :=
  [.startDocument, .startElement (jstr "name")] ++
    (recordOrder heap nrs).flatMap (fun r =>
      stringElement (deref heap r).platformID (deref heap r).encodingID
        (deref heap r).languageID (deref heap r).nameID (text r)) ++
    [.endElement, .endDocument]

/-- What is read of a record once it is in a table. -/
def textOf (heap : Heap) (r : Nat) : JString :=
  decodeString (deref heap r).platformID (nameOf heap r).string

/-- A text that is there, well formed, and at most 32767 bytes when encoded. -/
def HasText (nr : NameRecord) : Prop :=
  ∃ value, nr.value = some value ∧ WellFormedUtf16 value ∧
    (encodeValue nr.platformID value).length ≤ 32767

/-- The charset of the record has all characters of its text. -/
def Representable (nr : NameRecord) : Prop :=
  nr.platformID = 1 → ∀ value, nr.value = some value → ∀ d ∈ value, d.toNat < 256

theorem decodeString_encodeValue_iff {nr : NameRecord} {value : JString}
    (hp : nr.platformID = 1 ∨ nr.platformID = 3) (hv : nr.value = some value)
    (hwf : WellFormedUtf16 value) :
    decodeString nr.platformID (encodeValue nr.platformID value) = value ↔ Representable nr := by
  unfold Representable
  rcases hp with h | h
  · have hiff := newStringLatin1_getBytes_iff (s := value)
    rw [h, decodeString, encodeValue, if_pos rfl, if_neg (by decide), hiff]
    constructor
    · intro hall _ v hv'
      rw [hv, Option.some.injEq] at hv'
      rwa [← hv']
    · intro hall
      exact hall rfl value hv
  · rw [h, decodeString, encodeValue, if_neg (by decide), if_pos rfl,
      newStringUtf16_getBytes hwf]
    exact ⟨fun _ h1 => absurd h1 (by decide), fun _ => rfl⟩

theorem platform_of_kept {platformID encodingID languageID : JShort}
    (h : kept platformID encodingID languageID = true) : platformID = 1 ∨ platformID = 3 := by
  unfold kept at h
  simp only [Bool.or_eq_true, Bool.and_eq_true, beq_iff_eq] at h
  rcases h with h | h
  · exact Or.inr h.1.1
  · exact Or.inl h.1.1

/-! ## Building and reading back -/

section Built

variable {heap : Heap} {nrs : List Nat} (hs : Sound { heap, nrs, value := [] })
  (htext : ∀ r ∈ nrs, HasText (deref heap r))

include hs htext

/-- The string of a record is its encoded text. -/
theorem bytesOf_text {r : Nat} (hr : r ∈ nrs) :
    ∃ value, (deref heap r).value = some value ∧ WellFormedUtf16 value ∧
      bytesOf heap r = some (encodeValue (deref heap r).platformID value) ∧
      (encodeValue (deref heap r).platformID value).length ≤ 32767 := by
  obtain ⟨value, hv, hwf, hlen⟩ := htext r hr
  have hlt := (hs.kept r hr).1
  have henc := hs.encoded (deref heap r) (by
    show heap.getD r newNameRecord ∈ heap
    rw [List.getD_eq_getElem _ _ hlt]
    exact List.getElem_mem hlt)
  rcases henc with ⟨hnone, _⟩ | ⟨v, hv', hb, _⟩
  · rw [hv] at hnone
    cases hnone
  · rw [hv, Option.some.injEq] at hv'
    rw [← hv'] at hb
    exact ⟨value, hv, hwf, hb, hlen⟩

/-- The text of a record is read as it was exactly if its charset has all the
characters. -/
theorem textOf_eq_iff {r : Nat} (hr : r ∈ nrs) :
    (deref heap r).value = some (textOf heap r) ↔ Representable (deref heap r) := by
  obtain ⟨value, hv, hwf, hb, _⟩ := bytesOf_text hs htext hr
  have hp := platform_of_kept (hs.kept r hr).2
  rw [← decodeString_encodeValue_iff hp hv hwf, hv, Option.some.injEq, textOf,
    string_of_bytes hb]
  exact eq_comm

omit htext in
/-- All names of the table are written. -/
theorem document_names :
    document ((recordOrder heap nrs).map (nameOf heap)) =
      textDocument heap nrs (textOf heap) := by
  have hall : ((recordOrder heap nrs).map (nameOf heap)).filter keptEntry =
      (recordOrder heap nrs).map (nameOf heap) := by
    refine List.filter_eq_self.mpr fun e he => ?_
    obtain ⟨r, hr, rfl⟩ := List.mem_map.mp he
    have hk := (hs.kept r ((recordOrder_perm heap nrs).mem_iff.mp hr)).2
    rw [kept_eq_dumped] at hk
    exact hk
  rw [document, hall, List.flatMap_map]
  rfl

/-- A table below 32768 bytes is built, and its names are read in key order. -/
theorem packNameTable_read
    (hsize : 6 + 12 * nrs.length + (storageArea heap nrs).length < 32768) :
    ∃ table, packNameTable heap nrs = .ok table ∧ table.length < 32768 ∧
      ∀ rest, (table ++ rest).length = 65536 →
        dumpName (table ++ rest) = .ok (textDocument heap nrs (textOf heap)) := by
  have hn : nrs.length ≤ 2730 := by omega
  have hm : Measured heap := measured_of_lengthSet fun nr hnr => (hs.encoded nr hnr).lengthSet
  have hstr : ∀ r ∈ nrs, ∃ s, bytesOf heap r = some s ∧ s.length ≤ 32767 := by
    intro r hr
    obtain ⟨value, _, _, hb, hlen⟩ := bytesOf_text hs htext hr
    exact ⟨_, hb, hlen⟩
  have hshort : ∀ r ∈ nrs, (nameOf heap r).string.length < 65536 := by
    intro r hr
    obtain ⟨s, hb, hlen⟩ := hstr r hr
    rw [string_of_bytes hb]
    omega
  rcases packNameTable_cases hm nrs with ⟨_, hno⟩ | ⟨pool, heap', hpacks, hsame, hall, _, hok⟩
  · exact absurd ⟨_, packs_storageArea hstr hn (by omega)⟩ hno
  have hpool := storageArea_of_packs hstr hpacks
  have hc : Consistent
      (layout ((recordOrder heap nrs).map fun r => (deref heap' r).raw) pool) :=
    consistent_packed hn hall
  have hlen : (layout ((recordOrder heap nrs).map fun r => (deref heap' r).raw) pool).length =
      6 + 12 * nrs.length + (storageArea heap nrs).length := by
    rw [layout_length, List.length_map, recordOrder_length, hpool]
  refine ⟨_, hok, by omega, fun rest hrest => ?_⟩
  rw [dumpName_of_lt hc (by omega) hrest, entries_packed hm hsame hn hall hshort,
    document_names hs]

end Built

/-- The table is built, and every text comes back from it as it stands in the
document, but for Macintosh names with a character that their charset lacks. -/
theorem loadNameTable_texts {xmlfile : XmlFile} {heap : Heap} {nrs : List Nat}
    (hload : loadNameRecord xmlfile = .ok (heap, nrs))
    (htext : ∀ r ∈ nrs, HasText (deref heap r))
    (hsize : 6 + 12 * nrs.length + (storageArea heap nrs).length < 32768) :
    ∃ (table : Bytes) (text : Nat → JString), loadNameTable xmlfile = .ok table ∧
      (∀ rest, (table ++ rest).length = 65536 →
        dumpName (table ++ rest) = .ok (textDocument heap nrs text)) ∧
      ∀ r ∈ nrs, (deref heap r).value = some (text r) ↔
        ((deref heap r).platformID = 1 →
          ∀ value, (deref heap r).value = some value → ∀ d ∈ value, d.toNat < 256) := by
  have hs := loadNameRecord_sound hload
  obtain ⟨table, hok, _, hread⟩ := packNameTable_read hs htext hsize
  refine ⟨table, textOf heap, ?_, hread, fun r hr => textOf_eq_iff hs htext hr⟩
  rw [loadNameTable_of_load hload, hok]

theorem loadNameTable_texts_oneName :
    ∃ (table : Bytes) (text : Nat → JString), loadNameTable (oneName (jstr "A")) = .ok table ∧
      (∀ rest, (table ++ rest).length = 65536 →
        dumpName (table ++ rest) = .ok (textDocument
          [⟨1, 0, 0, 1, 1, 0, some [0x41], some (jstr "A")⟩] [0] text)) ∧
      text 0 = jstr "A" := by
  have hload := loadNameRecord_oneName (jstr "A")
  obtain ⟨table, text, hok, hread, hiff⟩ := loadNameTable_texts hload
    (fun r hr => by
      rw [List.mem_singleton.mp hr]
      exact ⟨jstr "A", rfl, .single (by decide) .nil, by decide⟩) (by decide)
  have htext := (hiff 0 (List.mem_singleton_self 0)).mpr fun _ value hv d hd => by
    cases hv
    rw [List.mem_singleton.mp hd]
    decide
  exact ⟨table, text, hok, hread, (Option.some.inj htext).symm⟩

theorem textDocument_inj_one {heap : Heap} {text text' : Nat → JString}
    (h : textDocument heap [0] text = textDocument heap [0] text') : text 0 = text' 0 := by
  have horder : recordOrder heap [0] = [0] := rfl
  rw [textDocument, textDocument, horder] at h
  simp only [stringElement, List.flatMap_singleton, List.cons_append, List.nil_append,
    List.cons.injEq, XmlWrite.characters.injEq] at h
  exact h.2.2.2.2.2.2.2.2.2.2.2.1

/-- A Chinese Macintosh name is read back as a question mark. -/
theorem loadNameTable_loses_text :
    ∃ heap, loadNameRecord (oneName [0x4E2D]) = .ok (heap, [0]) ∧
      (∀ r ∈ [0], HasText (deref heap r)) ∧
      ¬ ∃ table, loadNameTable (oneName [0x4E2D]) = .ok table ∧
        ∀ rest, (table ++ rest).length = 65536 →
          dumpName (table ++ rest) = .ok (textDocument heap [0] fun _ => [0x4E2D]) := by
  have hload := loadNameRecord_oneName [0x4E2D]
  have htext : ∀ r ∈ [0], HasText (deref [⟨1, 0, 0, 1, 1, 0, some [0x3F], some [0x4E2D]⟩] r) := by
    intro r hr
    rw [List.mem_singleton.mp hr]
    exact ⟨[0x4E2D], rfl, .single (by decide) .nil, by decide⟩
  refine ⟨_, hload, htext, ?_⟩
  rintro ⟨table, hok, hread⟩
  obtain ⟨table', hok', hlt, hread'⟩ := packNameTable_read (loadNameRecord_sound hload) htext
    (by decide)
  rw [loadNameTable_of_load hload, hok', Except.ok.injEq] at hok
  subst hok
  have hlen : (table' ++ List.replicate (65536 - table'.length) 0).length = 65536 := by
    rw [List.length_append, List.length_replicate]
    omega
  have heq := hread' _ hlen
  rw [hread _ hlen, Except.ok.injEq] at heq
  exact absurd (textDocument_inj_one heq) (by decide)

end NameText
end Otf
end I18nZh
