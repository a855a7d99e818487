import I18nZh.Otf.NamePool

/-!
# What the loader keeps true

Each event of the document does one thing to the objects and to the list, and
what every event keeps true holds after the whole document.
-/

namespace I18nZh
namespace Otf
namespace Tookit

open Java

/-! ## Single events -/

section Event

variable {name : JString} {attributes : List (JString × JString)} {st st' : LoadState}

/-- A start element makes a new object, or none. -/
theorem startString_cases (h : startString name attributes st = .ok st') :
    st' = st ∨ ∃ platformID encodingID languageID nameID,
      st' = { st with heap := st.heap ++
        [{ newNameRecord with platformID, encodingID, languageID, nameID }] } := by
  unfold startString at h
  by_cases hs : name = jstr "string"
  · rw [if_pos hs] at h
    obtain ⟨platformID, _, h⟩ := bind_eq_ok h
    obtain ⟨encodingID, _, h⟩ := bind_eq_ok h
    obtain ⟨languageID, _, h⟩ := bind_eq_ok h
    obtain ⟨nameID, _, h⟩ := bind_eq_ok h
    cases h
    exact Or.inr ⟨platformID, encodingID, languageID, nameID, rfl⟩
  · rw [if_neg hs] at h
    cases h
    exact Or.inl rfl

theorem startValue_cases (name : JString) (st : LoadState) :
    startValue name st = st ∨ startValue name st = { st with value := [] } := by
  unfold startValue
  by_cases hv : name = jstr "value"
  · exact Or.inr (if_pos hv)
  · exact Or.inl (if_neg hv)

/-- An end of `string` adds the newest object to the list, if it is to be kept. -/
theorem endString_cases (h : endString name st = .ok st') :
    st' = st ∨ ∃ heap nr, st.heap = heap ++ [nr] ∧
      kept nr.platformID nr.encodingID nr.languageID = true ∧
      st' = { st with nrs := st.nrs ++ [heap.length] } := by
  unfold endString at h
  by_cases hs : name = jstr "string"
  · rw [if_pos hs] at h
    cases hnr : st.nr with
    | none =>
      simp only [hnr] at h
      cases h
    | some nr =>
      obtain ⟨heap, hheap⟩ := List.getLast?_eq_some_iff.mp hnr
      simp only [hnr] at h
      by_cases hk : kept nr.platformID nr.encodingID nr.languageID = true
      · rw [if_pos hk] at h
        cases h
        refine Or.inr ⟨heap, nr, hheap, hk, ?_⟩
        rw [hheap, List.length_append, List.length_singleton, Nat.add_sub_cancel]
      · rw [if_neg hk] at h
        cases h
        exact Or.inl rfl
  · rw [if_neg hs] at h
    cases h
    exact Or.inl rfl

/-- An end of `value` sets the text of the newest object. -/
theorem endValue_cases (h : endValue name st = .ok st') :
    st' = st ∨ ∃ heap nr, st.heap = heap ++ [nr] ∧
      st' = { st with heap := heap ++ [{ nr with
        bytes := some (encodeValue nr.platformID st.value), value := some st.value,
        length := BitVec.ofNat 16 (encodeValue nr.platformID st.value).length }] } := by
  unfold endValue at h
  by_cases hv : name = jstr "value"
  · rw [if_pos hv] at h
    cases hnr : st.nr with
    | none =>
      simp only [hnr] at h
      cases h
    | some nr =>
      obtain ⟨heap, hheap⟩ := List.getLast?_eq_some_iff.mp hnr
      simp only [hnr] at h
      cases h
      refine Or.inr ⟨heap, nr, hheap, ?_⟩
      rw [LoadState.setNr, hheap, List.dropLast_concat]
  · rw [if_neg hv] at h
    cases h
    exact Or.inl rfl

end Event

/-- What every event keeps true, the whole document does. -/
theorem loadEvents_invariant {P : LoadState → Prop}
    (hvalue : ∀ st text, P st → P { st with value := text })
    (hstart : ∀ name attributes st st', P st → startString name attributes st = .ok st' → P st')
    (hstring : ∀ name st st', P st → endString name st = .ok st' → P st')
    (hend : ∀ name st st', P st → endValue name st = .ok st' → P st') :
    ∀ (xmlfile : XmlFile) (st st' : LoadState), P st → loadEvents xmlfile st = .ok st' →
      P st' := by
  intro xmlfile
  induction xmlfile with
  | nil =>
    intro st st' _ h
    cases h
  | cons event rest ih =>
    intro st st' hst h
    cases event with
    | endDocument =>
      cases h
      exact hst
    | characters text => exact ih _ st' (hvalue st _ hst) h
    | other => exact ih st st' hst h
    | startElement name attributes =>
      obtain ⟨mid, hmid, hrest⟩ := bind_eq_ok h
      have hp : P mid := hstart name attributes st mid hst hmid
      refine ih (startValue name mid) st' ?_ hrest
      rcases startValue_cases name mid with heq | heq
      · rwa [heq]
      · rw [heq]
        exact hvalue mid [] hp
    | endElement name =>
      obtain ⟨mid, hmid, hrest⟩ := bind_eq_ok h
      obtain ⟨last, hlast, hrest⟩ := bind_eq_ok hrest
      exact ih last st' (hend name mid last (hstring name st mid hst hmid) hlast) hrest

/-! ## The records -/

/-- The string of an object is its encoded text, and both are there or none. -/
def Encoded (nr : NameRecord) : Prop :=
  (nr.value = none ∧ nr.bytes = none) ∨
    ∃ value, nr.value = some value ∧ nr.bytes = some (encodeValue nr.platformID value) ∧
      nr.length = BitVec.ofNat 16 (encodeValue nr.platformID value).length

/-- Every object is encoded, and the list holds objects that are to be kept. -/
structure Sound (st : LoadState) : Prop where
  encoded : ∀ nr ∈ st.heap, Encoded nr
  kept : ∀ r ∈ st.nrs, r < st.heap.length ∧
    kept (deref st.heap r).platformID (deref st.heap r).encodingID
      (deref st.heap r).languageID = true

theorem deref_append_left {heap : Heap} {r : Nat} (h : r < heap.length) (more : Heap) :
    deref (heap ++ more) r = deref heap r := List.getD_append _ _ _ _ h

theorem deref_concat (heap : Heap) (nr : NameRecord) : deref (heap ++ [nr]) heap.length = nr := by
  rw [deref, List.getD_append_right _ _ _ _ (Nat.le_refl _), Nat.sub_self]
  rfl

theorem Sound.startString {name : JString} {attributes : List (JString × JString)}
    {st st' : LoadState} (hst : Sound st) (h : startString name attributes st = .ok st') :
    Sound st' := by
  rcases startString_cases h with rfl | ⟨platformID, encodingID, languageID, nameID, rfl⟩
  · exact hst
  · constructor
    · intro nr hnr
      rcases List.mem_append.mp hnr with hnr | hnr
      · exact hst.encoded nr hnr
      · rw [List.mem_singleton.mp hnr]
        exact Or.inl ⟨rfl, rfl⟩
    · intro r hr
      obtain ⟨hlt, hk⟩ := hst.kept r hr
      constructor
      · rw [List.length_append]
        omega
      · rw [deref_append_left hlt]
        exact hk

theorem Sound.endString {name : JString} {st st' : LoadState} (hst : Sound st)
    (h : endString name st = .ok st') : Sound st' := by
  rcases endString_cases h with rfl | ⟨heap, nr, hheap, hk, rfl⟩
  · exact hst
  · refine ⟨hst.encoded, fun r hr => ?_⟩
    rcases List.mem_append.mp hr with hr | hr
    · exact hst.kept r hr
    · rw [List.mem_singleton.mp hr]
      constructor
      · show heap.length < st.heap.length
        rw [hheap, List.length_append, List.length_singleton]
        omega
      · show Tookit.kept (deref st.heap heap.length).platformID _ _ = true
        rw [hheap, deref_concat]
        exact hk

theorem Sound.endValue {name : JString} {st st' : LoadState} (hst : Sound st)
    (h : endValue name st = .ok st') : Sound st' := by
  rcases endValue_cases h with rfl | ⟨heap, nr, hheap, rfl⟩
  · exact hst
  constructor
  · intro q hq
    rcases List.mem_append.mp hq with hq | hq
    · refine hst.encoded q ?_
      rw [hheap]
      exact List.mem_append_left _ hq
    · rw [List.mem_singleton.mp hq]
      exact Or.inr ⟨st.value, rfl, rfl, rfl⟩
  · intro r hr
    obtain ⟨hlt, hk⟩ := hst.kept r hr
    rw [hheap, List.length_append, List.length_singleton] at hlt
    constructor
    · rw [List.length_append, List.length_singleton]
      exact hlt
    · rw [hheap] at hk
      -- The identifiers of the newest object stay as they are.
      by_cases hlast : r = heap.length
      · rw [hlast, deref_concat] at hk
        rw [hlast, deref_concat]
        exact hk
      · rw [deref_append_left (by omega)] at hk
        rw [deref_append_left (by omega)]
        exact hk

theorem loadNameRecord_sound {xmlfile : XmlFile} {heap : Heap} {nrs : List Nat}
    (h : loadNameRecord xmlfile = .ok (heap, nrs)) : Sound { heap, nrs, value := [] } := by
  unfold loadNameRecord at h
  obtain ⟨st, hst, hrest⟩ := bind_eq_ok h
  cases hrest
  have hsound : Sound st := by
    refine loadEvents_invariant (P := Sound) (fun st text hst => ⟨hst.encoded, hst.kept⟩)
      (fun _ _ _ _ hst => hst.startString) (fun _ _ _ hst => hst.endString)
      (fun _ _ _ hst => hst.endValue) xmlfile _ st ?_ hst
    constructor
    · intro nr hnr
      cases hnr
    · intro r hr
      cases hr
  exact ⟨hsound.encoded, hsound.kept⟩

/-! ## Lengths -/

/-- The length field goes with the string. -/
def LengthSet (nr : NameRecord) : Prop :=
  ∀ s, nr.bytes = some s → nr.length = BitVec.ofNat 16 s.length

theorem Encoded.lengthSet {nr : NameRecord} (h : Encoded nr) : LengthSet nr := by
  intro s hs
  rcases h with ⟨_, hb⟩ | ⟨value, _, hb, hl⟩
  · rw [hb] at hs
    cases hs
  · rw [hb, Option.some.injEq] at hs
    rw [hl, hs]

theorem measured_of_lengthSet {heap : Heap} (h : ∀ nr ∈ heap, LengthSet nr) : Measured heap := by
  intro r s hs
  have hlt := lt_length_of_bytes hs
  unfold bytesOf at hs
  refine h (deref heap r) ?_ s hs
  rw [deref, List.getD_eq_getElem _ _ hlt]
  exact List.getElem_mem hlt

theorem loadNameRecord_measured {xmlfile : XmlFile} {heap : Heap} {nrs : List Nat}
    (h : loadNameRecord xmlfile = .ok (heap, nrs)) : Measured heap :=
  measured_of_lengthSet fun nr hnr => ((loadNameRecord_sound h).encoded nr hnr).lengthSet

end Tookit
end Otf
end I18nZh
