import I18nZh.Otf.NamePack

/-!
# What the built name table says

The records of the table are the records of the list, and every one of them
designates its string as long as that string is shorter than 2^16 bytes.
-/

namespace I18nZh
namespace Otf
namespace Tookit

open Java Storage Occurrence NameFormat

/-! ## The table of a packed list -/

section Table

variable {heap heap' : Heap} {nrs : List Nat} {pool : Bytes}

/-- A placed record of a short string designates all of it. -/
theorem designates_placed {r : Nat} (hm : Measured heap) (hsame : sameNames heap heap')
    (hp : Placed pool (deref heap' r)) (hshort : (nameOf heap r).string.length < 65536) :
    slice pool (deref heap' r).offset.toNat (deref heap' r).length.toNat =
      (nameOf heap r).string := by
  obtain ⟨s, hs, hle, hocc⟩ := hp
  have hs' : bytesOf heap' r = some s := hs
  rw [hsame.bytes] at hs'
  have hstring : (nameOf heap r).string = s := by
    show (bytesOf heap r).getD [] = s
    rw [hs']
    rfl
  have hlen : (deref heap' r).length.toNat = s.length := by
    rw [hsame.length, hm r s hs', BitVec.toNat_ofNat, Nat.mod_eq_of_lt]
    rwa [hstring] at hshort
  have hall : s.take (deref heap' r).length.toNat = s := by rw [hlen, List.take_length]
  rw [hall] at hocc
  rw [hstring, hlen]
  exact hocc.2

theorem entries_packed (hm : Measured heap) (hsame : sameNames heap heap')
    (hn : nrs.length ≤ 2730) (hall : ∀ r ∈ nrs, Placed pool (deref heap' r))
    (hshort : ∀ r ∈ nrs, (nameOf heap r).string.length < 65536) :
    entries (layout ((recordOrder heap nrs).map fun r => (deref heap' r).raw) pool) =
      (recordOrder heap nrs).map (nameOf heap) := by
  have hlen : ((recordOrder heap nrs).map fun r => (deref heap' r).raw).length = nrs.length := by
    rw [List.length_map, recordOrder_length]
  rw [entries_layout (by omega), List.map_map]
  refine List.map_congr_left fun r hr => ?_
  have hmem : r ∈ nrs := (recordOrder_perm heap nrs).mem_iff.mp hr
  have hd := hsame.deref r
  show NameEntry.mk _ _ _ _ _ = _
  simp only [NameRecord.raw]
  rw [designates_placed hm hsame (hall r hmem) (hshort r hmem),
    ← congrArg NameRecord.platformID hd, ← congrArg NameRecord.encodingID hd,
    ← congrArg NameRecord.languageID hd, ← congrArg NameRecord.nameID hd]
  rfl

theorem consistent_packed (hn : nrs.length ≤ 2730)
    (hall : ∀ r ∈ nrs, Placed pool (deref heap' r)) :
    Consistent (layout ((recordOrder heap nrs).map fun r => (deref heap' r).raw) pool) := by
  have hlen : ((recordOrder heap nrs).map fun r => (deref heap' r).raw).length = nrs.length := by
    rw [List.length_map, recordOrder_length]
  refine consistent_layout (by omega) ?_
  intro raw hraw
  obtain ⟨r, hr, rfl⟩ := List.mem_map.mp hraw
  obtain ⟨s, _, hle, hocc⟩ := hall r ((recordOrder_perm heap nrs).mem_iff.mp hr)
  have h := hocc.1
  rw [List.length_take, Nat.min_eq_left hle] at h
  exact h

/-- A table that packs and whose strings are short represents the list. -/
theorem represents_packed (hm : Measured heap) (hsame : sameNames heap heap')
    (hn : nrs.length ≤ 2730) (hall : ∀ r ∈ nrs, Placed pool (deref heap' r))
    (hshort : ∀ r ∈ nrs, (nameOf heap r).string.length < 65536) :
    Represents (layout ((recordOrder heap nrs).map fun r => (deref heap' r).raw) pool)
      (nrs.map (nameOf heap)) := by
  constructor
  · exact consistent_packed hn hall
  · rw [entries_packed hm hsame hn hall hshort]
    exact (recordOrder_perm heap nrs).map _

end Table

/-! ## The storage area -/

/-- The strings that are stored, in the order of the placing. -/
def storageArea (heap : Heap) (nrs : List Nat) : Bytes :=
  (added [] ((placeOrder heap nrs).map fun r => (nameOf heap r).string)).flatten

section Area

variable {heap : Heap} {nrs : List Nat}

theorem string_of_bytes {r : Nat} {s : Bytes} (h : bytesOf heap r = some s) :
    (nameOf heap r).string = s := by
  show (bytesOf heap r).getD [] = s
  rw [h]
  rfl

theorem storageArea_length_le (heap : Heap) (nrs : List Nat) :
    (storageArea heap nrs).length ≤
      (nrs.map fun r => (nameOf heap r).string.length).sum := by
  have hlens : ((placeOrder heap nrs).map fun r => (nameOf heap r).string.length).sum =
      (nrs.map fun r => (nameOf heap r).string.length).sum :=
    ((arraysSort_perm _ nrs).map _).sum_eq
  have hle := added_length_le [] ((placeOrder heap nrs).map fun r => (nameOf heap r).string)
  rw [List.map_map] at hle
  rw [← hlens]
  exact hle

variable (hstr : ∀ r ∈ nrs, ∃ s, bytesOf heap r = some s ∧ s.length ≤ 32767)
include hstr

theorem bytesOf_placeOrder :
    (placeOrder heap nrs).map (bytesOf heap) =
      ((placeOrder heap nrs).map fun r => (nameOf heap r).string).map some := by
  rw [List.map_map]
  refine List.map_congr_left fun r hr => ?_
  obtain ⟨s, hs, _⟩ := hstr r (mem_arraysSort.mp hr)
  show bytesOf heap r = some (nameOf heap r).string
  rw [string_of_bytes hs, hs]

theorem stored_placeOrder :
    ∀ s ∈ (placeOrder heap nrs).map fun r => (nameOf heap r).string, stored s = some s := by
  intro s hs
  obtain ⟨r, hr, rfl⟩ := List.mem_map.mp hs
  obtain ⟨s, hs, hle⟩ := hstr r (mem_arraysSort.mp hr)
  rw [string_of_bytes hs]
  exact stored_of_lt (by omega)

theorem storageArea_of_packs {pool : Bytes} (h : Packs heap nrs pool) :
    pool = storageArea heap nrs := by
  obtain ⟨_, strings, hstrings, hpack⟩ := h
  rw [bytesOf_placeOrder hstr] at hstrings
  have heq := List.map_injective_iff.mpr (Option.some_injective Bytes) hstrings
  rw [← heq] at hpack
  exact packStrings_eq_added (stored_placeOrder hstr) hpack

/-- Strings of at most 32767 bytes pack when what is stored of them fits. -/
theorem packs_storageArea (hn : nrs.length ≤ 2730)
    (hfit : 6 + 12 * nrs.length + (storageArea heap nrs).length ≤ 65536) :
    Packs heap nrs (storageArea heap nrs) := by
  have hroom : ([] : Bytes).length +
      (added [] ((placeOrder heap nrs).map fun r => (nameOf heap r).string)).flatten.length ≤
        65536 - (6 + 12 * nrs.length) := by
    show 0 + (storageArea heap nrs).length ≤ _
    omega
  obtain ⟨pool, hpool⟩ := packStrings_isSome (stored_placeOrder hstr) hroom
  have hpacks : Packs heap nrs pool := ⟨hn, _, bytesOf_placeOrder hstr, hpool⟩
  rwa [storageArea_of_packs hstr hpacks] at hpacks

end Area

/-- What is packed within the limits of the format comes out as it went in. -/
theorem packNameTable_represents {heap : Heap} {nrs : List Nat} (hm : Measured heap)
    (hn : nrs.length ≤ 2730)
    (hstr : ∀ r ∈ nrs, ∃ s, bytesOf heap r = some s ∧ s.length ≤ 32767)
    (hsum : 6 + 12 * nrs.length + (nrs.map fun r => (nameOf heap r).string.length).sum ≤ 65536) :
    ∃ table, packNameTable heap nrs = .ok table ∧
      nameHeaderOf table = headerFor nrs.length ∧
      Represents table (nrs.map (nameOf heap)) ∧
      (entries table).Pairwise fun a b => a.key ≤ b.key := by
  have hshort : ∀ r ∈ nrs, (nameOf heap r).string.length < 65536 := by
    intro r hr
    obtain ⟨s, hs, hle⟩ := hstr r hr
    show ((bytesOf heap r).getD []).length < 65536
    rw [hs, Option.getD_some]
    omega
  rcases packNameTable_cases hm nrs with ⟨_, hno⟩ | ⟨pool, heap', _, hsame, hall, _, hok⟩
  · have hle := storageArea_length_le heap nrs
    exact absurd ⟨_, packs_storageArea hstr hn (by omega)⟩ hno
  · refine ⟨_, hok, ?_, represents_packed hm hsame hn hall hshort, ?_⟩
    · rw [nameHeaderOf_layout, List.length_map, recordOrder_length]
    · rw [entries_packed hm hsame hn hall hshort, List.pairwise_map]
      exact recordOrder_pairwise heap nrs

/-- The table built is the list, with its records in key order, when the list is
within the limits of the format. -/
theorem loadNameTable_represents {heap : Heap} {nrs : List Nat} (hm : Measured heap)
    (hn : nrs.length ≤ 2730)
    (hstr : ∀ r ∈ nrs, ∃ s, bytesOf heap r = some s ∧ s.length ≤ 32767)
    (hsum : 6 + 12 * nrs.length + (nrs.map fun r => (nameOf heap r).string.length).sum ≤ 65536) :
    ∃ table, packNameTable heap nrs = .ok table ∧
      (∀ xmlfile, loadNameRecord xmlfile = .ok (heap, nrs) → loadNameTable xmlfile = .ok table) ∧
      nameHeaderOf table = ⟨0, BitVec.ofNat 16 nrs.length,
        BitVec.ofNat 16 (6 + 12 * nrs.length)⟩ ∧
      Represents table (nrs.map (nameOf heap)) ∧
      (entries table).Pairwise fun a b => a.key ≤ b.key := by
  obtain ⟨table, hok, hheader, hrep, hsorted⟩ := packNameTable_represents hm hn hstr hsum
  refine ⟨table, hok, ?_, hheader, hrep, hsorted⟩
  intro xmlfile hload
  rw [loadNameTable_of_load hload, hok]

theorem loadNameTable_represents_two :
    ∃ table, packNameTable
        [⟨3, 1, 1033, 4, 3, 0, some [0x41, 0x42, 0x43], none⟩,
          ⟨1, 0, 0, 4, 2, 0, some [0x42, 0x43], none⟩] [0, 1] = .ok table ∧
      Represents table [⟨3, 1, 1033, 4, [0x41, 0x42, 0x43]⟩, ⟨1, 0, 0, 4, [0x42, 0x43]⟩] := by
  have hm : Measured [⟨3, 1, 1033, 4, 3, 0, some [0x41, 0x42, 0x43], none⟩,
      ⟨1, 0, 0, 4, 2, 0, some [0x42, 0x43], none⟩] := by
    refine measured_of_lengthSet fun nr hnr => ?_
    simp only [List.mem_cons, List.not_mem_nil, or_false] at hnr
    rcases hnr with rfl | rfl <;> intro s hs <;> cases hs <;> rfl
  have hstr : ∀ r ∈ [0, 1], ∃ s, bytesOf [⟨3, 1, 1033, 4, 3, 0, some [0x41, 0x42, 0x43], none⟩,
      ⟨1, 0, 0, 4, 2, 0, some [0x42, 0x43], none⟩] r = some s ∧ s.length ≤ 32767 := by
    intro r hr
    simp only [List.mem_cons, List.not_mem_nil, or_false] at hr
    rcases hr with rfl | rfl
    · exact ⟨[0x41, 0x42, 0x43], rfl, by decide⟩
    · exact ⟨[0x42, 0x43], rfl, by decide⟩
  obtain ⟨table, hok, _, _, hrep, _⟩ := loadNameTable_represents hm (by decide) hstr
    (by decide)
  exact ⟨table, hok, hrep⟩

/-! ## Lists of any size -/

/-- A document with one Macintosh name. -/
def oneName (text : JString) : XmlFile :=
  [.startElement (jstr "name") [],
    .startElement (jstr "string") [(jstr "platformID", jstr "1"), (jstr "encodingID", jstr "0"),
      (jstr "languageID", jstr "0"), (jstr "nameID", jstr "1")],
    .startElement (jstr "value") [], .characters text, .endElement (jstr "value"),
    .endElement (jstr "string"), .endElement (jstr "name"), .endDocument]

theorem loadNameRecord_oneName (text : JString) :
    loadNameRecord (oneName text) =
      .ok ([⟨1, 0, 0, 1, BitVec.ofNat 16 (getBytesLatin1 text).length, 0,
        some (getBytesLatin1 text), some text⟩], [0]) := by
  rfl

/-- A string of 2^16 bytes or more is cut short without notice: the table says
what it should exactly when there is no such string, or when the list does not
pack at all and the method throws. -/
theorem loadNameTable_complete_iff {xmlfile : XmlFile} {heap : Heap} {nrs : List Nat}
    (h : loadNameRecord xmlfile = .ok (heap, nrs)) :
    (∀ table, loadNameTable xmlfile = .ok table → Represents table (nrs.map (nameOf heap))) ↔
      (∀ r ∈ nrs, ∀ s, bytesOf heap r = some s → s.length < 65536) ∨
      ¬ ∃ pool, Packs heap nrs pool := by
  have hm := loadNameRecord_measured h
  rw [loadNameTable_of_load h]
  constructor
  · intro hrep
    rcases packNameTable_cases hm nrs with ⟨_, hno⟩ | ⟨pool, heap', _, _, _, _, hok⟩
    · exact Or.inr hno
    · refine Or.inl fun r hr s hs => ?_
      have hmem : nameOf heap r ∈ nrs.map (nameOf heap) := List.mem_map_of_mem hr
      have hin := (hrep _ hok).perm.mem_iff.mpr hmem
      have hstring : (nameOf heap r).string = s := by
        show (bytesOf heap r).getD [] = s
        rw [hs]
        rfl
      rw [← hstring]
      exact entries_string_lt hin
  · intro hcond table htable
    rcases packNameTable_cases hm nrs with ⟨⟨e, he⟩, _⟩ | ⟨pool, heap', hpacks, hsame, hall, _, hok⟩
    · rw [he] at htable
      cases htable
    · rw [hok] at htable
      cases htable
      rcases hcond with hshort | hno
      · refine represents_packed hm hsame hpacks.1 hall fun r hr => ?_
        show ((bytesOf heap r).getD []).length < 65536
        cases hs : bytesOf heap r with
        | none => decide
        | some s => exact hshort r hr s hs
      · exact absurd ⟨pool, hpacks⟩ hno

theorem loadNameTable_complete_iff_oneName :
    ∃ table, loadNameTable (oneName (jstr "A")) = .ok table ∧
      Represents table [⟨1, 0, 0, 1, [0x41]⟩] := by
  have hload := loadNameRecord_oneName (jstr "A")
  have hbytes : ∀ r ∈ [0], bytesOf [⟨1, 0, 0, 1, 1, 0, some [0x41], some (jstr "A")⟩] r =
      some [0x41] := by
    intro r hr
    rw [List.mem_singleton.mp hr]
    rfl
  obtain ⟨table, hok, _⟩ := packNameTable_represents (loadNameRecord_measured hload)
    (by decide : [0].length ≤ 2730) (fun r hr => ⟨[0x41], hbytes r hr, by decide⟩) (by decide)
  rw [← loadNameTable_of_load hload] at hok
  refine ⟨table, hok, (loadNameTable_complete_iff hload).mpr (Or.inl ?_) table hok⟩
  intro r hr s hs
  cases (hbytes r hr).symm.trans hs
  decide

/-- 65536 bytes are stored as none. -/
theorem packs_oneName {text : JString} (h : (getBytesLatin1 text).length = 65536) :
    Packs [⟨1, 0, 0, 1, BitVec.ofNat 16 (getBytesLatin1 text).length, 0,
      some (getBytesLatin1 text), some text⟩] [0] [] := by
  refine ⟨by decide, [getBytesLatin1 text], rfl, ?_⟩
  have hno : ¬ getBytesLatin1 text <:+: [] := by
    intro hin
    have := hin.length_le
    rw [h, List.length_nil] at this
    omega
  rw [packStrings, addString, if_neg hno, stored, h]
  rfl

theorem loadNameTable_truncates :
    ∃ heap nrs table,
      loadNameRecord (oneName (List.replicate 65536 0x61)) = .ok (heap, nrs) ∧
      loadNameTable (oneName (List.replicate 65536 0x61)) = .ok table ∧
      ¬ Represents table (nrs.map (nameOf heap)) := by
  have hbytes : getBytesLatin1 (List.replicate 65536 0x61) = List.replicate 65536 0x61 := by
    have h := getBytesLatin1_newString (List.replicate 65536 0x61)
    rwa [newStringLatin1, List.map_replicate] at h
  have hlen : (getBytesLatin1 (List.replicate 65536 0x61)).length = 65536 := by
    rw [hbytes, List.length_replicate]
  have hload := loadNameRecord_oneName (List.replicate 65536 0x61)
  rcases packNameTable_cases (loadNameRecord_measured hload) [0] with
    ⟨_, hno⟩ | ⟨pool, heap', _, _, _, _, hok⟩
  · exact absurd ⟨[], packs_oneName hlen⟩ hno
  · refine ⟨_, _, _, hload, by rw [loadNameTable_of_load hload, hok], ?_⟩
    intro hrep
    have hin := hrep.perm.mem_iff.mpr (List.mem_map_of_mem (List.mem_singleton_self 0))
    have hlt := entries_string_lt hin
    have hbig : (nameOf [⟨1, 0, 0, 1,
        BitVec.ofNat 16 (getBytesLatin1 (List.replicate 65536 0x61)).length, 0,
        some (getBytesLatin1 (List.replicate 65536 0x61)),
        some (List.replicate 65536 0x61)⟩] 0).string.length = 65536 := hlen
    omega

end Tookit
end Otf
end I18nZh
