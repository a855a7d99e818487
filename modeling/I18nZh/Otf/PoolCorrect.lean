import Mathlib.Data.List.Perm.Subperm
import I18nZh.Otf.NameCorrect

/-!
# How well the strings are compressed

The loop handles the longest strings first, so a string is stored only if no
longer one contains it, and at most once.
-/

namespace I18nZh
namespace Otf
namespace Tookit

open Java Storage Occurrence NameFormat

/-- What `blocks`, stored one after the other, promise for a list of strings. -/
structure Compressed (strings blocks : List Bytes) : Prop where
  longest_first : blocks.Pairwise fun a b => b.length ≤ a.length
  apart : blocks.Pairwise fun a b => ¬ a <:+: b ∧ ¬ b <:+: a
  once : blocks.Nodup
  not_in_longer : ∀ s ∈ strings, (∃ t ∈ strings, s <:+: t ∧ s.length < t.length) → s ∉ blocks

/-- The distinct strings that are no substrings of others. -/
def maximalStrings (strings : List Bytes) : List Bytes :=
  strings.dedup.filter fun s => ∀ t ∈ strings, s <:+: t → t = s

theorem mem_maximalStrings {strings : List Bytes} {s : Bytes} :
    s ∈ maximalStrings strings ↔ s ∈ strings ∧ ∀ t ∈ strings, s <:+: t → t = s := by
  rw [maximalStrings, List.mem_filter, List.mem_dedup, decide_eq_true_iff]

theorem Compressed.maximal {strings blocks : List Bytes} (h : Compressed strings blocks)
    (hsub : blocks ⊆ strings) : blocks ⊆ maximalStrings strings := by
  intro s hs
  refine mem_maximalStrings.mpr ⟨hsub hs, fun t ht hst => ?_⟩
  have hle : t.length ≤ s.length := by
    by_contra hlt
    exact h.not_in_longer s (hsub hs) ⟨t, ht, hst, by omega⟩ hs
  exact (hst.eq_of_length_le hle).symm

/-- No more bytes than those strings have together. -/
theorem Compressed.length_le {strings blocks : List Bytes} (h : Compressed strings blocks)
    (hsub : blocks ⊆ strings) :
    blocks.flatten.length ≤ ((maximalStrings strings).map List.length).sum := by
  obtain ⟨part, hperm, hpart⟩ := h.once.subperm (h.maximal hsub)
  rw [List.length_flatten, ← (hperm.map List.length).sum_eq]
  exact (hpart.map List.length).sum_le_sum fun n _ => Nat.zero_le n

/-- The strings added when the longest come first. -/
theorem added_compressed {strings sorted : List Bytes} (hperm : sorted.Perm strings)
    (hsort : sorted.Pairwise fun a b => b.length ≤ a.length) :
    Compressed strings (added [] sorted) := by
  have hsub := added_sublist sorted []
  have hapart : (added [] sorted).Pairwise fun a b => ¬ a <:+: b ∧ ¬ b <:+: a :=
    added_pairwise hsort
  constructor
  · exact hsort.sublist hsub
  · exact hapart
  · refine hapart.imp fun hab heq => ?_
    rw [heq] at hab
    exact hab.1 (List.infix_refl _)
  · rintro s _ ⟨t, ht, hst, hlt⟩ hs
    have hle := length_le_of_mem_added hsort s hs t (hperm.mem_iff.mpr ht) hst
    omega

/-! ## The order of the placing -/

section Order

variable {heap : Heap} {nrs : List Nat}

theorem compareLength_iff {r1 r2 : Nat} :
    compareLength heap r1 r2 ≤ 0 ↔ (deref heap r2).length.toInt ≤ (deref heap r1).length.toInt := by
  simp only [compareLength]
  split_ifs <;> omega

theorem placeOrder_pairwise (heap : Heap) (nrs : List Nat) :
    (placeOrder heap nrs).Pairwise fun r1 r2 =>
      (deref heap r2).length.toInt ≤ (deref heap r1).length.toInt := by
  have h := arraysSort_pairwise (compareLength heap)
    (fun x y => by
      rw [compareLength_iff, compareLength_iff]
      exact le_total _ _)
    (fun x y z h1 h2 => by
      rw [compareLength_iff] at h1 h2 ⊢
      exact le_trans h2 h1) nrs
  exact h.imp fun hle => compareLength_iff.mp hle

/-- Strings of at most 32767 bytes are placed longest first. -/
theorem placeOrder_strings (hm : Measured heap)
    (hstr : ∀ r ∈ nrs, ∃ s, bytesOf heap r = some s ∧ s.length ≤ 32767) :
    ((placeOrder heap nrs).map fun r => (nameOf heap r).string).Pairwise
      fun a b => b.length ≤ a.length := by
  have hlen (r : Nat) (hr : r ∈ placeOrder heap nrs) :
      (deref heap r).length.toInt = ((nameOf heap r).string.length : Int) := by
    obtain ⟨s, hs, hle⟩ := hstr r (mem_arraysSort.mp hr)
    have hnat : (BitVec.ofNat 16 s.length).toNat = s.length := by
      rw [BitVec.toNat_ofNat, Nat.mod_eq_of_lt (by omega)]
    rw [string_of_bytes hs, hm r s hs, BitVec.toInt_eq_toNat_of_lt (by omega), hnat]
  rw [List.pairwise_map]
  refine (placeOrder_pairwise heap nrs).imp_of_mem fun h1 h2 hle => ?_
  rw [hlen _ h1, hlen _ h2] at hle
  omega

end Order

/-- The records read their strings back from a storage area that is made of some of
the strings, longest first, none inside another, and nothing is stored for a string
inside a longer one or a second time. -/
theorem loadNameTable_compressed {heap : Heap} {nrs : List Nat} (hm : Measured heap)
    (hn : nrs.length ≤ 2730)
    (hstr : ∀ r ∈ nrs, ∃ s, bytesOf heap r = some s ∧ s.length ≤ 32767)
    (hsum : 6 + 12 * nrs.length + (nrs.map fun r => (nameOf heap r).string.length).sum ≤ 65536) :
    ∃ (table : Bytes) (chosen : List Nat), packNameTable heap nrs = .ok table ∧
      (∀ xmlfile, loadNameRecord xmlfile = .ok (heap, nrs) → loadNameTable xmlfile = .ok table) ∧
      Represents table (nrs.map (nameOf heap)) ∧ chosen.Subperm nrs ∧
      table.drop (stringOffset table) = (chosen.map fun r => (nameOf heap r).string).flatten ∧
      Compressed (nrs.map fun r => (nameOf heap r).string)
        (chosen.map fun r => (nameOf heap r).string) ∧
      (table.drop (stringOffset table)).length ≤
        ((maximalStrings (nrs.map fun r => (nameOf heap r).string)).map List.length).sum := by
  have hperm : (placeOrder heap nrs).Perm nrs := arraysSort_perm _ _
  have hle := storageArea_length_le heap nrs
  rcases packNameTable_cases hm nrs with ⟨_, hno⟩ | ⟨pool, heap', hpacks, _, _, _, hok⟩
  · exact absurd ⟨_, packs_storageArea hstr hn (by omega)⟩ hno
  have hrep : Represents (layout ((recordOrder heap nrs).map fun r => (deref heap' r).raw) pool)
      (nrs.map (nameOf heap)) := by
    obtain ⟨table, hpack, _, hrep, _⟩ := packNameTable_represents hm hn hstr (by omega)
    rw [hok, Except.ok.injEq] at hpack
    rw [hpack]
    exact hrep
  have hpool := storageArea_of_packs hstr hpacks
  obtain ⟨chosen, hsub, hchosen⟩ := List.sublist_map_iff.mp
    (added_sublist ((placeOrder heap nrs).map fun r => (nameOf heap r).string) [])
  have hcomp : Compressed (nrs.map fun r => (nameOf heap r).string)
      (chosen.map fun r => (nameOf heap r).string) := by
    rw [← hchosen]
    exact added_compressed (hperm.map _) (placeOrder_strings hm hstr)
  have hsubset : (chosen.map fun r => (nameOf heap r).string) ⊆
      nrs.map fun r => (nameOf heap r).string :=
    List.map_subset _ fun r hr => hperm.mem_iff.mp (hsub.subset hr)
  have hlen : ((recordOrder heap nrs).map fun r => (deref heap' r).raw).length = nrs.length := by
    rw [List.length_map, recordOrder_length]
  have harea : (layout ((recordOrder heap nrs).map fun r => (deref heap' r).raw) pool).drop
      (stringOffset (layout ((recordOrder heap nrs).map fun r => (deref heap' r).raw) pool)) =
      (chosen.map fun r => (nameOf heap r).string).flatten := by
    rw [stringOffset_layout (by omega), layout, List.drop_left' (area_length _), hpool,
      storageArea, hchosen]
  refine ⟨_, chosen, hok, ?_, hrep, hsub.subperm.trans hperm.subperm, harea, hcomp, ?_⟩
  · intro xmlfile hload
    rw [loadNameTable_of_load hload, hok]
  · rw [harea]
    exact hcomp.length_le hsubset

theorem loadNameTable_compressed_same :
    ∃ table, packNameTable
        [⟨3, 1, 1033, 4, 2, 0, some [0x4E, 0x2D], none⟩,
          ⟨3, 1, 2052, 4, 2, 0, some [0x4E, 0x2D], none⟩] [0, 1] = .ok table ∧
      Represents table [⟨3, 1, 1033, 4, [0x4E, 0x2D]⟩, ⟨3, 1, 2052, 4, [0x4E, 0x2D]⟩] ∧
      (table.drop (stringOffset table)).length ≤ 2 := by
  have hbytes : ∀ r ∈ [0, 1], bytesOf [⟨3, 1, 1033, 4, 2, 0, some [0x4E, 0x2D], none⟩,
      ⟨3, 1, 2052, 4, 2, 0, some [0x4E, 0x2D], none⟩] r = some [0x4E, 0x2D] := by
    intro r hr
    simp only [List.mem_cons, List.not_mem_nil, or_false] at hr
    rcases hr with rfl | rfl <;> rfl
  have hm : Measured [⟨3, 1, 1033, 4, 2, 0, some [0x4E, 0x2D], none⟩,
      ⟨3, 1, 2052, 4, 2, 0, some [0x4E, 0x2D], none⟩] := by
    refine measured_of_lengthSet fun nr hnr => ?_
    simp only [List.mem_cons, List.not_mem_nil, or_false] at hnr
    rcases hnr with rfl | rfl <;> intro s hs <;> cases hs <;> rfl
  obtain ⟨table, _, hok, _, hrep, _, _, _, hle⟩ := loadNameTable_compressed hm
    (by decide : [0, 1].length ≤ 2730) (fun r hr => ⟨_, hbytes r hr, by decide⟩) (by decide)
  exact ⟨table, hok, hrep, hle⟩

end Tookit
end Otf
end I18nZh
