import Mathlib.Data.List.Pairwise
import I18nZh.Lib.Layout
import I18nZh.Otf.Chunks
import I18nZh.Otf.Directory

/-!
# Fonts put together from tables

What a font file is made of: a header, a directory sorted by tag, and the tables
on multiples of four, with the adjustment in `head` that makes the whole file sum
up to the constant.  Nothing here runs a tool; the results say what a reader
finds in such a file.
-/

namespace I18nZh
namespace Otf

open Java Storage BigEndian Layout Tookit

/-! ## Header and entries as bytes -/

def offsetTableBytes (ot : OffsetTable) : Bytes :=
  intBytes ot.sfnt ++ shortBytes ot.numTables ++ shortBytes ot.searchRange ++
    shortBytes ot.entrySelector ++ shortBytes ot.rangeShift

def entryBytes (td : TableDirectory) : Bytes :=
  intBytes td.tag ++ intBytes td.checkSum ++ intBytes td.offset ++ intBytes td.length

@[simp] theorem offsetTableBytes_length (ot : OffsetTable) : (offsetTableBytes ot).length = 12 :=
  rfl

@[simp] theorem entryBytes_length (td : TableDirectory) : (entryBytes td).length = 16 := rfl

theorem offsetTableOf_bytes (ot : OffsetTable) (rest : Bytes) :
    offsetTableOf (offsetTableBytes ot ++ rest) = ot := by
  have hi (v : JInt) : intAt (intBytes v) 0 = v := by
    rw [← List.append_nil (intBytes v), intAt_intBytes]
  have hs (v : JShort) : shortAt (shortBytes v) 0 = v := by
    rw [← List.append_nil (shortBytes v), shortAt_shortBytes]
  have h0 := hi ot.sfnt
  have h1 := hs ot.numTables
  have h2 := hs ot.searchRange
  have h3 := hs ot.entrySelector
  have h4 := hs ot.rangeShift
  cases ot
  simp only [offsetTableOf, OffsetTable.mk.injEq]
  exact ⟨h0, h1, h2, h3, h4⟩

theorem tableDirectoryAt_bytes (td : TableDirectory) : tableDirectoryAt (entryBytes td) 0 = td := by
  have hi (v : JInt) : intAt (intBytes v) 0 = v := by
    rw [← List.append_nil (intBytes v), intAt_intBytes]
  have h0 := hi td.tag
  have h1 := hi td.checkSum
  have h2 := hi td.offset
  have h3 := hi td.length
  cases td
  simp only [tableDirectoryAt, TableDirectory.mk.injEq]
  exact ⟨h0, h1, h2, h3⟩

theorem offsetTableFor_count (sfnt : JInt) {n : Nat} (h : n ≤ 32767) :
    (offsetTableFor sfnt n).numTables.toInt.toNat = n := by
  have hnat : (BitVec.ofNat 16 n).toNat = n := by
    rw [BitVec.toNat_ofNat]
    exact Nat.mod_eq_of_lt (by omega)
  show (BitVec.ofNat 16 n).toInt.toNat = n
  rw [BitVec.toInt_eq_toNat_of_lt (by omega), hnat]
  rfl

/-- A reader finds the entries that stand behind the header. -/
theorem directory_of_bytes {ot : OffsetTable} {es : List TableDirectory} (rest : Bytes)
    (h : ot.numTables.toInt.toNat = es.length) :
    directory (offsetTableBytes ot ++ es.flatMap entryBytes ++ rest) = es := by
  have hlong := flatMap_length entryBytes_length es
  have hcount : tableCount (offsetTableBytes ot ++ es.flatMap entryBytes ++ rest) =
      es.length := by
    rw [tableCount, List.append_assoc, offsetTableOf_bytes, h]
  refine List.ext_getElem ?_ ?_
  · rw [directory_length, hcount]
  · intro i _ hi
    have hskip : slice (offsetTableBytes ot ++ es.flatMap entryBytes ++ rest) (12 + 16 * i) 16 =
        entryBytes es[i] := by
      have hright := slice_append_right (offsetTableBytes ot) (es.flatMap entryBytes ++ rest)
        (16 * i) 16
      rw [List.append_assoc]
      exact hright.trans ((slice_append_left (by omega)).trans
        (slice_flatMap entryBytes_length es i hi))
    have hread := tableDirectoryAt_slice (p := 12 + 16 * i)
      (offsetTableBytes ot ++ es.flatMap entryBytes ++ rest) [] (by
        rw [List.length_append, List.length_append, offsetTableBytes_length]
        omega)
    rw [hskip, List.append_nil, tableDirectoryAt_bytes] at hread
    rw [directory_getElem]
    exact hread.symm

/-! ## The two orders -/

def byOffset (tds : List TableDirectory) : List TableDirectory :=
  tds.insertionSort fun a b => a.offset.toInt ≤ b.offset.toInt

def byTag (tds : List TableDirectory) : List TableDirectory :=
  tds.insertionSort fun a b => a.tag.toInt ≤ b.tag.toInt

theorem byOffset_length (tds : List TableDirectory) : (byOffset tds).length = tds.length :=
  List.length_insertionSort _ _

theorem byTag_length (tds : List TableDirectory) : (byTag tds).length = tds.length :=
  List.length_insertionSort _ _

theorem mem_byOffset {tds : List TableDirectory} {td : TableDirectory} :
    td ∈ byOffset tds ↔ td ∈ tds := List.mem_insertionSort _

theorem mem_byTag {tds : List TableDirectory} {td : TableDirectory} :
    td ∈ byTag tds ↔ td ∈ tds := List.mem_insertionSort _

theorem byOffset_pairwise (tds : List TableDirectory) :
    (byOffset tds).Pairwise fun a b => a.offset.toInt ≤ b.offset.toInt := by
  have : Std.Total fun a b : TableDirectory => a.offset.toInt ≤ b.offset.toInt :=
    ⟨fun a b => Int.le_total _ _⟩
  have : IsTrans TableDirectory fun a b => a.offset.toInt ≤ b.offset.toInt :=
    ⟨fun a b c => Int.le_trans⟩
  exact List.pairwise_insertionSort _ tds

/-- Entries with one offset keep their order. -/
theorem byOffset_filter (tds : List TableDirectory) (v : JInt) :
    (byOffset tds).filter (fun td => td.offset = v) = tds.filter fun td => td.offset = v := by
  have hsorted : (tds.filter fun td => td.offset = v).Pairwise
      fun a b => a.offset.toInt ≤ b.offset.toInt := by
    apply List.pairwise_of_forall_mem_list
    intro a ha b hb
    have ha' : a.offset = v := by simpa using (List.mem_filter.mp ha).2
    have hb' : b.offset = v := by simpa using (List.mem_filter.mp hb).2
    rw [ha', hb']
  have hsub : (tds.filter fun td => td.offset = v).Sublist (byOffset tds) :=
    List.sublist_insertionSort hsorted List.filter_sublist
  have hfilter := hsub.filter fun td => td.offset = v
  rw [List.filter_filter] at hfilter
  simp only [Bool.and_self] at hfilter
  have hperm : ((byOffset tds).filter fun td => td.offset = v).Perm
      (tds.filter fun td => td.offset = v) := (List.perm_insertionSort _ tds).filter _
  exact (hfilter.eq_of_length hperm.length_eq.symm).symm

/-- The order of the offsets, which are `int`, and for equal ones that of the list.
Read without a sign, as ranges are, they are ordered differently only if one is `2 ^ 31`
or more; of the tables a run copies, only `name` can have such an offset. -/
def Precedes (tds : List TableDirectory) (a b : TableDirectory) : Prop :=
  a.offset.toInt < b.offset.toInt ∨ (a.offset = b.offset ∧ [a, b].Sublist tds)

theorem Precedes.of_sublist {tds all : List TableDirectory} (hsub : tds.Sublist all)
    {a b : TableDirectory} (h : Precedes tds a b) : Precedes all a b := by
  rcases h with hlt | ⟨heq, hab⟩
  · exact Or.inl hlt
  · exact Or.inr ⟨heq, hab.trans hsub⟩

theorem byOffset_precedes (tds : List TableDirectory) :
    (byOffset tds).Pairwise (Precedes tds) := by
  rw [List.pairwise_iff_forall_sublist]
  intro a b hab
  have hle := List.pairwise_iff_forall_sublist.mp (byOffset_pairwise tds) hab
  rcases Int.lt_or_eq_of_le hle with hlt | heq
  · exact Or.inl hlt
  · have hoff : a.offset = b.offset := BitVec.eq_of_toInt_eq heq
    have hpair := hab.filter fun td => td.offset = b.offset
    rw [byOffset_filter] at hpair
    simp only [hoff, List.filter_cons, decide_true, if_true, List.filter_nil] at hpair
    exact Or.inr ⟨hoff, hpair.trans List.filter_sublist⟩

/-- Entries in strictly ascending order of their offsets are what sorting any
arrangement of them leads to. -/
theorem byOffset_of_perm {tds sorted : List TableDirectory} (hperm : tds.Perm sorted)
    (h : sorted.Pairwise fun a b => a.offset.toInt < b.offset.toInt) : byOffset tds = sorted := by
  have hle : sorted.Pairwise fun a b => a.offset.toInt ≤ b.offset.toInt :=
    h.imp fun hab => Int.le_of_lt hab
  have hsort : (byOffset tds).Perm sorted := (List.perm_insertionSort _ tds).trans hperm
  refine hsort.eq_of_pairwise ?_ (byOffset_pairwise tds) hle
  intro a b ha hb hab hba
  by_contra hne
  have : Std.Symm fun a b : TableDirectory => a.offset.toInt ≠ b.offset.toInt :=
    ⟨fun _ _ => Ne.symm⟩
  have hdistinct : sorted.Pairwise fun a b => a.offset.toInt ≠ b.offset.toInt :=
    h.imp fun hab => Int.ne_of_lt hab
  exact hdistinct.forall (hsort.mem_iff.mp ha) hb hne (Int.le_antisymm hab hba)

/-! ## Tables -/

/-- `head` -/
def headTag : JInt := 0x68656164#32

theorem toTag_eq_head {v : JInt} : toTag v = jstr "head" ↔ v = headTag := by
  have h : toTag headTag = jstr "head" := by decide
  rw [← h]
  exact ⟨toTag_injective, congrArg toTag⟩

/-- A table, the adjustment in `head` not set. -/
structure Table where
  tag : JInt
  data : Bytes
  deriving DecidableEq, Repr

/-- The directory entry of a table at `s`. -/
def Table.entry (t : Table) (s : Nat) : TableDirectory :=
  { tag := t.tag
    checkSum := wordSum t.data
    offset := BitVec.ofNat 32 s
    length := BitVec.ofNat 32 t.data.length }

def tableBody (tables : List Table) : Bytes := body Table.data 0 4 tables

theorem tableBody_cons (t : Table) (tables : List Table) :
    tableBody (t :: tables) = padded 0 4 t.data ++ tableBody tables :=
  body_cons Table.data 0 4 t tables

/-- The tables at the places they have when the first one is at `s`. -/
def placeTables (tables : List Table) (s : Nat) : List (Nat × Table) :=
  place Table.data 4 tables s

def entriesFrom (tables : List Table) (s : Nat) : List TableDirectory :=
  (placeTables tables s).map fun p => p.2.entry p.1

structure Font where
  sfnt : JInt
  tables : List Table
  isSfnt : sfnt = 0x00010000#32 ∨ sfnt = 0x4F54544F#32
  count_le : tables.length ≤ 32767
  tags_nodup : (tables.map Table.tag).Nodup
  size_lt : 12 + 16 * tables.length + (tableBody tables).length < 2 ^ 31
  head : ∃ t ∈ tables, t.tag = headTag ∧ 54 ≤ t.data.length ∧ slice t.data 8 4 = [0, 0, 0, 0]

namespace Font

/-! ## The file -/

section File

variable (font : Font)

/-- Where the tables begin. -/
def start : Nat := 12 + 16 * font.tables.length

def size : Nat := font.start + (tableBody font.tables).length

def placed : List (Nat × Table) := placeTables font.tables font.start

def entries : List TableDirectory := entriesFrom font.tables font.start

def headAt : Nat := ((font.placed.find? fun p => p.2.tag = headTag).map Prod.fst).getD 0

def header : Bytes := offsetTableBytes (offsetTableFor font.sfnt font.tables.length)

def directoryBytes : Bytes := (byTag font.entries).flatMap entryBytes

/-- The file before the adjustment is set. -/
def unsealed : Bytes := font.header ++ font.directoryBytes ++ tableBody font.tables

def adjustment : JInt := 0xB1B0AFBA#32 - wordSum font.unsealed

def bytes : Bytes := overwrite 0 font.unsealed (font.headAt + 8) (intBytes font.adjustment)

/-- What the file holds of a table. -/
def stored (t : Table) : Bytes :=
  if t.tag = headTag then overwrite 0 t.data 8 (intBytes font.adjustment) else t.data

end File

/-! ## Places -/

section Places

variable {font : Font} {p q : Nat × Table}

theorem four_dvd_start : 4 ∣ font.start := by
  unfold start
  omega

theorem mem_tables (h : p ∈ font.placed) : p.2 ∈ font.tables := mem_of_mem_place Table.data h

theorem placed_bounds (h : p ∈ font.placed) :
    font.start ≤ p.1 ∧ p.1 + p.2.data.length ≤ font.size := by
  have h1 := le_of_mem_place Table.data font.tables font.start p h
  have h2 := place_bounds Table.data (0 : JByte) (by decide : 0 < 4) font.tables font.start p h
  have h3 := roundUp_ge (by decide : 0 < 4) p.2.data.length
  have h4 : font.size = font.start + (body Table.data (0 : JByte) 4 font.tables).length := rfl
  omega

theorem size_lt_two_pow : font.size < 2 ^ 31 := font.size_lt

theorem four_dvd_place (h : p ∈ font.placed) : 4 ∣ p.1 :=
  place_dvd Table.data font.tables font.start four_dvd_start p h

/-- A place is determined by the tag there. -/
theorem placed_unique (hp : p ∈ font.placed) (hq : q ∈ font.placed) (h : p.2.tag = q.2.tag) :
    p = q := by
  have hmap : font.placed.map (Table.tag ∘ Prod.snd) = font.tables.map Table.tag := by
    rw [← List.map_map]
    exact congrArg (List.map Table.tag) (place_map_snd Table.data 4 font.tables font.start)
  have hnodup : (font.placed.map (Table.tag ∘ Prod.snd)).Nodup := by
    rw [hmap]
    exact font.tags_nodup
  exact List.inj_on_of_nodup_map hnodup hp hq h

/-- Different tables, filled up, have disjoint places. -/
theorem placed_apart (hp : p ∈ font.placed) (hq : q ∈ font.placed) (h : p ≠ q) :
    p.1 + roundUp 4 p.2.data.length ≤ q.1 ∨ q.1 + roundUp 4 q.2.data.length ≤ p.1 :=
  pairwise_or (place_pairwise Table.data 4 font.tables font.start) hp hq h

theorem placed_disjoint (hp : p ∈ font.placed) (hq : q ∈ font.placed) (h : p ≠ q) :
    p.1 + p.2.data.length ≤ q.1 ∨ q.1 + q.2.data.length ≤ p.1 := by
  have hapart := placed_apart hp hq h
  have hgep := roundUp_ge (by decide : 0 < 4) p.2.data.length
  have hgeq := roundUp_ge (by decide : 0 < 4) q.2.data.length
  omega

/-- Where the table `head` is. -/
theorem headAt_spec : ∃ t, (font.headAt, t) ∈ font.placed ∧ t.tag = headTag ∧
    54 ≤ t.data.length ∧ slice t.data 8 4 = [0, 0, 0, 0] := by
  obtain ⟨t, ht, htag, hlen, hzero⟩ := font.head
  have hsnd : font.placed.map Prod.snd = font.tables := place_map_snd Table.data 4 _ _
  rw [← hsnd] at ht
  obtain ⟨p, hp, rfl⟩ := List.mem_map.mp ht
  have hsome : (font.placed.find? fun p => p.2.tag = headTag).isSome := by
    rw [List.find?_isSome]
    exact ⟨p, hp, by simpa using htag⟩
  obtain ⟨q, hq⟩ := Option.isSome_iff_exists.mp hsome
  have hqtag : q.2.tag = headTag := by simpa using List.find?_some hq
  have hpq : q = p := placed_unique (List.mem_of_find?_eq_some hq) hp (by rw [hqtag, htag])
  have hat : font.headAt = p.1 := by
    rw [headAt, hq, hpq]
    rfl
  exact ⟨p.2, by rw [hat]; exact hp, htag, hlen, hzero⟩

end Places

/-! ## Reading the file -/

section Reading

variable (font : Font)

theorem entries_length : font.entries.length = font.tables.length := by
  unfold entries entriesFrom
  rw [List.length_map]
  exact place_length Table.data 4 _ _

theorem directoryBytes_length : font.directoryBytes.length = 16 * font.tables.length := by
  rw [directoryBytes, flatMap_length entryBytes_length, byTag_length, entries_length]

theorem front_length : (font.header ++ font.directoryBytes).length = font.start := by
  rw [List.length_append, directoryBytes_length]
  rfl

theorem unsealed_length : font.unsealed.length = font.size := by
  rw [unsealed, List.length_append, front_length]
  rfl

theorem headAt_lt : font.start ≤ font.headAt ∧ font.headAt + 54 ≤ font.size := by
  obtain ⟨t, ht, _, hlen, _⟩ := font.headAt_spec
  have := placed_bounds ht
  simp only at this
  omega

theorem bytes_length : font.bytes.length = font.size := by
  have hat := font.headAt_lt
  have hlen := font.unsealed_length
  rw [bytes, overwrite_length_of_le 0 (by rw [intBytes_length]; omega), hlen]

theorem slice_unsealed {p : Nat × Table} (hp : p ∈ font.placed) :
    slice font.unsealed p.1 p.2.data.length = p.2.data := by
  rw [placed, placeTables, ← font.front_length] at hp
  exact slice_body Table.data 0 (by decide : 0 < 4) font.tables _ p hp

/-- The adjustment is in front of no other table. -/
theorem slice_bytes {p : Nat × Table} (hp : p ∈ font.placed) :
    slice font.bytes p.1 p.2.data.length = font.stored p.2 := by
  obtain ⟨t, ht, htag, hlen, _⟩ := font.headAt_spec
  have hb := placed_bounds hp
  have hbt := placed_bounds ht
  have hul := font.unsealed_length
  simp only at hbt
  rw [stored]
  by_cases hh : p.2.tag = headTag
  · have hpt : p = (font.headAt, t) := placed_unique hp ht (by rw [hh, htag])
    rw [if_pos hh, bytes, hpt]
    simp only
    rw [slice_overwrite_inside 0 (by rw [intBytes_length]; omega) (by omega),
      font.slice_unsealed ht]
  · rw [if_neg hh, bytes, slice_overwrite_outside 0 _ (by omega), font.slice_unsealed hp]
    rw [intBytes_length]
    have hne : p ≠ (font.headAt, t) := by
      intro h
      rw [h] at hh
      exact hh htag
    have := placed_disjoint hp ht hne
    simp only at this
    omega

/-- Header and directory are in front of all tables. -/
theorem bytes_eq : ∃ rest, font.bytes = font.header ++ font.directoryBytes ++ rest := by
  obtain ⟨hat, _⟩ := font.headAt_lt
  have hfront := font.front_length
  refine ⟨overwrite 0 (tableBody font.tables) (font.headAt + 8 - font.start)
    (intBytes font.adjustment), ?_⟩
  rw [bytes, unsealed, ← overwrite_append_right, hfront,
    show font.start + (font.headAt + 8 - font.start) = font.headAt + 8 by omega]

theorem offsetTableOf_font :
    offsetTableOf font.bytes = offsetTableFor font.sfnt font.tables.length := by
  obtain ⟨rest, hrest⟩ := font.bytes_eq
  rw [hrest, List.append_assoc]
  exact offsetTableOf_bytes _ _

theorem tableCount_font : tableCount font.bytes = font.tables.length := by
  rw [tableCount, offsetTableOf_font]
  exact offsetTableFor_count _ font.count_le

theorem sfnt_font : (offsetTableOf font.bytes).sfnt = font.sfnt := by
  have hne : font.sfnt ≠ 0 := by
    rcases font.isSfnt with h | h
    · rw [h]
      decide
    · rw [h]
      decide
  rw [offsetTableOf_font]
  exact if_neg hne

theorem isFont_bytes : isFont font.bytes := by
  rw [isFont, sfnt_font]
  exact font.isSfnt

/-- A reader finds the entries, sorted by tag. -/
theorem directory_bytes : directory font.bytes = byTag font.entries := by
  obtain ⟨rest, hrest⟩ := font.bytes_eq
  have hcount := font.tableCount_font
  rw [tableCount, offsetTableOf_font] at hcount
  rw [hrest]
  apply directory_of_bytes
  rw [hcount, byTag_length, entries_length]

theorem mem_directory_bytes {e : TableDirectory} :
    e ∈ directory font.bytes ↔ ∃ p ∈ font.placed, p.2.entry p.1 = e := by
  rw [directory_bytes, mem_byTag]
  exact List.mem_map

/-- An entry says where its table is and how long it is. -/
theorem entry_toNat {p : Nat × Table} (hp : p ∈ font.placed) :
    (p.2.entry p.1).offset.toNat = p.1 ∧ (p.2.entry p.1).length.toNat = p.2.data.length := by
  have hb := placed_bounds hp
  have hsmall := font.size_lt_two_pow
  exact ⟨toNat_ofNat_of_lt (by omega), toNat_ofNat_of_lt (by omega)⟩

theorem tableBytes_entry {p : Nat × Table} (hp : p ∈ font.placed) :
    tableBytes font.bytes (p.2.entry p.1) = font.stored p.2 := by
  obtain ⟨ho, hl⟩ := font.entry_toNat hp
  rw [tableBytes, ho, hl]
  exact font.slice_bytes hp

/-- The tables are in a row, up to the end of the file. -/
theorem follow_entries : Follow 4 font.start
    (font.entries.map fun td => (td.offset.toNat, td.length.toNat)) font.size := by
  have hmap : (font.entries.map fun td => (td.offset.toNat, td.length.toNat)) =
      font.placed.map fun p => (p.1, p.2.data.length) := by
    unfold entries entriesFrom
    rw [List.map_map]
    refine List.map_congr_left fun p hp => ?_
    obtain ⟨hoff, hlen⟩ := font.entry_toNat hp
    show ((p.2.entry p.1).offset.toNat, (p.2.entry p.1).length.toNat) = _
    rw [hoff, hlen]
  rw [hmap]
  exact follow_place Table.data 0 (by decide) font.tables font.start four_dvd_start

/-- Behind a table there is filling. -/
theorem getD_bytes_behind {p : Nat × Table} (hp : p ∈ font.placed) {i : Nat}
    (h1 : p.1 + p.2.data.length ≤ i) (h2 : i < roundUp 4 (p.1 + p.2.data.length)) :
    font.bytes.getD i 0 = 0 := by
  obtain ⟨t, ht, htag, hlen, _⟩ := font.headAt_spec
  have hround := roundUp_add (by decide : 0 < 4) (four_dvd_place hp) p.2.data.length
  have hmem := hp
  rw [placed, placeTables, ← font.front_length] at hmem
  have hfill := getD_body Table.data 0 (by decide : 0 < 4) font.tables _ p hmem i h1 (by omega)
  rw [bytes, getD_overwrite_outside 0 _ _ _ ?_]
  · exact hfill
  · -- the adjustment is inside `head`, and no table is in the filling
    rw [intBytes_length]
    by_cases heq : p = (font.headAt, t)
    · rw [heq] at h1
      simp only at h1
      omega
    · have hapart := placed_apart hp ht heq
      have hge := roundUp_ge (by decide : 0 < 4) t.data.length
      simp only at hapart
      omega

theorem stored_of_ne {t : Table} (h : t.tag ≠ headTag) : font.stored t = t.data := if_neg h

/-- Taking the adjustment out again leads back to the table. -/
theorem clear_stored {p : Nat × Table} (hp : p ∈ font.placed) (h : p.2.tag = headTag) :
    overwrite 0 (font.stored p.2) 8 (intBytes 0) = p.2.data := by
  obtain ⟨t, ht, htag, _, hzero⟩ := font.headAt_spec
  have hpt : p = (font.headAt, t) := placed_unique hp ht (by rw [h, htag])
  have hlast := overwrite_overwrite 0 p.2.data 8 (d := intBytes font.adjustment)
    (e := intBytes 0) (by rw [intBytes_length, intBytes_length])
  rw [stored, if_pos h, hlast]
  apply overwrite_self
  rw [hpt]
  exact hzero

theorem directory_tags : ((directory font.bytes).map TableDirectory.tag).Perm
    (font.tables.map Table.tag) := by
  have hsort : (byTag font.entries).Perm font.entries := List.perm_insertionSort _ _
  have htags : font.entries.map TableDirectory.tag = font.tables.map Table.tag := by
    rw [entries, entriesFrom, List.map_map]
    show (font.placed).map (Table.tag ∘ Prod.snd) = _
    rw [← List.map_map]
    exact congrArg (List.map Table.tag) (place_map_snd Table.data 4 font.tables font.start)
  rw [directory_bytes, ← htags]
  exact hsort.map TableDirectory.tag

/-- The whole file sums up to the constant. -/
theorem wordSum_bytes : wordSum font.bytes = 0xB1B0AFBA#32 := by
  obtain ⟨t, ht, _, hlen, hzero⟩ := font.headAt_spec
  have hb := placed_bounds ht
  have hul := font.unsealed_length
  have hdvd := four_dvd_place ht
  simp only at hb hdvd
  have hslice : slice font.unsealed (font.headAt + 8) 4 = [0, 0, 0, 0] := by
    have hdata := font.slice_unsealed ht
    simp only at hdata
    rw [← hzero, ← hdata, slice_slice (by omega)]
  have hword : intAt font.unsealed (font.headAt + 8) = 0 := by
    rw [← intAt_slice (n := 4) (k := 0) (by omega), hslice]
    decide
  rw [bytes, wordSum_overwrite (by omega) (by omega), hword, adjustment]
  ring

end Reading

end Font

end Otf
end I18nZh
