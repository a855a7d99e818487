import I18nZh.Otf.FixCorrect
import I18nZh.Otf.FixPlaces

/-!
# `FixName` on a file that exists

The output file is opened for reading and writing and never cut: a byte it held
before stays where the run has nothing to write.  Besides, a short `head` can lead to
an adjustment that is written over another table.
-/

namespace I18nZh
namespace Otf
namespace FixName

open Java Storage BigEndian RandomAccessFile Tookit Writes Layout

/-! ## The cells of the tables -/

section Cells

variable (src name : Bytes)

/-- For the table put at `s` there is a byte at `i`: one of its content, one of the
adjustment that is cleared, or padding. -/
def Supplies (td : TableDirectory) (s i : Nat) : Prop :=
  (s ≤ i ∧ i < s + (tableData src name td).length) ∨
  (isHead td ∧ s + 8 ≤ i ∧ i < s + 12) ∨
  (s + tableLength name td ≤ i ∧ i < roundUp 4 (s + tableLength name td))

def SuppliesFrom : List TableDirectory → Nat → Nat → Prop
  | [], _, _ => False
  | td :: rest, s, i => Supplies src name td s i ∨
      SuppliesFrom rest (roundUp 4 (s + tableLength name td)) i

/-- There is a byte at `i`, of header and directory or of a table. -/
def Supplied (tdl : List TableDirectory) (i : Nat) : Prop :=
  i < startOfTables tdl ∨ SuppliesFrom src name (byOffset tdl) (startOfTables tdl) i

variable {src name}

theorem covers_tableWrites {td : TableDirectory} {s i : Nat} :
    Covers (copyWrites src name td s ++ [padWrite (s + tableLength name td)]) i ↔
      Supplies src name td s i := by
  have hge := roundUp_ge (by decide : 0 < 4) (s + tableLength name td)
  have hpad : Covers [padWrite (s + tableLength name td)] i ↔
      s + tableLength name td ≤ i ∧ i < roundUp 4 (s + tableLength name td) := by
    rw [covers_cons, or_iff_left (not_covers_nil i), padWrite, List.length_replicate]
    omega
  have hclear : Covers (if isHead td then [(s + 8, intBytes 0)] else []) i ↔
      isHead td ∧ s + 8 ≤ i ∧ i < s + 12 := by
    by_cases hh : isHead td
    · rw [if_pos hh, covers_cons, or_iff_left (not_covers_nil i), intBytes_length,
        and_iff_right hh]
    · rw [if_neg hh]
      exact iff_of_false (not_covers_nil i) fun h => hh h.1
  rw [covers_append, copyWrites, covers_cons, hpad, hclear, or_assoc]
  rfl

theorem covers_bodyWrites {i : Nat} : ∀ {tds : List TableDirectory} {s : Nat},
    Covers (bodyWrites src name tds s) i ↔ SuppliesFrom src name tds s i := by
  intro tds
  induction tds with
  | nil =>
    intro s
    exact iff_of_false (not_covers_nil i) id
  | cons td rest ih =>
    intro s
    rw [bodyWrites, covers_append, covers_tableWrites, ih]
    rfl

theorem Supplies.le {td : TableDirectory} {s i : Nat} (h : Supplies src name td s i) : s ≤ i := by
  rcases h with h | h | h <;> omega

theorem SuppliesFrom.le {i : Nat} : ∀ {tds : List TableDirectory} {s : Nat},
    SuppliesFrom src name tds s i → s ≤ i := by
  intro tds
  induction tds with
  | nil =>
    intro s h
    exact h.elim
  | cons td rest ih =>
    intro s h
    have hge := roundUp_ge (by decide : 0 < 4) (s + tableLength name td)
    rcases h with h | h
    · exact h.le
    · have := ih h
      omega

/-- Files that agree where there is no byte get the same entries. -/
theorem newEntries_congr {n : Nat} : ∀ (tds : List TableDirectory) (s : Nat) {c d : Bytes},
    sizeFrom name tds s ≤ n →
    (∀ i, s ≤ i → i < n → ¬ SuppliesFrom src name tds s i → c.getD i 0 = d.getD i 0) →
    newEntries src name tds s c = newEntries src name tds s d := by
  intro tds
  induction tds with
  | nil => intro s c d _ _; rfl
  | cons td rest ih =>
    intro s c d hn h
    have hge := roundUp_ge (by decide : 0 < 4) (s + tableLength name td)
    have hle := le_sizeFrom name rest (roundUp 4 (s + tableLength name td))
    rw [sizeFrom] at hn
    have hsum : wordSum (slice (applyWrites 0 c (copyWrites src name td s)) s
          (tableLength name td)) =
        wordSum (slice (applyWrites 0 d (copyWrites src name td s)) s
          (tableLength name td)) := by
      apply wordSum_slice_congr
      intro j hj
      apply getD_applyWrites_congr
      intro hno
      apply h _ (Nat.le_add_right s j) (by omega)
      intro hsup
      rcases hsup with hsup | hsup
      · -- not in the padding, so in the writes of the table itself
        rcases covers_append.mp (covers_tableWrites.mpr hsup) with hcov | hcov
        · exact hno hcov
        · obtain ⟨w, hw, hle, _⟩ := hcov
          rw [List.mem_singleton.mp hw, padWrite] at hle
          omega
      · have := hsup.le
        omega
    have hrest : newEntries src name rest (roundUp 4 (s + tableLength name td))
          (applyWrites 0 c (copyWrites src name td s ++ [padWrite (s + tableLength name td)])) =
        newEntries src name rest (roundUp 4 (s + tableLength name td))
          (applyWrites 0 d
            (copyWrites src name td s ++ [padWrite (s + tableLength name td)])) := by
      apply ih _ hn
      intro i hi hlt hno
      apply getD_applyWrites_congr
      intro hown
      apply h i (by omega) hlt
      intro hsup
      rcases hsup with hsup | hsup
      · exact hown (covers_tableWrites.mpr hsup)
      · exact hno hsup
    rw [newEntries, newEntries, hrest, newEntry, newEntry, hsum]

theorem suppliesFrom_of_place {i : Nat} : ∀ {tds : List TableDirectory} {s : Nat}
    {p : Nat × TableDirectory}, p ∈ placesFrom name tds s → Supplies src name p.2 p.1 i →
    SuppliesFrom src name tds s i := by
  intro tds
  induction tds with
  | nil =>
    intro s p hp
    cases hp
  | cons td rest ih =>
    intro s p hp h
    rcases List.mem_cons.mp hp with rfl | hp
    · exact Or.inl h
    · exact Or.inr (ih hp h)

/-! ## The cells that are left 0 -/

theorem getD_copyWrites (c : Bytes) (td : TableDirectory) (s i : Nat) :
    (applyWrites 0 c (copyWrites src name td s)).getD i 0 =
      if isHead td ∧ s + 8 ≤ i ∧ i < s + 12 then 0
      else (overwrite 0 c s (tableData src name td)).getD i 0 := by
  have hzero (j : Nat) : (intBytes 0).getD j 0 = (0 : JByte) := by
    have hbytes : intBytes 0 = List.replicate 4 0 := rfl
    rw [hbytes, List.getD_eq_getElem?_getD, List.getElem?_getD_replicate_default_eq]
  rw [copyWrites, applyWrites_cons]
  by_cases hh : isHead td
  · rw [if_pos hh, applyWrites_cons, applyWrites_nil, getD_overwrite, intBytes_length, hzero,
      Nat.add_assoc s 8 4]
    exact if_congr (by rw [and_iff_right hh]) rfl rfl
  · rw [if_neg hh, applyWrites_nil, if_neg fun h => hh h.1]

theorem getD_padWrite (c : Bytes) (e i : Nat) :
    (applyWrites 0 c [padWrite e]).getD i 0 =
      if e ≤ i ∧ i < roundUp 4 e then 0 else c.getD i 0 := by
  have hend : e + (roundUp 4 e - e) = roundUp 4 e :=
    Nat.add_sub_cancel' (roundUp_ge (by decide : 0 < 4) e)
  have hfill : (List.replicate (roundUp 4 e - e) 0).getD (i - e) 0 = (0 : JByte) := by
    rw [List.getD_eq_getElem?_getD, List.getElem?_getD_replicate_default_eq]
  rw [padWrite, applyWrites_cons, applyWrites_nil, getD_overwrite, hfill, List.length_replicate,
    hend]

/-- What the writes for one table leave in a cell. -/
theorem getD_tableWrites (c : Bytes) (td : TableDirectory) (s i : Nat) :
    (applyWrites 0 c
        (copyWrites src name td s ++ [padWrite (s + tableLength name td)])).getD i 0 =
      if (isHead td ∧ s + 8 ≤ i ∧ i < s + 12) ∨
          (s + tableLength name td ≤ i ∧ i < roundUp 4 (s + tableLength name td)) then 0
      else if s ≤ i ∧ i < s + (tableData src name td).length then
        (tableData src name td).getD (i - s) 0
      else c.getD i 0 := by
  rw [applyWrites_append, getD_padWrite, getD_copyWrites, getD_overwrite]
  by_cases hp : s + tableLength name td ≤ i ∧ i < roundUp 4 (s + tableLength name td)
  · rw [if_pos hp, if_pos (Or.inr hp)]
  · rw [if_neg hp]
    exact (if_congr (or_iff_left hp) rfl rfl).symm

variable (src name)

/-- The table at the place `p` leaves no byte but 0 at `i`: it is cleared for the
adjustment, or the table has none there, or a 0. -/
def Vacant (p : Nat × TableDirectory) (i : Nat) : Prop :=
  (isHead p.2 ∧ p.1 + 8 ≤ i ∧ i < p.1 + 12) ∨ i < p.1 ∨
    (tableData src name p.2).getD (i - p.1) 0 = 0

/-- No table has a byte other than 0 where the adjustment is written. -/
def Cleared (tdl : List TableDirectory) : Prop :=
  ∀ a, HeadAt name tdl a → ∀ i, a + 8 ≤ i → i < a + 12 →
    ∀ p ∈ places name tdl, Vacant src name p i

theorem tableData_length_le (td : TableDirectory) :
    (tableData src name td).length ≤ tableLength name td := by
  unfold tableData tableLength
  by_cases hn : isName td
  · rw [if_pos hn, if_pos hn]
  · rw [if_neg hn, if_neg hn, tableBytes, slice_length]
    omega

variable {src name}

theorem getD_tableWrites_vacant {c : Bytes} {td : TableDirectory} {s i : Nat}
    (hv : Vacant src name (s, td) i) (h : c.getD i 0 = 0 ∨ Supplies src name td s i) :
    (applyWrites 0 c
      (copyWrites src name td s ++ [padWrite (s + tableLength name td)])).getD i 0 = 0 := by
  rw [getD_tableWrites]
  split_ifs with hclear hdata
  · rfl
  · rcases hv with hv | hv | hv
    · exact absurd (Or.inl hv) hclear
    · simp only at hv
      omega
    · exact hv
  · rcases h with h | h | h | h
    · exact h
    · exact absurd h hdata
    · exact absurd (Or.inl h) hclear
    · exact absurd (Or.inr h) hclear

/-- A byte of a table stands in front of the next table. -/
theorem getD_tableWrites_not_vacant (c : Bytes) {td : TableDirectory} {s i : Nat}
    (hv : ¬ Vacant src name (s, td) i) :
    i < roundUp 4 (s + tableLength name td) ∧ (applyWrites 0 c
      (copyWrites src name td s ++ [padWrite (s + tableLength name td)])).getD i 0 ≠ 0 := by
  rw [Vacant, not_or, not_or] at hv
  obtain ⟨hclear, hle, hne⟩ := hv
  simp only at hclear hle hne
  have hge := roundUp_ge (by decide : 0 < 4) (s + tableLength name td)
  have hlen := tableData_length_le src name td
  have hlt : i - s < (tableData src name td).length := by
    by_contra hout
    exact hne (List.getD_eq_default _ _ (Nat.le_of_not_lt hout))
  refine ⟨by omega, ?_⟩
  rw [getD_tableWrites, if_neg, if_pos ⟨by omega, by omega⟩]
  · exact hne
  · rintro (h | h)
    · exact hclear h
    · omega

/-- A cell is 0 after the loop when no table puts another byte there. -/
theorem getD_bodyWrites_eq_zero_iff {i : Nat} : ∀ {tds : List TableDirectory} {s : Nat}
    {c : Bytes}, (c.getD i 0 = 0 ∨ SuppliesFrom src name tds s i) →
    ((applyWrites 0 c (bodyWrites src name tds s)).getD i 0 = 0 ↔
      ∀ p ∈ placesFrom name tds s, Vacant src name p i) := by
  intro tds
  induction tds with
  | nil =>
    intro s c h
    exact iff_of_true (h.resolve_right id) fun p hp => (List.not_mem_nil hp).elim
  | cons td rest ih =>
    intro s c h
    rw [bodyWrites, applyWrites_append, placesFrom, List.forall_mem_cons]
    by_cases hv : Vacant src name (s, td) i
    · rw [and_iff_right hv]
      apply ih
      rcases h with h | h | h
      · exact Or.inl (getD_tableWrites_vacant hv (Or.inl h))
      · exact Or.inl (getD_tableWrites_vacant hv (Or.inr h))
      · exact Or.inr h
    · obtain ⟨hlt, hne⟩ := getD_tableWrites_not_vacant c hv
      have hrest : ¬ Covers (bodyWrites src name rest
          (roundUp 4 (s + tableLength name td))) i := by
        intro hcov
        have := (covers_bodyWrites.mp hcov).le
        omega
      rw [getD_applyWrites_outside 0 _ _ hrest]
      exact iff_of_false hne fun h => hv h.1

/-- With more than 8 bytes in `head` the cells are its own, or padding. -/
theorem cleared_of_long {tdl : List TableDirectory}
    (hlong : ∀ k, lastHead tdl = some k → 8 < (derefTable tdl k).length.toNat) :
    Cleared src name tdl := by
  intro a ha i h1 h2 p hp
  rcases ha.apart hlong hp with ⟨hh, hat⟩ | hbefore | hbehind
  · exact Or.inl ⟨hh, by omega, by omega⟩
  · have hlen := tableData_length_le src name p.2
    exact Or.inr (Or.inr (List.getD_eq_default _ _ (by omega)))
  · exact Or.inr (Or.inl (by omega))

end Cells

/-! ## The cells of the outcome -/

section Outcome

variable {src : Bytes} {xmlfile : XmlFile} {sfnt : JInt} {tdl : List TableDirectory}

theorem startOfTables_le_size (name : Bytes) (tdl : List TableDirectory) :
    startOfTables tdl ≤ fixedSize name tdl :=
  le_sizeFrom name (byOffset tdl) (startOfTables tdl)

theorem directoryBytes_length (src name : Bytes) (sfnt : JInt) (tdl : List TableDirectory)
    (p : Bytes) :
    12 + ((byTag (movedEntries src name sfnt tdl p)).flatMap entryBytes).length =
      startOfTables tdl := by
  rw [flatMap_length entryBytes_length, byTag_length, movedEntries_length, startOfTables]

section Agree

variable {name p q : Bytes} {n : Nat} (hn : fixedSize name tdl ≤ n)
variable (h : ∀ i < n, ¬ Supplied src name tdl i → p.getD i 0 = q.getD i 0)

include h

theorem headed_congr {i : Nat} (hlt : i < n) (hi : i < 12 ∨ ¬ Supplied src name tdl i) :
    (headed sfnt tdl p).getD i 0 = (headed sfnt tdl q).getD i 0 := by
  apply getD_overwrite_congr
  intro hno
  rw [offsetTableBytes_length] at hno
  apply h i hlt
  rcases hi with hi | hi
  · omega
  · exact hi

theorem copied_congr {i : Nat} (hlt : i < n) (hi : i < 12 ∨ startOfTables tdl ≤ i) :
    (copied src name sfnt tdl p).getD i 0 = (copied src name sfnt tdl q).getD i 0 := by
  apply getD_applyWrites_congr
  intro hno
  apply headed_congr h hlt
  rcases hi with hi | hi
  · exact Or.inl hi
  · refine Or.inr ?_
    intro hsup
    rcases hsup with hlt | hfrom
    · omega
    · exact hno (covers_bodyWrites.mpr hfrom)

include hn

theorem movedEntries_congr :
    movedEntries src name sfnt tdl p = movedEntries src name sfnt tdl q := by
  apply newEntries_congr _ _ hn
  intro i hi hlt hno
  apply headed_congr h hlt
  refine Or.inr ?_
  intro hsup
  rcases hsup with hlt | hfrom
  · omega
  · exact hno hfrom

theorem movedStore_congr : movedStore src name sfnt tdl p = movedStore src name sfnt tdl q := by
  rw [movedStore, movedStore, movedEntries_congr hn h]

theorem listed_congr {i : Nat} (hlt : i < n) :
    (listed src name sfnt tdl p).getD i 0 = (listed src name sfnt tdl q).getD i 0 := by
  rw [listed, listed, movedEntries_congr hn h]
  apply getD_overwrite_congr
  intro hno
  rw [directoryBytes_length] at hno
  apply copied_congr h hlt
  omega

theorem adjustment_congr :
    adjustment src name sfnt tdl p = adjustment src name sfnt tdl q := by
  rw [adjustment, adjustment]
  congr 1
  apply wordSum_slice_congr
  intro j hj
  exact listed_congr hn h (by omega)

theorem outcome_congr (k : Nat) {i : Nat} (hlt : i < n) :
    (outcome src name sfnt tdl p k).getD i 0 = (outcome src name sfnt tdl q k).getD i 0 := by
  rw [outcome, outcome, movedStore_congr hn h, adjustment_congr hn h]
  apply getD_overwrite_congr
  intro _
  exact listed_congr hn h hlt

end Agree

section Head

variable (src sfnt) {k : Nat} (p : Bytes)
variable (hfits : FitsAll xmlfile (byOffset tdl) (startOfTables tdl))

include hfits in
theorem movedStore_place {a : Nat} (ha : (a, k) ∈ refPlaces (builtName xmlfile) tdl) :
    (derefTable (movedStore src (builtName xmlfile) sfnt tdl p) k).offset.toNat = a := by
  apply offset_of_refPlaces hfits _ ha
  apply newEntries_placed
  exact List.forall₂_same.mpr fun e _ => ⟨rfl, rfl, rfl⟩

variable (hk : k < tdl.length) (hh : isHead (derefTable tdl k))

include hfits hk hh

/-- The place of the adjustment. -/
theorem movedStore_supplied :
    4 ∣ (derefTable (movedStore src (builtName xmlfile) sfnt tdl p) k).offset.toNat ∧
      ∀ i, (derefTable (movedStore src (builtName xmlfile) sfnt tdl p) k).offset.toNat + 8 ≤ i →
        i < (derefTable (movedStore src (builtName xmlfile) sfnt tdl p) k).offset.toNat + 12 →
        SuppliesFrom src (builtName xmlfile) (byOffset tdl) (startOfTables tdl) i := by
  obtain ⟨a, ha⟩ := exists_refPlace (builtName xmlfile) hk
  have hplace := mem_places_of_refPlaces ha
  rw [movedStore_place src sfnt p hfits ha]
  refine ⟨dvd_of_mem_places hplace, ?_⟩
  intro i h1 h2
  exact suppliesFrom_of_place hplace (Or.inr (Or.inl ⟨hh, h1, h2⟩))

/-- What the file held before stays where there is no byte. -/
theorem outcome_outside {i : Nat} (hi : ¬ Supplied src (builtName xmlfile) tdl i) :
    (outcome src (builtName xmlfile) sfnt tdl p k).getD i 0 = p.getD i 0 := by
  have hge : startOfTables tdl ≤ i := Nat.le_of_not_lt fun hlt => hi (Or.inl hlt)
  have h12 := startOfTables_ge tdl
  have hbody : ¬ Covers (bodyWrites src (builtName xmlfile) (byOffset tdl)
      (startOfTables tdl)) i := fun hcov => hi (Or.inr (covers_bodyWrites.mp hcov))
  obtain ⟨_, hall⟩ := movedStore_supplied src sfnt p hfits hk hh
  rw [outcome, getD_overwrite, if_neg, listed, getD_overwrite_outside, copied,
    getD_applyWrites_outside 0 _ _ hbody, headed, getD_overwrite_outside]
  · rw [offsetTableBytes_length]
    omega
  · rw [directoryBytes_length]
    exact Or.inr hge
  · intro hin
    rw [intBytes_length] at hin
    exact hi (Or.inr (hall i hin.1 (by omega)))

end Head

/-! ## Its length -/

section Length

variable (src xmlfile tdl)

/-- The end of what the run writes. -/
def writtenEnd : Nat :=
  max (startOfTables tdl)
    (reach (bodyWrites src (builtName xmlfile) (byOffset tdl) (startOfTables tdl)))

variable {src xmlfile tdl}

theorem lt_writtenEnd {i : Nat} (h : Supplied src (builtName xmlfile) tdl i) :
    i < writtenEnd src xmlfile tdl := by
  unfold writtenEnd
  rcases h with h | h
  · omega
  · have := lt_reach_of_covers (covers_bodyWrites.mpr h)
    omega

theorem supplied_writtenEnd :
    Supplied src (builtName xmlfile) tdl (writtenEnd src xmlfile tdl - 1) := by
  have h12 := startOfTables_ge tdl
  unfold writtenEnd
  by_cases hle : reach (bodyWrites src (builtName xmlfile) (byOffset tdl)
      (startOfTables tdl)) ≤ startOfTables tdl
  · rw [Nat.max_eq_left hle]
    exact Or.inl (by omega)
  · rw [Nat.max_eq_right (by omega)]
    exact Or.inr (covers_bodyWrites.mp (covers_of_reach (by omega)))

theorem listed_length (src : Bytes) (xmlfile : XmlFile) (sfnt : JInt)
    (tdl : List TableDirectory) (p : Bytes) :
    (listed src (builtName xmlfile) sfnt tdl p).length =
      max p.length (writtenEnd src xmlfile tdl) := by
  have hdir := directoryBytes_length src (builtName xmlfile) sfnt tdl p
  have h12 := startOfTables_ge tdl
  have hheader : (offsetTableBytes (offsetTableFor sfnt tdl.length)).length = 12 :=
    offsetTableBytes_length _
  have hcopied : (copied src (builtName xmlfile) sfnt tdl p).length =
      max (max p.length 12)
        (reach (bodyWrites src (builtName xmlfile) (byOffset tdl) (startOfTables tdl))) := by
    rw [copied, applyWrites_length, headed, overwrite_length, if_neg (by
      intro hnil
      rw [hnil] at hheader
      cases hheader), hheader]
  rw [listed, overwrite_length, hcopied, writtenEnd]
  by_cases hnil : (byTag (movedEntries src (builtName xmlfile) sfnt tdl p)).flatMap
      entryBytes = []
  · rw [if_pos hnil]
    rw [hnil, List.length_nil] at hdir
    omega
  · rw [if_neg hnil, hdir]
    omega

variable (src sfnt) {k : Nat} (p : Bytes)
variable (hfits : FitsAll xmlfile (byOffset tdl) (startOfTables tdl))
variable (hk : k < tdl.length) (hh : isHead (derefTable tdl k))

include hfits hk hh

theorem outcome_length : (outcome src (builtName xmlfile) sfnt tdl p k).length =
    max p.length (writtenEnd src xmlfile tdl) := by
  obtain ⟨_, hall⟩ := movedStore_supplied src sfnt p hfits hk hh
  have hlast := lt_writtenEnd (Or.inr (hall
    ((derefTable (movedStore src (builtName xmlfile) sfnt tdl p) k).offset.toNat + 11)
    (by omega) (by omega)))
  rw [outcome, overwrite_length_of_le, listed_length]
  rw [listed_length, intBytes_length]
  omega

omit hk hh

/-- Before the adjustment is written there are zeros in its place, when no table has
another byte there. -/
theorem listed_cleared_iff (hlast : lastHead tdl = some k) {a : Nat}
    (ha : (a, k) ∈ refPlaces (builtName xmlfile) tdl) :
    (∀ i, a + 8 ≤ i → i < a + 12 → (listed src (builtName xmlfile) sfnt tdl p).getD i 0 = 0) ↔
      Cleared src (builtName xmlfile) tdl := by
  obtain ⟨hk, hh⟩ := isHead_of_lastHead hlast
  have hat := movedStore_place src sfnt p hfits ha
  obtain ⟨_, hall⟩ := movedStore_supplied src sfnt p hfits hk hh
  rw [hat] at hall
  have hstart : startOfTables tdl ≤ a := le_of_mem_placesFrom (mem_places_of_refPlaces ha)
  have hdir := directoryBytes_length src (builtName xmlfile) sfnt tdl p
  -- the cells are as the loop left them
  have hcell : ∀ i, a + 8 ≤ i → i < a + 12 →
      ((listed src (builtName xmlfile) sfnt tdl p).getD i 0 = 0 ↔
        ∀ q ∈ places (builtName xmlfile) tdl, Vacant src (builtName xmlfile) q i) := by
    intro i h1 h2
    rw [listed, getD_overwrite_outside 0 _ _ _ (Or.inr (by omega))]
    exact getD_bodyWrites_eq_zero_iff (Or.inr (hall i h1 h2))
  constructor
  · rintro hzero b ⟨k', hlast', hb⟩ i h1 h2
    have hkk : k = k' := Option.some.inj (hlast.symm.trans hlast')
    rw [← hkk] at hb
    have hab : b = a := (movedStore_place src sfnt p hfits hb).symm.trans hat
    rw [hab] at h1 h2
    exact (hcell i h1 h2).mp (hzero i h1 h2)
  · intro hclear i h1 h2
    exact (hcell i h1 h2).mpr (hclear a ⟨k, hlast, ha⟩ i h1 h2)

/-- A content of the computed size sums up to the constant when no table has a byte
where the adjustment is written, and only then. -/
theorem wordSum_outcome (hlast : lastHead tdl = some k)
    (hlen : (outcome src (builtName xmlfile) sfnt tdl p k).length =
      fixedSize (builtName xmlfile) tdl) :
    wordSum (outcome src (builtName xmlfile) sfnt tdl p k) = 0xB1B0AFBA#32 ↔
      Cleared src (builtName xmlfile) tdl := by
  obtain ⟨hk, hh⟩ := isHead_of_lastHead hlast
  obtain ⟨a, ha⟩ := exists_refPlace (builtName xmlfile) hk
  have hat := movedStore_place src sfnt p hfits ha
  have hlist := listed_length src xmlfile sfnt tdl p
  rw [outcome_length src sfnt p hfits hk hh, ← hlist] at hlen
  obtain ⟨hdvd, hall⟩ := movedStore_supplied src sfnt p hfits hk hh
  rw [hat] at hdvd hall
  have hend := lt_writtenEnd (Or.inr (hall (a + 11) (by omega) (by omega)))
  have hfour : a + 8 + 4 ≤ (listed src (builtName xmlfile) sfnt tdl p).length := by omega
  have hsum (x w : JInt) : x - w + (0xB1B0AFBA#32 - x) = 0xB1B0AFBA#32 ↔ w = 0 := by
    have hring : x - w + (0xB1B0AFBA#32 - x) = 0xB1B0AFBA#32 - w := by ring
    rw [hring]
    exact sub_eq_self
  rw [outcome, hat, wordSum_overwrite (by omega) hfour, adjustment, slice_all hlen.le, hsum,
    intAt_eq_zero_iff hfour]
  exact listed_cleared_iff src sfnt p hfits hlast ha

end Length

end Outcome

/-! ## Two runs -/

section Runs

def loadedTables :
    JavaM (OffsetTable × List TableDirectory × Option Nat × RandomAccessFile) →
      List TableDirectory
  | .ok (_, tdl, _, _) => tdl
  | .error _ => []

/-- The entries the run works on. -/
@[irreducible] def sourceTables (src : RandomAccessFile) : List TableDirectory :=
  loadedTables (loadDirectory src)

theorem sourceTables_of_load {src src' : RandomAccessFile} {ot : OffsetTable}
    {tdl : List TableDirectory} {head : Option Nat}
    (h : loadDirectory src = .ok (ot, tdl, head, src')) : sourceTables src = tdl := by
  unfold sourceTables
  exact congrArg loadedTables h

variable (src : RandomAccessFile) (xmlfile : XmlFile)

/-- The size of the new font. -/
def newSize : Nat := fixedSize (builtName xmlfile) (sourceTables src)

/-- There is a byte of the new font at `i`. -/
def HasByte (i : Nat) : Prop := Supplied src.content (builtName xmlfile) (sourceTables src) i

/-- Two earlier contents the run leaves no trace of: they are no longer than the
new font, and where the font has no byte, they do not differ.  No table gets in the
way of the adjustment. -/
structure Traceless (p q : Bytes) : Prop where
  inside : ∀ i, HasByte src xmlfile i → i < newSize src xmlfile
  left : p.length ≤ newSize src xmlfile
  right : q.length ≤ newSize src xmlfile
  full : HasByte src xmlfile (newSize src xmlfile - 1) ∨
    (p.length = newSize src xmlfile ∧ q.length = newSize src xmlfile)
  agree : ∀ i < newSize src xmlfile, ¬ HasByte src xmlfile i → p.getD i 0 = q.getD i 0
  cleared : Cleared src.content (builtName xmlfile) (sourceTables src)

variable {src xmlfile}

/-- The lengths are right. -/
theorem lengths_iff {p q : Bytes} :
    (max p.length (writtenEnd src.content xmlfile (sourceTables src)) = newSize src xmlfile ∧
      max q.length (writtenEnd src.content xmlfile (sourceTables src)) = newSize src xmlfile) ↔
    (∀ i, HasByte src xmlfile i → i < newSize src xmlfile) ∧
      p.length ≤ newSize src xmlfile ∧ q.length ≤ newSize src xmlfile ∧
      (HasByte src xmlfile (newSize src xmlfile - 1) ∨
        (p.length = newSize src xmlfile ∧ q.length = newSize src xmlfile)) := by
  have hstart := startOfTables_le_size (builtName xmlfile) (sourceTables src)
  have h12 := startOfTables_ge (sourceTables src)
  have hsize : startOfTables (sourceTables src) ≤ newSize src xmlfile := hstart
  have hlast : HasByte src xmlfile (writtenEnd src.content xmlfile (sourceTables src) - 1) :=
    supplied_writtenEnd
  constructor
  · intro h
    obtain ⟨hp, hq⟩ := h
    refine ⟨?_, by omega, by omega, ?_⟩
    · intro i hi
      have := lt_writtenEnd hi
      omega
    · by_cases heq : writtenEnd src.content xmlfile (sourceTables src) = newSize src xmlfile
      · rw [heq] at hlast
        exact Or.inl hlast
      · exact Or.inr ⟨by omega, by omega⟩
  · intro h
    obtain ⟨hin, hp, hq, hfull⟩ := h
    have hle := hin _ hlast
    rcases hfull with hfull | hfull
    · have := lt_writtenEnd hfull
      omega
    · omega

/-- Whether a run returns, and all of its outcome but what it does not write, are
the same for every file it goes to. -/
theorem run_outcome {d d' : RandomAccessFile} (hd : d.Fills)
    (h : run src xmlfile d = .ok d') :
    FitsAll xmlfile (byOffset (sourceTables src)) (startOfTables (sourceTables src)) ∧
      ∃ sfnt k, lastHead (sourceTables src) = some k ∧
        ∀ e : RandomAccessFile, e.Fills → ∃ e', run src xmlfile e = .ok e' ∧
          e'.content =
            outcome src.content (builtName xmlfile) sfnt (sourceTables src) e.content k := by
  have hload := h
  rw [run] at hload
  obtain ⟨⟨ot, tdl, head, src'⟩, hload, _⟩ := bind_eq_ok hload
  rw [sourceTables_of_load hload]
  rcases run_cases xmlfile hload hd with ⟨k, hk, hfits, _, _, _⟩ | ⟨_, e, he⟩
  · have hlast : lastHead tdl = some k := by rw [← loadDirectory_lastHead hload, hk]
    refine ⟨hfits, ot.sfnt, k, hlast, ?_⟩
    intro e he
    rcases run_cases xmlfile hload he with ⟨k', hk', _, e', hrun, hout⟩ | ⟨hno, _⟩
    · rw [hk, Option.some.injEq] at hk'
      subst hk'
      exact ⟨e', hrun, hout⟩
    · rcases hno with hno | hno
      · rw [hk] at hno
        cases hno
      · exact absurd hfits hno
  · rw [he] at h
    cases h

/-- The size of the new font is what the variable `size` counts up to. -/
theorem run_size {d d' : RandomAccessFile} (h : run src xmlfile d = .ok d') :
    ∃ ot tdl head src' st, loadDirectory src = .ok (ot, tdl, head, src') ∧
      copyTables xmlfile (arraysSort (compareOffset tdl) (List.range tdl.length))
        { src := src'
          dst := writeHeader { d with pointer := 0 } (offsetTableFor ot.sfnt tdl.length)
          store := tdl
          size := BitVec.ofNat 32 (startOfTables tdl) } = .ok st ∧
      st.size.toNat = newSize src xmlfile := by
  have hload := h
  rw [run] at hload
  obtain ⟨⟨ot, tdl, head, src'⟩, hload, _⟩ := bind_eq_ok hload
  have hl := (loadDirectory_loaded hload).1
  have hbody := copyTables_start xmlfile src' d ot.sfnt hl.length_le
  rcases hbody with ⟨hfits, st, _, hrun, hsize, _⟩ | ⟨hno, _⟩
  · refine ⟨ot, tdl, head, src', st, hload, hrun, ?_⟩
    have hlt := hfits.sizeFrom_lt
    rw [hsize, newSize, sourceTables_of_load hload, fixedSize]
    exact toNat_ofNat_of_lt (by omega)
  · rcases run_writes xmlfile d hload with ⟨_, _, hfits, _⟩ | ⟨_, e, he⟩
    · exact absurd hfits hno
    · rw [he] at h
      cases h

theorem run_length {d d' : RandomAccessFile} (hd : d.Fills) (h : run src xmlfile d = .ok d') :
    d'.content.length =
      max d.content.length (writtenEnd src.content xmlfile (sourceTables src)) := by
  obtain ⟨hfits, sfnt, k, hlast, hall⟩ := run_outcome hd h
  obtain ⟨hk, hh⟩ := isHead_of_lastHead hlast
  obtain ⟨e, he, hout⟩ := hall d hd
  rw [h] at he
  cases he
  rw [hout, outcome_length src.content sfnt d.content hfits hk hh]

variable {d₁ d₂ : RandomAccessFile}

/-- Two runs on one source leave the same file, namely the new font of the computed
size, for which `CheckSum` recomputes the sum that was stored, if and only if the
earlier contents leave no trace and the adjustment stands alone. -/
theorem run_same_iff (h₁ : d₁.Fills) (h₂ : d₂.Fills) {d₁' d₂' : RandomAccessFile}
    (hrun₁ : run src xmlfile d₁ = .ok d₁') (hrun₂ : run src xmlfile d₂ = .ok d₂') :
    (d₁'.content = d₂'.content ∧ d₁'.content.length = newSize src xmlfile ∧
      wordSum d₁'.content = 0xB1B0AFBA#32) ↔
    Traceless src xmlfile d₁.content d₂.content := by
  obtain ⟨hfits, sfnt, k, hlast, hall⟩ := run_outcome h₁ hrun₁
  obtain ⟨hk, hh⟩ := isHead_of_lastHead hlast
  have hout₁ : d₁'.content =
      outcome src.content (builtName xmlfile) sfnt (sourceTables src) d₁.content k := by
    obtain ⟨e, he, hout⟩ := hall d₁ h₁
    rw [hrun₁] at he
    cases he
    exact hout
  have hout₂ : d₂'.content =
      outcome src.content (builtName xmlfile) sfnt (sourceTables src) d₂.content k := by
    obtain ⟨e, he, hout⟩ := hall d₂ h₂
    rw [hrun₂] at he
    cases he
    exact hout
  have hlen₁ := run_length h₁ hrun₁
  have hlen₂ := run_length h₂ hrun₂
  constructor
  · intro h
    obtain ⟨hsame, hsize, hsum⟩ := h
    obtain ⟨hin, hl, hr, hfull⟩ := lengths_iff.mp
      ⟨hlen₁.symm.trans hsize, hlen₂.symm.trans (by rw [← hsame, hsize])⟩
    rw [hout₁] at hsum hsize
    refine ⟨hin, hl, hr, hfull, ?_,
      (wordSum_outcome src.content sfnt d₁.content hfits hlast hsize).mp hsum⟩
    intro i _ hi
    rw [← outcome_outside src.content sfnt d₁.content hfits hk hh hi, ← hout₁, hsame, hout₂]
    exact outcome_outside src.content sfnt d₂.content hfits hk hh hi
  · intro h
    obtain ⟨hsize₁, hsize₂⟩ := lengths_iff.mpr ⟨h.inside, h.left, h.right, h.full⟩
    rw [hsize₁] at hlen₁
    rw [hsize₂] at hlen₂
    refine ⟨?_, hlen₁, ?_⟩
    · refine ext_getD 0 (hlen₁.trans hlen₂.symm) fun i hi => ?_
      rw [hlen₁] at hi
      rw [hout₁, hout₂]
      exact outcome_congr (Nat.le_refl _) h.agree k hi
    · rw [hout₁] at hlen₁ ⊢
      exact (wordSum_outcome src.content sfnt d₁.content hfits hlast hlen₁).mpr h.cleared

end Runs

/-! ## Fonts -/

section Fonts

theorem suppliesFrom_iff {src name : Bytes} {i : Nat} : ∀ {tds : List TableDirectory} {s : Nat},
    (∀ td ∈ tds, InRange src td) →
    (SuppliesFrom src name tds s i ↔ s ≤ i ∧ i < sizeFrom name tds s) := by
  intro tds
  induction tds with
  | nil =>
    intro s _
    refine iff_of_false id ?_
    rw [sizeFrom]
    omega
  | cons td rest ih =>
    intro s hin
    have hd := hin td List.mem_cons_self
    have hlen := tableData_length name hd
    have hge := roundUp_ge (by decide : 0 < 4) (s + tableLength name td)
    have hle := le_sizeFrom name rest (roundUp 4 (s + tableLength name td))
    have hown : Supplies src name td s i ↔
        s ≤ i ∧ i < roundUp 4 (s + tableLength name td) := by
      have h12 : isHead td → 12 ≤ tableLength name td := head_le_tableLength name hd
      unfold Supplies
      rw [hlen]
      constructor
      · intro h
        rcases h with h | ⟨hh, h⟩ | h
        · omega
        · have := h12 hh
          omega
        · omega
      · intro h
        omega
    rw [SuppliesFrom, sizeFrom, hown, ih fun t ht => hin t (List.mem_cons_of_mem td ht)]
    omega

variable {src : RandomAccessFile} {xmlfile : XmlFile}
variable (hf : src.Fills) (hp : src.pointer = 0) (hfont : isFont src.content)
variable (hw : WellFormed src.content)

include hf hp hfont hw

theorem sourceTables_eq : sourceTables src = kept src.content := by
  obtain ⟨head, src', hload, _⟩ := loadDirectory_eq hf hp hfont hw.directory_le
  exact sourceTables_of_load hload

/-- Every position of the new font has a byte. -/
theorem hasByte_iff {i : Nat} : HasByte src xmlfile i ↔ i < newSize src xmlfile := by
  have hle := startOfTables_le_size (builtName xmlfile) (kept src.content)
  unfold fixedSize at hle
  rw [HasByte, newSize, fixedSize, sourceTables_eq hf hp hfont hw, Supplied,
    suppliesFrom_iff fun td htd => kept_inRange hw htd]
  omega

/-- The new font, with the rest of what the file held. -/
theorem run_length_of_font {d d' : RandomAccessFile} (hd : d.Fills)
    (h : run src xmlfile d = .ok d') :
    d'.content.length = max d.content.length (newSize src xmlfile) := by
  rw [run_length hd h]
  have hstart := startOfTables_le_size (builtName xmlfile) (sourceTables src)
  have h12 := startOfTables_ge (sourceTables src)
  have hsize : 12 ≤ newSize src xmlfile := h12.trans hstart
  have hlast : HasByte src xmlfile (writtenEnd src.content xmlfile (sourceTables src) - 1) :=
    supplied_writtenEnd
  have hle := (hasByte_iff hf hp hfont hw).mp hlast
  have hbyte : HasByte src xmlfile (newSize src xmlfile - 1) :=
    (hasByte_iff hf hp hfont hw).mpr (by omega)
  have hge := lt_writtenEnd hbyte
  omega

/-- Whatever the file held, the new font is at its start. -/
theorem run_font_append {d d' : RandomAccessFile} (hd : d.Fills)
    (h : run src xmlfile d = .ok d') :
    ∃ (font : Font) (rest : Bytes), font.tables = tablesOf src.content (builtName xmlfile) ∧
      font.size = newSize src xmlfile ∧ d'.content = font.bytes ++ rest := by
  obtain ⟨_, sfnt, k, _, hall⟩ := run_outcome hd h
  have hempty : RandomAccessFile.Fills { d with content := [] } := hd.of_schedule rfl
  obtain ⟨e, he, hout⟩ := hall _ hempty
  obtain ⟨e', he', hout'⟩ := hall d hd
  rw [h] at he'
  cases he'
  obtain ⟨font, _, htables, hbytes, _⟩ := run_font hf hp hempty rfl hw he
  have hsize : font.size = newSize src xmlfile := by
    rw [← font.bytes_length, ← hbytes, run_length_of_font hf hp hfont hw hempty he]
    exact Nat.zero_max (newSize src xmlfile)
  have hlen := run_length_of_font hf hp hfont hw hd h
  refine ⟨font, d'.content.drop font.size, htables, hsize, ?_⟩
  have htake : d'.content.take font.size = font.bytes := by
    have hlong : (d'.content.take font.size).length = font.size := by
      rw [List.length_take]
      omega
    refine ext_getD 0 (hlong.trans font.bytes_length.symm) fun i hi => ?_
    rw [hlong] at hi
    have hcell : (d'.content.take font.size).getD i 0 = d'.content.getD i 0 := by
      rw [List.getD_eq_getElem?_getD, List.getElem?_take_of_lt hi,
        ← List.getD_eq_getElem?_getD]
    rw [hcell, hout', ← hbytes, hout]
    rw [hsize] at hi
    refine outcome_congr (Nat.le_refl _) (fun j hj hno => ?_) k hi
    exact absurd ((hasByte_iff hf hp hfont hw).mpr hj) hno
  rw [← htake, List.take_append_drop]

/-- For a font it is the length alone that counts. -/
theorem traceless_iff {p q : Bytes} : Traceless src xmlfile p q ↔
    p.length ≤ newSize src xmlfile ∧ q.length ≤ newSize src xmlfile := by
  constructor
  · intro h
    exact ⟨h.left, h.right⟩
  · intro h
    obtain ⟨hl, hr⟩ := h
    have hstart := startOfTables_le_size (builtName xmlfile) (sourceTables src)
    have h12 := startOfTables_ge (sourceTables src)
    have hsize : 12 ≤ newSize src xmlfile := h12.trans hstart
    constructor
    · intro i hi
      exact (hasByte_iff hf hp hfont hw).mp hi
    · exact hl
    · exact hr
    · exact Or.inl ((hasByte_iff hf hp hfont hw).mpr (by omega))
    · intro i hi hno
      exact absurd ((hasByte_iff hf hp hfont hw).mpr hi) hno
    · apply cleared_of_long
      intro k hk
      obtain ⟨hlt, hh⟩ := isHead_of_lastHead hk
      rw [sourceTables_eq hf hp hfont hw] at hlt hh ⊢
      have hin := kept_inRange hw (mem_byOffset.mpr (derefTable_mem hlt))
      have h12 := hin.head hh
      omega

end Fonts

/-! ## A font without names -/

section Example

open CheckSum

theorem wellFormed_headFont : WellFormed (headFont 0 0 []) := by
  have hdir := directory_headFont 0 0 []
  have hcheck := checkable_headFont 0 0 []
  constructor
  · exact hcheck.directory_le
  · rw [hdir]
    exact List.nodup_singleton _
  · exact hcheck.range
  · refine ⟨headEntry 0, ?_, toTag_eq_head.mpr rfl, Nat.le_refl 54⟩
    rw [hdir]
    exact List.mem_singleton_self _

theorem kept_headFont : kept (headFont 0 0 []) = [headEntry 0] := by
  rw [kept, directory_headFont]
  rfl

theorem sizeFrom_headEntry (name : Bytes) : sizeFrom name (byOffset [headEntry 0]) 28 = 84 := by
  have hsort : byOffset [headEntry 0] = [headEntry 0] := rfl
  have hlen : tableLength name (headEntry 0) = 54 := rfl
  rw [hsort, sizeFrom, sizeFrom, hlen]
  rfl

theorem newSize_headFont (xmlfile : XmlFile) :
    newSize (openFile (headFont 0 0 []) filling) xmlfile = 84 := by
  have htables : sourceTables (openFile (headFont 0 0 []) filling) = [headEntry 0] := by
    rw [sourceTables_eq (openFile_fills (headFont 0 0 [])) rfl
      (checkable_headFont 0 0 []).isFont wellFormed_headFont]
    exact kept_headFont
  rw [newSize, htables]
  exact sizeFrom_headEntry (builtName xmlfile)

theorem run_headFont {d : RandomAccessFile} (hd : d.Fills) :
    ∃ d', run (openFile (headFont 0 0 []) filling) emptyXml d = .ok d' := by
  have hw := wellFormed_headFont
  obtain ⟨head, src', hload, hnone⟩ := loadDirectory_eq (openFile_fills (headFont 0 0 [])) rfl
    (checkable_headFont 0 0 []).isFont hw.directory_le
  have hkept : kept (openFile (headFont 0 0 []) filling).content = [headEntry 0] := kept_headFont
  have hhead : isHead (headEntry 0) := toTag_eq_head.mpr rfl
  rw [hkept] at hload hnone
  rcases run_cases emptyXml hload hd with ⟨_, _, _, d', hrun, _⟩ | ⟨hno, _⟩
  · exact ⟨d', hrun⟩
  · exfalso
    rcases hno with hno | hno
    · exact hnone hno _ (List.mem_singleton_self _) hhead
    · apply hno
      have hstart : startOfTables [headEntry 0] = 28 := rfl
      rw [hstart]
      apply fitsAll_of
      · intro td htd
        rw [mem_byOffset, List.mem_singleton] at htd
        rw [htd]
        exact (if_neg (by decide)).mpr ⟨by decide, by decide⟩
      · intro td htd _
        rw [mem_byOffset, List.mem_singleton] at htd
        rw [htd]
        show 12 ≤ 54
        omega
      · rw [sizeFrom_headEntry]
        omega

/-- Into a file of the right length. -/
theorem run_same_iff_overwritten : ∃ d₁' d₂',
    run (openFile (headFont 0 0 []) filling) emptyXml (openFile [] filling) = .ok d₁' ∧
      run (openFile (headFont 0 0 []) filling) emptyXml
        (openFile (List.replicate 84 7) filling) = .ok d₂' ∧
      d₁'.content = d₂'.content ∧ d₁'.content.length = 84 ∧
      wordSum d₁'.content = 0xB1B0AFBA#32 := by
  obtain ⟨d₁', h₁⟩ := run_headFont (openFile_fills [])
  obtain ⟨d₂', h₂⟩ := run_headFont (openFile_fills (List.replicate 84 7))
  have hsize := newSize_headFont emptyXml
  have htrace : Traceless (openFile (headFont 0 0 []) filling) emptyXml []
      (List.replicate 84 7) := by
    rw [traceless_iff (openFile_fills (headFont 0 0 [])) rfl
      (checkable_headFont 0 0 []).isFont wellFormed_headFont, hsize]
    exact ⟨by decide, by decide⟩
  obtain ⟨hsame, hlen, hsum⟩ :=
    (run_same_iff (openFile_fills []) (openFile_fills _) h₁ h₂).mpr htrace
  exact ⟨d₁', d₂', h₁, h₂, hsame, by rw [hlen, hsize], hsum⟩

/-- What follows the new font stays. -/
theorem run_leaves_rest : ∃ d₁' d₂',
    run (openFile (headFont 0 0 []) filling) emptyXml (openFile [] filling) = .ok d₁' ∧
      run (openFile (headFont 0 0 []) filling) emptyXml
        (openFile (List.replicate 100 7) filling) = .ok d₂' ∧
      newSize (openFile (headFont 0 0 []) filling) emptyXml = 84 ∧
      d₁'.content ≠ d₂'.content ∧ d₁'.content.length = 84 ∧ d₂'.content.length = 100 := by
  obtain ⟨d₁', h₁⟩ := run_headFont (openFile_fills [])
  obtain ⟨d₂', h₂⟩ := run_headFont (openFile_fills (List.replicate 100 7))
  have hsize := newSize_headFont emptyXml
  have hlength {d d' : RandomAccessFile} (hd : d.Fills)
      (h : run (openFile (headFont 0 0 []) filling) emptyXml d = .ok d') :
      d'.content.length = max d.content.length 84 := by
    rw [← hsize]
    exact run_length_of_font (openFile_fills (headFont 0 0 [])) rfl
      (checkable_headFont 0 0 []).isFont wellFormed_headFont hd h
  have hlen₁ : d₁'.content.length = 84 := hlength (openFile_fills []) h₁
  have hlen₂ : d₂'.content.length = 100 := hlength (openFile_fills (List.replicate 100 7)) h₂
  refine ⟨d₁', d₂', h₁, h₂, hsize, ?_, hlen₁, hlen₂⟩
  intro hsame
  rw [hsame, hlen₂] at hlen₁
  omega

end Example

end FixName
end Otf
end I18nZh
