import I18nZh.Otf.FixOutput

/-!
# The places of the tables

Where the loop of `run` puts the tables, and at which of these places it writes the
adjustment.  Of several entries `head` the last one the directory has counts.
-/

namespace I18nZh
namespace Otf
namespace FixName

open Java Storage BigEndian RandomAccessFile Tookit Writes Layout

/-! ## Where the tables begin -/

theorem startOfTables_ge (tdl : List TableDirectory) : 12 ≤ startOfTables tdl :=
  Nat.le_add_right 12 _

theorem startOfTables_dvd (tdl : List TableDirectory) : 4 ∣ startOfTables tdl := by
  unfold startOfTables
  omega

/-! ## Places -/

/-- The entries with the places their tables get. -/
def placesFrom (name : Bytes) : List TableDirectory → Nat → List (Nat × TableDirectory)
  | [], _ => []
  | td :: rest, s => (s, td) :: placesFrom name rest (roundUp 4 (s + tableLength name td))

def places (name : Bytes) (tdl : List TableDirectory) : List (Nat × TableDirectory) :=
  placesFrom name (byOffset tdl) (startOfTables tdl)

/-- The places with the references the entries are found by. -/
def refPlaces (name : Bytes) (tdl : List TableDirectory) : List (Nat × Nat) :=
  ((places name tdl).map Prod.fst).zip (arraysSort (compareOffset tdl) (List.range tdl.length))

/-- The last `head` of the directory. -/
def lastHead (tdl : List TableDirectory) : Option Nat :=
  ((List.range tdl.length).filter fun k => isHead (derefTable tdl k)).getLast?

/-- The last `head` has its place at `a`. -/
def HeadAt (name : Bytes) (tdl : List TableDirectory) (a : Nat) : Prop :=
  ∃ k, lastHead tdl = some k ∧ (a, k) ∈ refPlaces name tdl

/-- The entry of the output for a table at its place. -/
def Placed (name : Bytes) (p : Nat × TableDirectory) (e : TableDirectory) : Prop :=
  e.tag = p.2.tag ∧ e.offset = BitVec.ofNat 32 p.1 ∧
    e.length = BitVec.ofNat 32 (tableLength name p.2)

theorem placesFrom_map_snd (name : Bytes) : ∀ (tds : List TableDirectory) (s : Nat),
    (placesFrom name tds s).map Prod.snd = tds := by
  intro tds
  induction tds with
  | nil => intro s; rfl
  | cons td rest ih =>
    intro s
    rw [placesFrom, List.map_cons, ih]

theorem le_of_mem_placesFrom {name : Bytes} : ∀ {tds : List TableDirectory} {s : Nat}
    {p : Nat × TableDirectory}, p ∈ placesFrom name tds s → s ≤ p.1 := by
  intro tds
  induction tds with
  | nil =>
    intro s p h
    cases h
  | cons td rest ih =>
    intro s p h
    have hge := roundUp_ge (by decide : 0 < 4) (s + tableLength name td)
    rcases List.mem_cons.mp h with rfl | h
    · exact Nat.le_refl s
    · have := ih h
      omega

theorem mem_of_mem_places {name : Bytes} {tdl : List TableDirectory} {p : Nat × TableDirectory}
    (h : p ∈ places name tdl) : p.2 ∈ tdl := by
  have hmem := List.mem_map_of_mem (f := Prod.snd) h
  unfold places at hmem
  rw [placesFrom_map_snd] at hmem
  exact mem_byOffset.mp hmem

theorem dvd_of_mem_placesFrom {name : Bytes} : ∀ {tds : List TableDirectory} {s : Nat}
    {p : Nat × TableDirectory}, 4 ∣ s → p ∈ placesFrom name tds s → 4 ∣ p.1 := by
  intro tds
  induction tds with
  | nil =>
    intro s p _ h
    cases h
  | cons td rest ih =>
    intro s p hs h
    rcases List.mem_cons.mp h with rfl | h
    · exact hs
    · exact ih (dvd_roundUp 4 _) h

theorem dvd_of_mem_places {name : Bytes} {tdl : List TableDirectory} {p : Nat × TableDirectory}
    (h : p ∈ places name tdl) : 4 ∣ p.1 := dvd_of_mem_placesFrom (startOfTables_dvd tdl) h

/-- A table ends, filled up, before the later ones begin. -/
theorem placesFrom_pairwise (name : Bytes) : ∀ (tds : List TableDirectory) (s : Nat),
    (placesFrom name tds s).Pairwise fun p q => roundUp 4 (p.1 + tableLength name p.2) ≤ q.1 := by
  intro tds
  induction tds with
  | nil => intro s; exact List.Pairwise.nil
  | cons td rest ih =>
    intro s
    refine List.pairwise_cons.mpr ⟨?_, ih _⟩
    intro q hq
    exact le_of_mem_placesFrom hq

theorem placesFrom_fits {xmlfile : XmlFile} : ∀ {tds : List TableDirectory} {s : Nat},
    FitsAll xmlfile tds s → ∀ p ∈ placesFrom (builtName xmlfile) tds s,
      p.1 < 2 ^ 31 ∧ Ready xmlfile p.2 p.1 := by
  intro tds
  induction tds with
  | nil =>
    intro s _ p hp
    cases hp
  | cons td rest ih =>
    intro s h p hp
    rcases List.mem_cons.mp hp with rfl | hp
    · exact ⟨h.1, h.2.1⟩
    · exact ih h.2.2 p hp

theorem newEntries_placed {src name : Bytes} : ∀ {tds : List TableDirectory} {s : Nat} {c : Bytes}
    {es : List TableDirectory}, List.Forall₂ SameRange es (newEntries src name tds s c) →
    List.Forall₂ (Placed name) (placesFrom name tds s) es := by
  intro tds
  induction tds with
  | nil =>
    intro s c es h
    rw [newEntries, List.forall₂_nil_right_iff] at h
    rw [h]
    exact List.Forall₂.nil
  | cons td rest ih =>
    intro s c es h
    rw [newEntries] at h
    cases h with
    | cons hab hrest =>
      obtain ⟨htag, hoff, hlen⟩ := hab
      exact List.Forall₂.cons ⟨htag, hoff, hlen⟩ (ih hrest)

/-! ## The references -/

section References

variable {name : Bytes} {tdl : List TableDirectory}

theorem places_length : (places name tdl).length = tdl.length := by
  rw [← List.length_map (f := Prod.snd), places, placesFrom_map_snd, byOffset_length]

variable (name tdl) in
theorem refPlaces_map_snd :
    (refPlaces name tdl).map Prod.snd =
      arraysSort (compareOffset tdl) (List.range tdl.length) := by
  apply List.map_snd_zip
  rw [arraysSort_length, List.length_range, List.length_map, places_length]

theorem refPlaces_map :
    (refPlaces name tdl).map (Prod.map id (derefTable tdl)) = places name tdl := by
  rw [refPlaces, ← List.zip_map_right, values_byOffset, ← placesFrom_map_snd name (byOffset tdl)]
  exact (List.zip_of_prod rfl rfl).symm

theorem mem_places_of_refPlaces {a k : Nat} (h : (a, k) ∈ refPlaces name tdl) :
    (a, derefTable tdl k) ∈ places name tdl := by
  rw [← refPlaces_map]
  exact List.mem_map_of_mem h

/-- Every entry has a place. -/
theorem exists_refPlace (name : Bytes) {k : Nat} (hk : k < tdl.length) :
    ∃ a, (a, k) ∈ refPlaces name tdl := by
  have hmem := (mem_sort_offset tdl).mpr hk
  rw [← refPlaces_map_snd name tdl] at hmem
  obtain ⟨⟨a, k'⟩, hin, rfl⟩ := List.mem_map.mp hmem
  exact ⟨a, hin⟩

/-- A reference leads to an entry for its place, after the update. -/
theorem placed_of_refPlaces {es : List TableDirectory}
    (hplaced : List.Forall₂ (Placed name) (places name tdl) es) {a k : Nat}
    (h : (a, k) ∈ refPlaces name tdl) :
    Placed name (a, derefTable tdl k) (derefTable (setEntries tdl
      (arraysSort (compareOffset tdl) (List.range tdl.length)) es) k) := by
  have hes : es.length = tdl.length := by rw [← hplaced.length_eq, places_length]
  rw [← refPlaces_map, ← map_sorted tdl hes, ← refPlaces_map_snd name tdl, List.map_map,
    List.forall₂_map_left_iff, List.forall₂_map_right_iff, List.forall₂_same,
    refPlaces_map_snd] at hplaced
  exact hplaced (a, k) h

/-- The entry has the offset of its place. -/
theorem offset_of_refPlaces {xmlfile : XmlFile} {es : List TableDirectory}
    (hfits : FitsAll xmlfile (byOffset tdl) (startOfTables tdl))
    (hplaced : List.Forall₂ (Placed (builtName xmlfile)) (places (builtName xmlfile) tdl) es)
    {a k : Nat} (h : (a, k) ∈ refPlaces (builtName xmlfile) tdl) :
    (derefTable (setEntries tdl
      (arraysSort (compareOffset tdl) (List.range tdl.length)) es) k).offset.toNat = a := by
  obtain ⟨_, hoff, _⟩ := placed_of_refPlaces hplaced h
  have hlt : a < 2 ^ 31 := (placesFrom_fits hfits _ (mem_places_of_refPlaces h)).1
  rw [hoff]
  exact toNat_ofNat_of_lt (by omega)

end References

/-! ## The last `head` -/

theorem derefTable_mem {tdl : List TableDirectory} {k : Nat} (h : k < tdl.length) :
    derefTable tdl k ∈ tdl := by
  rw [derefTable, List.getD_eq_getElem _ _ h]
  exact List.getElem_mem h

theorem isHead_of_lastHead {tdl : List TableDirectory} {k : Nat} (h : lastHead tdl = some k) :
    k < tdl.length ∧ isHead (derefTable tdl k) := by
  obtain ⟨hmem, hhead⟩ := List.mem_filter.mp (List.mem_of_getLast? h)
  exact ⟨List.mem_range.mp hmem, of_decide_eq_true hhead⟩

theorem lastHead_append (tdl : List TableDirectory) (td : TableDirectory) :
    lastHead (tdl ++ [td]) = if isHead td then some tdl.length else lastHead tdl := by
  have hold : ((List.range tdl.length).filter fun k => isHead (derefTable (tdl ++ [td]) k)) =
      (List.range tdl.length).filter fun k => isHead (derefTable tdl k) := by
    refine List.filter_congr fun k hk => ?_
    rw [derefTable, derefTable, List.getD_append _ _ _ _ (List.mem_range.mp hk)]
  have hnew : derefTable (tdl ++ [td]) tdl.length = td := by
    rw [derefTable, List.getD_append_right _ _ _ _ (Nat.le_refl _), Nat.sub_self]
    rfl
  unfold lastHead
  rw [List.length_append, List.length_singleton, List.range_succ, List.filter_append, hold]
  by_cases hh : isHead td
  · rw [if_pos hh, List.filter_cons_of_pos (by rw [hnew]; exact decide_eq_true hh),
      List.filter_nil, List.getLast?_concat]
  · rw [if_neg hh, List.filter_cons_of_neg (by rw [hnew]; exact fun h => hh (of_decide_eq_true h)),
      List.filter_nil, List.append_nil]

/-- A last `head` that reaches into the adjustment keeps it away from the other
tables. -/
theorem HeadAt.apart {name : Bytes} {tdl : List TableDirectory} {a : Nat}
    (h : HeadAt name tdl a)
    (hlong : ∀ k, lastHead tdl = some k → 8 < (derefTable tdl k).length.toNat)
    {p : Nat × TableDirectory} (hp : p ∈ places name tdl) :
    (isHead p.2 ∧ p.1 = a) ∨ p.1 + tableLength name p.2 ≤ a + 8 ∨ a + 12 ≤ p.1 := by
  obtain ⟨k, hlast, hmem⟩ := h
  have hplace := mem_places_of_refPlaces hmem
  obtain ⟨_, hhead⟩ := isHead_of_lastHead hlast
  have h8 := hlong k hlast
  have h4 : 4 ∣ a := dvd_of_mem_places hplace
  have hlen : tableLength name (derefTable tdl k) = (derefTable tdl k).length.toNat :=
    if_neg fun hn => isName_not_isHead hn hhead
  by_cases heq : (a, derefTable tdl k) = p
  · rw [← heq]
    exact Or.inl ⟨hhead, rfl⟩
  · rcases pairwise_or (placesFrom_pairwise name _ _) hplace hp heq with hcase | hcase
    · simp only [hlen, roundUp] at hcase
      exact Or.inr (Or.inr (by omega))
    · have hge := roundUp_ge (by decide : 0 < 4) (p.1 + tableLength name p.2)
      simp only at hcase
      exact Or.inr (Or.inl (by omega))

/-- `head` is the last one of the directory. -/
theorem readDirectory_lastHead : ∀ (n : Nat) (src : RandomAccessFile) (buf : Bytes)
    (tdl : List TableDirectory) (r : List TableDirectory × Option Nat × RandomAccessFile),
    readDirectory n src buf tdl (lastHead tdl) = .ok r → r.2.1 = lastHead r.1 := by
  intro n
  induction n with
  | zero =>
    intro src buf tdl r h
    cases h
    rfl
  | succ n ih =>
    intro src buf tdl r h
    rw [readDirectory] at h
    obtain ⟨⟨_, buf', src'⟩, _, h⟩ := bind_eq_ok h
    obtain ⟨td, _, h⟩ := bind_eq_ok h
    by_cases hd : isDSIG td
    · rw [if_pos hd] at h
      exact ih src' buf' tdl r h
    · rw [if_neg hd, ← lastHead_append] at h
      exact ih src' buf' _ r h

theorem loadDirectory_lastHead {src src' : RandomAccessFile} {ot : OffsetTable}
    {tdl : List TableDirectory} {head : Option Nat}
    (h : loadDirectory src = .ok (ot, tdl, head, src')) : head = lastHead tdl := by
  rw [loadDirectory] at h
  obtain ⟨⟨_, buf', src1⟩, _, h⟩ := bind_eq_ok h
  obtain ⟨ot₁, _, h⟩ := bind_eq_ok h
  by_cases hs : ot₁.sfnt ≠ 0x00010000#32 ∧ ot₁.sfnt ≠ 0x4F54544F#32
  · rw [if_pos hs] at h
    cases h
  · rw [if_neg hs] at h
    obtain ⟨⟨tdl', head', src2⟩, hdir, h⟩ := bind_eq_ok h
    cases h
    exact readDirectory_lastHead _ _ _ [] _ hdir

end FixName
end Otf
end I18nZh
