import I18nZh.Lib.Writes
import I18nZh.Otf.FixName
import I18nZh.Otf.Font
import I18nZh.Otf.NamePack

/-!
# The writes of `FixName`

When `run` returns, and what it has written then: the content of the output file
is what it was before, changed by a list of writes.
-/

namespace I18nZh
namespace Otf
namespace FixName

open Java Storage BigEndian RandomAccessFile Tookit Writes Layout

/-! ## Padding -/

theorem tmod_four_iff (n : Nat) : (BitVec.ofNat 32 n).toInt.tmod 4 = 0 ↔ 4 ∣ n := by
  rw [← Int.dvd_iff_tmod_eq_zero, BitVec.toInt_eq_toNat_cond, BitVec.toNat_ofNat]
  split <;> omega

theorem padLoop_eq : ∀ (k fuel e : Nat) (dst : RandomAccessFile), e + k = roundUp 4 e → k < fuel →
    ∃ dst', padLoop fuel dst (BitVec.ofNat 32 e) = .ok (dst', BitVec.ofNat 32 (roundUp 4 e)) ∧
      dst'.content = overwrite 0 dst.content dst.pointer (List.replicate k 0) ∧
      dst'.schedule = dst.schedule := by
  intro k
  induction k with
  | zero =>
    intro fuel e dst he hf
    obtain ⟨fuel, rfl⟩ : ∃ n, fuel = n + 1 := ⟨fuel - 1, by omega⟩
    have h4 : 4 ∣ e := by
      rw [Nat.add_zero] at he
      rw [he]
      exact dvd_roundUp 4 e
    have hmod := (tmod_four_iff e).mpr h4
    refine ⟨dst, ?_, by rw [List.replicate_zero, overwrite_nil], rfl⟩
    rw [padLoop, if_neg (not_not.mpr hmod), roundUp_of_dvd (by decide) h4]
    rfl
  | succ k ih =>
    intro fuel e dst he hf
    obtain ⟨fuel, rfl⟩ : ∃ n, fuel = n + 1 := ⟨fuel - 1, by omega⟩
    have h4 : ¬ 4 ∣ e := by
      intro h
      rw [roundUp_of_dvd (by decide) h] at he
      omega
    have hround : roundUp 4 (e + 1) = roundUp 4 e := by
      unfold roundUp at he ⊢
      omega
    have hnext : BitVec.ofNat 32 e + 1 = BitVec.ofNat 32 (e + 1) := add_ofNat e 1
    obtain ⟨dst', hrun, hc, hs⟩ := ih fuel (e + 1) (dst.write [0]) (by rw [hround]; omega)
      (by omega)
    rw [hround] at hrun
    refine ⟨dst', ?_, ?_, hs⟩
    · rw [padLoop, if_pos (mt (tmod_four_iff e).mp h4), hnext]
      exact hrun
    · rw [hc, List.replicate_succ]
      exact overwrite_append 0 dst.content dst.pointer [0] (List.replicate k 0)

theorem pad_eq {e : Nat} (he : e < 2 ^ 31) (dst : RandomAccessFile) :
    ∃ dst', pad dst (BitVec.ofNat 32 e) = .ok (dst', BitVec.ofNat 32 (roundUp 4 e)) ∧
      dst'.content = overwrite 0 dst.content e (List.replicate (roundUp 4 e - e) 0) ∧
      dst'.schedule = dst.schedule := by
  have hnat : (BitVec.ofNat 32 e).toNat = e := toNat_ofNat_of_lt (by omega)
  have hge := roundUp_ge (k := 4) (by decide) e
  have hlt := roundUp_lt (k := 4) (by decide) e
  by_cases h4 : 4 ∣ e
  · refine ⟨dst, ?_, ?_, rfl⟩
    · rw [pad, if_neg (not_not.mpr ((tmod_four_iff e).mpr h4)), roundUp_of_dvd (by decide) h4]
      rfl
    · rw [roundUp_of_dvd (by decide) h4, Nat.sub_self, List.replicate_zero, overwrite_nil]
  · obtain ⟨dst', hrun, hc, hs⟩ := padLoop_eq (roundUp 4 e - e) 4 e { dst with pointer := e }
      (by omega) (by omega)
    refine ⟨dst', ?_, hc, hs⟩
    rw [pad, if_pos (mt (tmod_four_iff e).mp h4), seek_eq (by omega), ok_bind, hnat]
    exact hrun

/-- Past 2^31 the size is a negative number: it is left alone or `seek` throws. -/
theorem pad_of_large {e : Nat} (h1 : 2 ^ 31 ≤ e) (h2 : e < 2 ^ 32) (dst : RandomAccessFile) :
    (∃ x, pad dst (BitVec.ofNat 32 e) = .error x) ∨
    (4 ∣ e ∧ pad dst (BitVec.ofNat 32 e) = .ok (dst, BitVec.ofNat 32 e)) := by
  have hneg : (BitVec.ofNat 32 e).toInt < 0 := by
    rw [toInt_neg_iff, toNat_ofNat_of_lt h2]
    exact h1
  by_cases h4 : 4 ∣ e
  · refine Or.inr ⟨h4, ?_⟩
    rw [pad, if_neg (not_not.mpr ((tmod_four_iff e).mpr h4))]
    rfl
  · refine Or.inl ⟨.ioException, ?_⟩
    rw [pad, if_pos (mt (tmod_four_iff e).mp h4), seek_error hneg]
    rfl

/-- The two together. -/
theorem pad_cases {e : Nat} (he : e < 2 ^ 32) (dst : RandomAccessFile) :
    (roundUp 4 e < 2 ^ 32 ∧
      ∃ dst', pad dst (BitVec.ofNat 32 e) = .ok (dst', BitVec.ofNat 32 (roundUp 4 e)) ∧
        (e < 2 ^ 31 → dst'.content =
          overwrite 0 dst.content e (List.replicate (roundUp 4 e - e) 0)) ∧
        dst'.schedule = dst.schedule) ∨
    (2 ^ 31 ≤ e ∧ ∃ x, pad dst (BitVec.ofNat 32 e) = .error x) := by
  by_cases hlt : e < 2 ^ 31
  · obtain ⟨dst', hpad, hc, hs⟩ := pad_eq hlt dst
    have hround := roundUp_lt (k := 4) (by decide) e
    exact Or.inl ⟨by omega, dst', hpad, fun _ => hc, hs⟩
  · have hlarge : 2 ^ 31 ≤ e := Nat.le_of_not_lt hlt
    rcases pad_of_large hlarge he dst with hx | ⟨h4, hpad⟩
    · exact Or.inr ⟨hlarge, hx⟩
    · rw [roundUp_of_dvd (by decide) h4]
      exact Or.inl ⟨he, dst, hpad, fun h => absurd h hlt, rfl⟩

/-! ## One table -/

/-- The name table that is built, if one is. -/
def builtName (xmlfile : XmlFile) : Bytes :=
  match loadNameTable xmlfile with
  | .ok table => table
  | .error _ => []

theorem builtName_eq {xmlfile : XmlFile} {table : Bytes} (h : loadNameTable xmlfile = .ok table) :
    builtName xmlfile = table := by
  unfold builtName
  rw [h]

theorem builtName_length (xmlfile : XmlFile) : (builtName xmlfile).length ≤ 65536 := by
  cases h : loadNameTable xmlfile with
  | error e =>
    unfold builtName
    rw [h]
    exact Nat.zero_le _
  | ok table =>
    rw [builtName_eq h]
    exact (loadNameTable_length h).2

section Table

variable (src name : Bytes)

/-- What is put in place for an entry. -/
def tableData (td : TableDirectory) : Bytes := if isName td then name else tableBytes src td

def tableLength (td : TableDirectory) : Nat := if isName td then name.length else td.length.toNat

def copyWrites (td : TableDirectory) (s : Nat) : List (Write JByte) :=
  (s, tableData src name td) :: if isHead td then [(s + 8, intBytes 0)] else []

end Table

def padWrite (e : Nat) : Write JByte := (e, List.replicate (roundUp 4 e - e) 0)

/-- The content can be put at `s`: nothing in it is negative, and there is a name
table where one is needed. -/
def Readable (xmlfile : XmlFile) (td : TableDirectory) : Prop :=
  if isName td then ∃ table, loadNameTable xmlfile = .ok table
  else td.offset.toNat < 2 ^ 31 ∧ td.length.toNat < 2 ^ 31

def Ready (xmlfile : XmlFile) (td : TableDirectory) (s : Nat) : Prop :=
  Readable xmlfile td ∧ (isHead td → s + 8 < 2 ^ 31)

theorem isName_not_isHead {td : TableDirectory} (h : isName td) : ¬ isHead td := by
  unfold isName at h
  unfold isHead
  rw [h]
  decide

theorem tableLength_lt {xmlfile : XmlFile} {td : TableDirectory} (h : Readable xmlfile td) :
    tableLength (builtName xmlfile) td < 2 ^ 31 := by
  have hname := builtName_length xmlfile
  unfold Readable at h
  unfold tableLength
  by_cases hn : isName td
  · rw [if_pos hn]
    omega
  · rw [if_neg hn] at h ⊢
    exact h.2

/-- The entries differ in the checksum at most. -/
def SameRange (a b : TableDirectory) : Prop :=
  a.tag = b.tag ∧ a.offset = b.offset ∧ a.length = b.length

section Step

variable (xmlfile : XmlFile) (td : TableDirectory) {s : Nat}

theorem copyContent_cases (hs : s < 2 ^ 31) (src dst : RandomAccessFile) :
    (Readable xmlfile td ∧ ∃ src' dst', copyContent xmlfile src dst td (BitVec.ofNat 32 s) =
        .ok (src', dst', BitVec.ofNat 32 (tableLength (builtName xmlfile) td)) ∧
      src'.content = src.content ∧ dst'.schedule = dst.schedule ∧
      dst'.content =
        overwrite 0 dst.content s (tableData src.content (builtName xmlfile) td)) ∨
    (¬ Readable xmlfile td ∧
      ∃ e, copyContent xmlfile src dst td (BitVec.ofNat 32 s) = .error e) := by
  have hnat : (BitVec.ofNat 32 s).toNat = s := toNat_ofNat_of_lt (by omega)
  unfold Readable tableLength tableData
  by_cases hn : isName td
  · rw [copyContent, if_pos hn, if_pos hn, if_pos hn, if_pos hn]
    cases hload : loadNameTable xmlfile with
    | error e =>
      refine Or.inr ⟨?_, e, rfl⟩
      intro h
      obtain ⟨table, ht⟩ := h
      cases ht
    | ok table =>
      refine Or.inl ⟨⟨table, rfl⟩, src, { dst with pointer := s }.write table, ?_, rfl, rfl, ?_⟩
      · rw [ok_bind, seek_eq (by omega), ok_bind, builtName_eq hload, hnat]
        rfl
      · rw [builtName_eq hload]
        rfl
  · rw [copyContent, if_neg hn, if_neg hn, if_neg hn, if_neg hn]
    by_cases hr : td.offset.toNat < 2 ^ 31 ∧ td.length.toNat < 2 ^ 31
    · obtain ⟨src', dst', hrun, hsc, _, hds, hdc⟩ := copyTo_eq src dst hr.1
        (by omega : (BitVec.ofNat 32 s).toNat < 2 ^ 31) hr.2
      rw [hnat] at hdc
      refine Or.inl ⟨hr, src', dst', ?_, hsc, hds, hdc⟩
      rw [hrun, ok_bind, ofNat_toNat_self]
      rfl
    · refine Or.inr ⟨hr, ?_⟩
      cases hrun : copyTo src td.offset dst (BitVec.ofNat 32 s) td.length with
      | error e => exact ⟨e, rfl⟩
      | ok r =>
        obtain ⟨h1, _, h3⟩ := copyTo_ok_nonneg hrun
        exact absurd ⟨h1, h3⟩ hr

theorem clearAdjustment_cases (hs : s < 2 ^ 31) (dst : RandomAccessFile) :
    ((isHead td → s + 8 < 2 ^ 31) ∧ ∃ dst', clearAdjustment dst td (BitVec.ofNat 32 s) =
        .ok dst' ∧ dst'.schedule = dst.schedule ∧
      dst'.content =
        applyWrites 0 dst.content (if isHead td then [(s + 8, intBytes 0)] else [])) ∨
    (¬ (isHead td → s + 8 < 2 ^ 31) ∧
      ∃ e, clearAdjustment dst td (BitVec.ofNat 32 s) = .error e) := by
  rw [clearAdjustment]
  by_cases hh : isHead td
  · have hadd : BitVec.ofNat 32 s + 8 = BitVec.ofNat 32 (s + 8) := add_ofNat s 8
    have hnat : (BitVec.ofNat 32 (s + 8)).toNat = s + 8 := toNat_ofNat_of_lt (by omega)
    rw [if_pos hh, if_pos hh, hadd]
    by_cases h8 : s + 8 < 2 ^ 31
    · refine Or.inl ⟨fun _ => h8, writeInt { dst with pointer := s + 8 } 0, ?_, rfl, rfl⟩
      rw [seek_eq (by omega), hnat]
      rfl
    · refine Or.inr ⟨fun h => h8 (h hh), .ioException, ?_⟩
      rw [seek_error (toInt_neg_iff.mpr (by omega))]
      rfl
  · rw [if_neg hh, if_neg hh]
    exact Or.inl ⟨fun h => absurd h hh, dst, rfl, rfl, rfl⟩

/-- The entry of a table that was put at `s`, the file being `c` after its bytes
were written. -/
def newEntry (name : Bytes) (td : TableDirectory) (s : Nat) (c : Bytes) : TableDirectory :=
  { td with
    checkSum := wordSum (slice c s (tableLength name td))
    offset := BitVec.ofNat 32 s
    length := BitVec.ofNat 32 (tableLength name td) }

/-- The body of the loop: it returns with the writes of one table made, or it
throws, the size being too large or the table not ready. -/
theorem copyTable_cases (hs : s < 2 ^ 31) {st : CopyState} {r : Nat}
    (hsize : st.size = BitVec.ofNat 32 s) (htd : derefTable st.store r = td) :
    (Ready xmlfile td s ∧ ∃ st' e, copyTable xmlfile r st = .ok st' ∧
      st'.src.content = st.src.content ∧
      st'.size = BitVec.ofNat 32 (roundUp 4 (s + tableLength (builtName xmlfile) td)) ∧
      roundUp 4 (s + tableLength (builtName xmlfile) td) < 2 ^ 32 ∧
      (s + tableLength (builtName xmlfile) td < 2 ^ 31 →
        st'.dst.content = applyWrites 0 st.dst.content
          (copyWrites st.src.content (builtName xmlfile) td s ++
            [padWrite (s + tableLength (builtName xmlfile) td)])) ∧
      st'.store = st.store.set r e ∧
      SameRange e (newEntry (builtName xmlfile) td s
        (applyWrites 0 st.dst.content (copyWrites st.src.content (builtName xmlfile) td s))) ∧
      (st.dst.Fills → st'.dst.Fills ∧ e = newEntry (builtName xmlfile) td s
        (applyWrites 0 st.dst.content
          (copyWrites st.src.content (builtName xmlfile) td s)))) ∨
    ((Ready xmlfile td s → 2 ^ 31 ≤ s + tableLength (builtName xmlfile) td) ∧
      ∃ e, copyTable xmlfile r st = .error e) := by
  have hnat : (BitVec.ofNat 32 s).toNat = s := toNat_ofNat_of_lt (by omega)
  rw [copyTable, htd, hsize]
  simp only
  rcases copyContent_cases xmlfile td hs st.src st.dst with
    ⟨hread, src', dst1, hcopy, hsc, hs1, hc1⟩ | ⟨hno, e, he⟩
  · have hlen := tableLength_lt hread
    rw [hcopy, ok_bind]
    simp only
    rcases clearAdjustment_cases td hs dst1 with ⟨hhead, dst2, hclear, hs2, hc2⟩ |
      ⟨hno, e, he⟩
    · have hlnat : (BitVec.ofNat 32 (tableLength (builtName xmlfile) td)).toNat =
          tableLength (builtName xmlfile) td := toNat_ofNat_of_lt (by omega)
      obtain ⟨sum, dst3, hsum, hc3, hf3⟩ := calcTableChecksumFile_returns dst2
        (by omega : (BitVec.ofNat 32 s).toNat < 2 ^ 31)
        (by omega : (BitVec.ofNat 32 (tableLength (builtName xmlfile) td)).toNat < 2 ^ 31)
      rw [hnat, hlnat] at hf3
      have hcontent : dst2.content = applyWrites 0 st.dst.content
          (copyWrites st.src.content (builtName xmlfile) td s) := by
        rw [hc2, hc1]
        rfl
      rw [hcontent] at hf3
      have hfills : st.dst.Fills → dst2.Fills := fun h => (h.of_schedule hs1).of_schedule hs2
      have hentry (h : st.dst.Fills) : TableDirectory.mk td.tag sum (BitVec.ofNat 32 s)
          (BitVec.ofNat 32 (tableLength (builtName xmlfile) td)) =
            newEntry (builtName xmlfile) td s (applyWrites 0 st.dst.content
              (copyWrites st.src.content (builtName xmlfile) td s)) := by
        rw [(hf3 (hfills h)).2]
        rfl
      have hadd : BitVec.ofNat 32 s + BitVec.ofNat 32 (tableLength (builtName xmlfile) td) =
          BitVec.ofNat 32 (s + tableLength (builtName xmlfile) td) := add_ofNat _ _
      rw [hclear, ok_bind, hsum, ok_bind]
      simp only
      rw [hadd]
      rcases pad_cases (by omega : s + tableLength (builtName xmlfile) td < 2 ^ 32) dst3 with
        ⟨hround, dst4, hpad, hc4, hs4⟩ | ⟨hlarge, x, hpad⟩
      · refine Or.inl ⟨⟨hread, hhead⟩, _, ⟨td.tag, sum, BitVec.ofNat 32 s, _⟩,
          by rw [hpad]; rfl, hsc, rfl, hround, ?_, rfl, ⟨rfl, rfl, rfl⟩, ?_⟩
        · intro hfit
          show dst4.content = _
          rw [hc4 hfit, hc3, hcontent, applyWrites_append]
          rfl
        · intro h
          exact ⟨((hf3 (hfills h)).1).of_schedule hs4, hentry h⟩
      · exact Or.inr ⟨fun _ => hlarge, x, by rw [hpad]; rfl⟩
    · refine Or.inr ⟨fun h => absurd h.2 hno, e, ?_⟩
      rw [he]
      rfl
  · refine Or.inr ⟨fun h => absurd h.1 hno, e, ?_⟩
    rw [he]
    rfl

/-- A negative size makes the body throw. -/
theorem copyTable_of_large (h1 : 2 ^ 31 ≤ s) (h2 : s < 2 ^ 32) {st : CopyState} (r : Nat)
    (hsize : st.size = BitVec.ofNat 32 s) : ∃ e, copyTable xmlfile r st = .error e := by
  have hneg : (BitVec.ofNat 32 s).toInt < 0 := by
    rw [toInt_neg_iff, toNat_ofNat_of_lt h2]
    exact h1
  rw [copyTable, hsize]
  simp only
  rw [copyContent]
  by_cases hn : isName (derefTable st.store r)
  · rw [if_pos hn]
    cases loadNameTable xmlfile with
    | error e => exact ⟨e, rfl⟩
    | ok table => exact ⟨.ioException, by rw [ok_bind, seek_error hneg]; rfl⟩
  · rw [if_neg hn]
    cases hrun : copyTo st.src (derefTable st.store r).offset st.dst (BitVec.ofNat 32 s)
        (derefTable st.store r).length with
    | error e => exact ⟨e, rfl⟩
    | ok p =>
      have hd := (copyTo_ok_nonneg hrun).2.1
      rw [toNat_ofNat_of_lt h2] at hd
      omega

end Step

/-! ## All tables -/

section Tables

variable (src name : Bytes)

def bodyWrites : List TableDirectory → Nat → List (Write JByte)
  | [], _ => []
  | td :: rest, s =>
    copyWrites src name td s ++ [padWrite (s + tableLength name td)] ++
      bodyWrites rest (roundUp 4 (s + tableLength name td))

/-- Where the tables end. -/
def sizeFrom : List TableDirectory → Nat → Nat
  | [], s => s
  | td :: rest, s => sizeFrom rest (roundUp 4 (s + tableLength name td))

/-- The new entries, the file being `c` before. -/
def newEntries : List TableDirectory → Nat → Bytes → List TableDirectory
  | [], _, _ => []
  | td :: rest, s, c =>
    newEntry name td s (applyWrites 0 c (copyWrites src name td s)) ::
      newEntries rest (roundUp 4 (s + tableLength name td))
        (applyWrites 0 c (copyWrites src name td s ++ [padWrite (s + tableLength name td)]))

end Tables

/-- The updates of the entries. -/
def setEntries (store : List TableDirectory) : List Nat → List TableDirectory →
    List TableDirectory
  | r :: refs, td :: tds => setEntries (store.set r td) refs tds
  | _, _ => store

/-- Every table can be put in its place, and the sizes stay below 2^31. -/
def FitsAll (xmlfile : XmlFile) : List TableDirectory → Nat → Prop
  | [], s => s < 2 ^ 31
  | td :: rest, s => s < 2 ^ 31 ∧ Ready xmlfile td s ∧
      FitsAll xmlfile rest (roundUp 4 (s + tableLength (builtName xmlfile) td))

theorem FitsAll.lt {xmlfile : XmlFile} {tds : List TableDirectory} {s : Nat}
    (h : FitsAll xmlfile tds s) : s < 2 ^ 31 := by
  cases tds with
  | nil => exact h
  | cons td rest => exact h.1

theorem FitsAll.sizeFrom_lt {xmlfile : XmlFile} : ∀ {tds : List TableDirectory} {s : Nat},
    FitsAll xmlfile tds s → sizeFrom (builtName xmlfile) tds s < 2 ^ 31 := by
  intro tds
  induction tds with
  | nil =>
    intro s h
    exact h
  | cons td rest ih =>
    intro s h
    exact ih h.2.2

theorem derefTable_set_ne {store : List TableDirectory} {r q : Nat} {td : TableDirectory}
    (h : r ≠ q) : derefTable (store.set r td) q = derefTable store q := by
  rw [derefTable, derefTable, List.getD_eq_getElem?_getD, List.getD_eq_getElem?_getD,
    List.getElem?_set_ne h]

theorem map_derefTable_set {store : List TableDirectory} {r : Nat} {td : TableDirectory}
    {refs : List Nat} (h : r ∉ refs) :
    refs.map (derefTable (store.set r td)) = refs.map (derefTable store) := by
  refine List.map_congr_left fun q hq => derefTable_set_ne ?_
  intro heq
  rw [heq] at h
  exact h hq

/-- The whole loop: it makes the writes of all tables, or it does not come through
with a size that is no negative number. -/
theorem copyTables_cases (xmlfile : XmlFile) : ∀ (refs : List Nat) (st : CopyState) (s : Nat),
    st.size = BitVec.ofNat 32 s → s < 2 ^ 32 → refs.Nodup →
    (FitsAll xmlfile (refs.map (derefTable st.store)) s ∧
      ∃ st' es, copyTables xmlfile refs st = .ok st' ∧
        st'.size = BitVec.ofNat 32
          (sizeFrom (builtName xmlfile) (refs.map (derefTable st.store)) s) ∧
        st'.dst.content = applyWrites 0 st.dst.content
          (bodyWrites st.src.content (builtName xmlfile) (refs.map (derefTable st.store)) s) ∧
        st'.store = setEntries st.store refs es ∧
        List.Forall₂ SameRange es (newEntries st.src.content (builtName xmlfile)
          (refs.map (derefTable st.store)) s st.dst.content) ∧
        (st.dst.Fills → st'.dst.Fills ∧ es = newEntries st.src.content (builtName xmlfile)
          (refs.map (derefTable st.store)) s st.dst.content)) ∨
    (¬ FitsAll xmlfile (refs.map (derefTable st.store)) s ∧
      ∀ st', copyTables xmlfile refs st = .ok st' → st'.size.toInt < 0) := by
  intro refs
  induction refs with
  | nil =>
    intro st s hsize hs _
    by_cases hlt : s < 2 ^ 31
    · exact Or.inl ⟨hlt, st, [], rfl, hsize, rfl, rfl, List.Forall₂.nil, fun h => ⟨h, rfl⟩⟩
    · refine Or.inr ⟨hlt, ?_⟩
      intro st' h
      cases h
      rw [hsize, toInt_neg_iff, toNat_ofNat_of_lt hs]
      omega
  | cons r refs ih =>
    intro st s hsize hs hnodup
    rw [List.nodup_cons] at hnodup
    rw [List.map_cons]
    by_cases hlt : s < 2 ^ 31
    · rcases copyTable_cases xmlfile _ hlt hsize (r := r) rfl with
        ⟨hready, st1, e, hrun, hsc, hs1, hlt32, hc1, hst1, hsame, hf1⟩ | ⟨hno, e, he⟩
      · have hge := roundUp_ge (k := 4) (by decide)
          (s + tableLength (builtName xmlfile) (derefTable st.store r))
        have hmap : refs.map (derefTable st1.store) = refs.map (derefTable st.store) := by
          rw [hst1]
          exact map_derefTable_set hnodup.1
        have hrest := ih st1 _ hs1 hlt32 hnodup.2
        rw [hmap, hsc] at hrest
        have hstep : copyTables xmlfile (r :: refs) st = copyTables xmlfile refs st1 := by
          rw [copyTables, hrun, ok_bind]
        rcases hrest with ⟨hfits, st', es, hrun', hs', hc', hst', hes, hf'⟩ | ⟨hno, hbad⟩
        · have hltr := hfits.lt
          have hcontent := hc1 (by omega)
          rw [hcontent] at hes hf'
          refine Or.inl ⟨⟨hlt, hready, hfits⟩, st', e :: es, ?_, hs', ?_, ?_,
            List.Forall₂.cons hsame hes, ?_⟩
          · rw [hstep, hrun']
          · rw [hc', hcontent]
            exact (applyWrites_append 0 _ _ _).symm
          · rw [hst', hst1]
            rfl
          · intro hfill
            obtain ⟨hfill1, heq⟩ := hf1 hfill
            obtain ⟨hfill', heqs⟩ := hf' hfill1
            exact ⟨hfill', by rw [heq, heqs]; rfl⟩
        · refine Or.inr ⟨fun h => hno h.2.2, ?_⟩
          intro st' h
          rw [hstep] at h
          exact hbad st' h
      · refine Or.inr ⟨?_, ?_⟩
        · intro h
          have hltr := h.2.2.lt
          have hge := roundUp_ge (k := 4) (by decide)
            (s + tableLength (builtName xmlfile) (derefTable st.store r))
          have := hno h.2.1
          omega
        · intro st' h
          rw [copyTables, he] at h
          cases h
    · obtain ⟨e, he⟩ := copyTable_of_large xmlfile (Nat.le_of_not_lt hlt) hs r hsize
      refine Or.inr ⟨fun h => hlt h.1, ?_⟩
      intro st' h
      rw [copyTables, he] at h
      cases h

/-! ## The new entries -/

theorem newEntries_length (src name : Bytes) : ∀ (tds : List TableDirectory) (s : Nat) (c : Bytes),
    (newEntries src name tds s c).length = tds.length := by
  intro tds
  induction tds with
  | nil => intro s c; rfl
  | cons td rest ih =>
    intro s c
    rw [newEntries, List.length_cons, List.length_cons, ih]

theorem newEntries_tag (src name : Bytes) : ∀ (tds : List TableDirectory) (s : Nat) (c : Bytes),
    (newEntries src name tds s c).map TableDirectory.tag = tds.map TableDirectory.tag := by
  intro tds
  induction tds with
  | nil => intro s c; rfl
  | cons td rest ih =>
    intro s c
    rw [newEntries, List.map_cons, List.map_cons, ih]
    rfl

theorem newEntries_head {src : Bytes} {xmlfile : XmlFile} : ∀ (tds : List TableDirectory)
    (s : Nat) (c : Bytes), FitsAll xmlfile tds s →
    ∀ e ∈ newEntries src (builtName xmlfile) tds s c, isHead e → e.offset.toNat + 8 < 2 ^ 31 := by
  intro tds
  induction tds with
  | nil =>
    intro s c _ e he
    cases he
  | cons td rest ih =>
    intro s c h e he hhead
    rw [newEntries] at he
    rcases List.mem_cons.mp he with rfl | he
    · have h8 : s + 8 < 2 ^ 31 := h.2.1.2 hhead
      show (BitVec.ofNat 32 s).toNat + 8 < 2 ^ 31
      rw [toNat_ofNat_of_lt (by omega)]
      exact h8
    · exact ih _ _ h.2.2 e he hhead

theorem derefTable_setEntries_of_not_mem {q : Nat} : ∀ (refs : List Nat)
    (tds store : List TableDirectory), q ∉ refs →
    derefTable (setEntries store refs tds) q = derefTable store q := by
  intro refs
  induction refs with
  | nil =>
    intro tds store _
    cases tds with
    | nil => rfl
    | cons td tds => rfl
  | cons r refs ih =>
    intro tds store hq
    rw [List.mem_cons, not_or] at hq
    cases tds with
    | nil => rfl
    | cons td tds =>
      rw [setEntries, ih tds _ hq.2, derefTable_set_ne (Ne.symm hq.1)]

/-- The references lead to the new entries. -/
theorem map_setEntries : ∀ (refs : List Nat) (tds store : List TableDirectory),
    refs.Nodup → (∀ r ∈ refs, r < store.length) → tds.length = refs.length →
    refs.map (derefTable (setEntries store refs tds)) = tds := by
  intro refs
  induction refs with
  | nil =>
    intro tds store _ _ hlen
    rw [List.length_eq_zero_iff.mp hlen]
    rfl
  | cons r refs ih =>
    intro tds store hnodup hlt hlen
    rw [List.nodup_cons] at hnodup
    cases tds with
    | nil => cases hlen
    | cons td tds =>
      have hr : r < store.length := hlt r List.mem_cons_self
      have hfirst : derefTable (setEntries (store.set r td) refs tds) r = td := by
        rw [derefTable_setEntries_of_not_mem refs tds _ hnodup.1, derefTable,
          List.getD_eq_getElem _ _ (by rwa [List.length_set]), List.getElem_set_self]
      rw [setEntries, List.map_cons, hfirst, ih tds (store.set r td) hnodup.2]
      · intro q hq
        rw [List.length_set]
        exact hlt q (List.mem_cons_of_mem r hq)
      · simpa using hlen

/-! ## Header and directory -/

/-- Two writes in a row are one write. -/
theorem write_write (f : RandomAccessFile) (d e : Bytes) :
    (f.write d).write e = f.write (d ++ e) := by
  unfold RandomAccessFile.write
  rw [overwrite_append, List.length_append, Nat.add_assoc]

theorem writeHeader_eq (dst : RandomAccessFile) (ot : OffsetTable) :
    writeHeader dst ot = dst.write (offsetTableBytes ot) := by
  unfold writeHeader writeInt writeShort
  simp only [write_write]
  rfl

theorem writeDirectory_eq (store : List TableDirectory) : ∀ (refs : List Nat)
    (dst : RandomAccessFile),
    (writeDirectory store refs dst).content = overwrite 0 dst.content dst.pointer
        ((refs.map (derefTable store)).flatMap entryBytes) ∧
      (writeDirectory store refs dst).schedule = dst.schedule := by
  intro refs
  induction refs with
  | nil =>
    intro dst
    exact ⟨(overwrite_nil _ _ _).symm, rfl⟩
  | cons r refs ih =>
    intro dst
    have hstep : writeDirectory store (r :: refs) dst =
        writeDirectory store refs (dst.write (entryBytes (derefTable store r))) := by
      rw [writeDirectory]
      unfold writeInt
      simp only [write_write]
      rfl
    obtain ⟨hc, hs⟩ := ih (dst.write (entryBytes (derefTable store r)))
    refine ⟨?_, by rw [hstep, hs]; rfl⟩
    rw [hstep, hc, List.map_cons, List.flatMap_cons, ← overwrite_append]
    rfl

/-! ## The directory that is loaded -/

theorem read_content {f g : RandomAccessFile} {buf buf' : Bytes} {off len r : JInt}
    (h : f.read buf off len = .ok (r, buf', g)) : g.content = f.content := by
  rw [RandomAccessFile.read] at h
  by_cases h1 : off.toInt < 0 ∨ len.toInt < 0 ∨ (buf.length : Int) < off.toInt + len.toInt
  · rw [if_pos h1] at h
    cases h
  · rw [if_neg h1] at h
    simp only at h
    by_cases h2 : len.toNat = 0
    · rw [if_pos h2] at h
      cases h
      rfl
    · rw [if_neg h2] at h
      by_cases h3 : min len.toNat (f.content.length - f.pointer) = 0
      · rw [if_pos h3] at h
        cases h
        rfl
      · rw [if_neg h3] at h
        cases h
        rfl

/-- What holds of the list the directory loop builds and of `head`. -/
structure Loaded (limit : Nat) (tdl : List TableDirectory) (head : Option Nat) : Prop where
  length_le : tdl.length ≤ limit
  head_lt : ∀ h, head = some h → h < tdl.length ∧ isHead (derefTable tdl h)

theorem Loaded.append {limit : Nat} {tdl : List TableDirectory} {head : Option Nat}
    (h : Loaded limit tdl head) (td : TableDirectory) :
    Loaded (limit + 1) (tdl ++ [td]) (if isHead td then some tdl.length else head) := by
  constructor
  · have := h.length_le
    rw [List.length_append, List.length_singleton]
    omega
  · intro k hk
    by_cases hh : isHead td
    · rw [if_pos hh, Option.some.injEq] at hk
      subst hk
      rw [derefTable, List.getD_append_right _ _ _ _ (Nat.le_refl _), Nat.sub_self]
      exact ⟨by simp, hh⟩
    · rw [if_neg hh] at hk
      obtain ⟨hlt, hk⟩ := h.head_lt k hk
      rw [derefTable, List.getD_append _ _ _ _ hlt]
      exact ⟨by rw [List.length_append]; omega, hk⟩

theorem readDirectory_loaded : ∀ (n limit : Nat) (src : RandomAccessFile) (buf : Bytes)
    (tdl : List TableDirectory) (head : Option Nat)
    (r : List TableDirectory × Option Nat × RandomAccessFile), Loaded limit tdl head →
    readDirectory n src buf tdl head = .ok r →
    Loaded (limit + n) r.1 r.2.1 ∧ r.2.2.content = src.content := by
  intro n
  induction n with
  | zero =>
    intro limit src buf tdl head r hl h
    cases h
    exact ⟨hl, rfl⟩
  | succ n ih =>
    intro limit src buf tdl head r hl h
    rw [readDirectory] at h
    obtain ⟨⟨k, buf', src'⟩, hread, h⟩ := bind_eq_ok h
    obtain ⟨td, _, h⟩ := bind_eq_ok h
    have hc := read_content hread
    by_cases hd : isDSIG td
    · rw [if_pos hd] at h
      obtain ⟨hl', hc'⟩ := ih limit src' buf' tdl head r hl h
      refine ⟨⟨?_, hl'.head_lt⟩, by rw [hc', hc]⟩
      have := hl'.length_le
      omega
    · rw [if_neg hd] at h
      obtain ⟨hl', hc'⟩ := ih (limit + 1) src' buf' _ _ r (hl.append td) h
      refine ⟨⟨?_, hl'.head_lt⟩, by rw [hc', hc]⟩
      have := hl'.length_le
      omega

theorem loadDirectory_loaded {src src' : RandomAccessFile} {ot : OffsetTable}
    {tdl : List TableDirectory} {head : Option Nat}
    (h : loadDirectory src = .ok (ot, tdl, head, src')) :
    Loaded 32767 tdl head ∧ src'.content = src.content ∧
      (ot.sfnt = 0x00010000#32 ∨ ot.sfnt = 0x4F54544F#32) := by
  rw [loadDirectory] at h
  obtain ⟨⟨k, buf', src1⟩, hread, h⟩ := bind_eq_ok h
  obtain ⟨ot₁, _, h⟩ := bind_eq_ok h
  have hmax : ot₁.numTables.toInt < 32768 := BitVec.toInt_lt (x := ot₁.numTables)
  by_cases hs : ot₁.sfnt ≠ 0x00010000#32 ∧ ot₁.sfnt ≠ 0x4F54544F#32
  · rw [if_pos hs] at h
    cases h
  · rw [if_neg hs] at h
    obtain ⟨⟨tdl', head', src2⟩, hdir, h⟩ := bind_eq_ok h
    cases h
    have hstart : Loaded 0 [] none := by
      constructor
      · exact Nat.le_refl 0
      · intro h hh
        cases hh
    obtain ⟨hl, hc⟩ := readDirectory_loaded _ 0 _ _ _ _ _ hstart hdir
    refine ⟨⟨?_, hl.head_lt⟩, by rw [hc, read_content hread], ?_⟩
    · have : tdl.length ≤ 0 + ot.numTables.toInt.toNat := hl.length_le
      omega
    · by_contra hno
      rw [not_or] at hno
      exact hs hno

end FixName
end Otf
end I18nZh
