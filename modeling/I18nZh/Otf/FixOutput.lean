import I18nZh.Otf.FixRun

/-!
# The outcome of `FixName`

The content a run leaves, as a function of the source, the name table and what
the output file held before.
-/

namespace I18nZh
namespace Otf
namespace FixName

open Java Storage BigEndian RandomAccessFile Tookit Writes

/-! ## The two sorts -/

theorem compareOffset_le_iff (store : List TableDirectory) (r q : Nat) :
    compareOffset store r q ≤ 0 ↔
      (derefTable store r).offset.toInt ≤ (derefTable store q).offset.toInt := by
  unfold compareOffset
  simp only
  split_ifs <;> omega

theorem compareTag_le_iff (store : List TableDirectory) (r q : Nat) :
    compareTag store r q ≤ 0 ↔
      (derefTable store r).tag.toInt ≤ (derefTable store q).tag.toInt := by
  unfold compareTag
  simp only
  split_ifs <;> omega

theorem map_sort_offset (store : List TableDirectory) (refs : List Nat) :
    (arraysSort (compareOffset store) refs).map (derefTable store) =
      byOffset (refs.map (derefTable store)) :=
  List.map_insertionSort _ _ _ _ fun r _ q _ => compareOffset_le_iff store r q

theorem map_sort_tag (store : List TableDirectory) (refs : List Nat) :
    (arraysSort (compareTag store) refs).map (derefTable store) =
      byTag (refs.map (derefTable store)) :=
  List.map_insertionSort _ _ _ _ fun r _ q _ => compareTag_le_iff store r q

theorem map_range_derefTable (tdl : List TableDirectory) :
    (List.range tdl.length).map (derefTable tdl) = tdl := by
  refine List.ext_getElem ?_ ?_
  · rw [List.length_map, List.length_range]
  · intro i _ hi
    rw [List.getElem_map, List.getElem_range]
    exact List.getD_eq_getElem _ _ hi

/-- The entries in the order of their offsets. -/
theorem values_byOffset (tdl : List TableDirectory) :
    (arraysSort (compareOffset tdl) (List.range tdl.length)).map (derefTable tdl) =
      byOffset tdl := by
  rw [map_sort_offset, map_range_derefTable]

/-! ## The outcome -/

section Outcome

variable (src name : Bytes) (sfnt : JInt) (tdl : List TableDirectory) (prior : Bytes)

/-- Where the tables begin. -/
def startOfTables : Nat := 12 + 16 * tdl.length

def fixedSize : Nat := sizeFrom name (byOffset tdl) (startOfTables tdl)

/-- After the header. -/
def headed : Bytes := overwrite 0 prior 0 (offsetTableBytes (offsetTableFor sfnt tdl.length))

/-- After the loop over the tables. -/
def copied : Bytes :=
  applyWrites 0 (headed sfnt tdl prior) (bodyWrites src name (byOffset tdl) (startOfTables tdl))

def movedEntries : List TableDirectory :=
  newEntries src name (byOffset tdl) (startOfTables tdl) (headed sfnt tdl prior)

/-- The entries where the references lead after the loop. -/
def movedStore : List TableDirectory :=
  setEntries tdl (arraysSort (compareOffset tdl) (List.range tdl.length))
    (movedEntries src name sfnt tdl prior)

/-- After the directory. -/
def listed : Bytes :=
  overwrite 0 (copied src name sfnt tdl prior) 12
    ((byTag (movedEntries src name sfnt tdl prior)).flatMap entryBytes)

def adjustment : JInt :=
  0xB1B0AFBA#32 - wordSum (slice (listed src name sfnt tdl prior) 0 (fixedSize name tdl))

/-- In the end, `head` being the entry `k`. -/
def outcome (k : Nat) : Bytes :=
  overwrite 0 (listed src name sfnt tdl prior)
    ((derefTable (movedStore src name sfnt tdl prior) k).offset.toNat + 8)
    (intBytes (adjustment src name sfnt tdl prior))

theorem movedEntries_length : (movedEntries src name sfnt tdl prior).length = tdl.length := by
  rw [movedEntries, newEntries_length, byOffset_length]

theorem sort_offset_nodup :
    (arraysSort (compareOffset tdl) (List.range tdl.length)).Nodup :=
  (arraysSort_perm _ _).nodup_iff.mpr List.nodup_range

theorem mem_sort_offset {k : Nat} :
    k ∈ arraysSort (compareOffset tdl) (List.range tdl.length) ↔ k < tdl.length := by
  rw [mem_arraysSort, List.mem_range]

/-- The sorted references lead to the entries they are given. -/
theorem map_sorted {es : List TableDirectory} (hlen : es.length = tdl.length) :
    (arraysSort (compareOffset tdl) (List.range tdl.length)).map (derefTable
      (setEntries tdl (arraysSort (compareOffset tdl) (List.range tdl.length)) es)) = es := by
  apply map_setEntries _ _ _ (sort_offset_nodup tdl)
  · intro r hr
    exact (mem_sort_offset tdl).mp hr
  · rw [hlen, arraysSort_length, List.length_range]

theorem sorted_mem {es : List TableDirectory} (hlen : es.length = tdl.length) {k : Nat}
    (hk : k < tdl.length) : derefTable
      (setEntries tdl (arraysSort (compareOffset tdl) (List.range tdl.length)) es) k ∈ es := by
  have hmem := List.mem_map_of_mem (f := derefTable
    (setEntries tdl (arraysSort (compareOffset tdl) (List.range tdl.length)) es))
    ((mem_sort_offset tdl).mpr hk)
  rw [map_sorted tdl hlen] at hmem
  exact hmem

theorem sorted_tag {es : List TableDirectory}
    (htags : es.map TableDirectory.tag = (byOffset tdl).map TableDirectory.tag) {k : Nat}
    (hk : k < tdl.length) : (derefTable
      (setEntries tdl (arraysSort (compareOffset tdl) (List.range tdl.length)) es) k).tag =
        (derefTable tdl k).tag := by
  have hlen : es.length = tdl.length := by
    rw [← List.length_map (f := TableDirectory.tag), htags, List.length_map, byOffset_length]
  have h : (arraysSort (compareOffset tdl) (List.range tdl.length)).map
        (TableDirectory.tag ∘ derefTable
          (setEntries tdl (arraysSort (compareOffset tdl) (List.range tdl.length)) es)) =
      (arraysSort (compareOffset tdl) (List.range tdl.length)).map
        (TableDirectory.tag ∘ derefTable tdl) := by
    rw [← List.map_map, ← List.map_map, map_sorted tdl hlen, values_byOffset, htags]
  exact List.map_inj_left.mp h k ((mem_sort_offset tdl).mpr hk)

theorem movedEntries_tags : (movedEntries src name sfnt tdl prior).map TableDirectory.tag =
    (byOffset tdl).map TableDirectory.tag :=
  newEntries_tag _ _ _ _ _

theorem movedStore_mem {k : Nat} (hk : k < tdl.length) :
    derefTable (movedStore src name sfnt tdl prior) k ∈ movedEntries src name sfnt tdl prior :=
  sorted_mem tdl (movedEntries_length src name sfnt tdl prior) hk

theorem movedStore_tag {k : Nat} (hk : k < tdl.length) :
    (derefTable (movedStore src name sfnt tdl prior) k).tag = (derefTable tdl k).tag :=
  sorted_tag tdl (movedEntries_tags src name sfnt tdl prior) hk

end Outcome

/-! ## The run -/

section Run

variable {tdl : List TableDirectory} {dst : RandomAccessFile}

/-- The last step: the adjustment is computed and written. -/
theorem adjust_cases {store : List TableDirectory} {head : Option Nat} {size : Nat}
    (hsize : size < 2 ^ 31)
    (hh : ∀ k, head = some k → (derefTable store k).offset.toNat + 8 < 2 ^ 31) :
    (∃ k, head = some k ∧ ∃ sum dst', adjust dst store head (BitVec.ofNat 32 size) = .ok dst' ∧
      dst'.content = overwrite 0 dst.content ((derefTable store k).offset.toNat + 8)
        (intBytes sum) ∧
      (dst.Fills → sum = 0xB1B0AFBA#32 - wordSum (slice dst.content 0 size))) ∨
    (head = none ∧ ∃ e, adjust dst store head (BitVec.ofNat 32 size) = .error e) := by
  have hnat : (BitVec.ofNat 32 size).toNat = size := toNat_ofNat_of_lt (by omega)
  have h0 : (0 : JInt).toNat = 0 := rfl
  obtain ⟨sum, dst1, hsum, hc, hfill⟩ := calcTableChecksumFile_returns dst
    (by omega : (0 : JInt).toNat < 2 ^ 31) (by omega : (BitVec.ofNat 32 size).toNat < 2 ^ 31)
  rw [h0, hnat] at hfill
  rw [adjust, hsum, ok_bind]
  cases head with
  | none => exact Or.inr ⟨rfl, .nullPointer, rfl⟩
  | some k =>
    have hk := hh k rfl
    have hadd : ((derefTable store k).offset + 8).toNat =
        (derefTable store k).offset.toNat + 8 := by
      have h8 : (8 : JInt).toNat = 8 := rfl
      rw [BitVec.toNat_add, h8]
      exact Nat.mod_eq_of_lt (by omega)
    refine Or.inl ⟨k, rfl, 0xB1B0AFBA#32 - sum,
      writeInt { dst1 with pointer := ((derefTable store k).offset + 8).toNat }
        (0xB1B0AFBA#32 - sum), ?_, ?_, ?_⟩
    · simp only
      rw [seek_eq (by omega)]
      rfl
    · rw [writeInt, RandomAccessFile.write, hc, hadd]
    · intro h
      rw [(hfill h).2]

theorem adjust_error {store : List TableDirectory} {head : Option Nat} {size : JInt}
    (h : size.toInt < 0) : ∃ e, adjust dst store head size = .error e := by
  cases hsum : calcTableChecksumFile dst 0 size with
  | error e =>
    refine ⟨e, ?_⟩
    rw [adjust, hsum]
    rfl
  | ok r =>
    have hneg := toInt_neg_iff.mp h
    have hpos := calcTableChecksumFile_ok_nonneg hsum
    omega

/-- What the file is in the end, with the entries `es` in its directory and `sum` as
the adjustment in `head`, which is the entry `k`. -/
def sealedWith (c : Bytes) (tdl es : List TableDirectory) (k : Nat) (sum : JInt) : Bytes :=
  overwrite 0 (overwrite 0 c 12 ((byTag es).flatMap entryBytes))
    ((derefTable (setEntries tdl (arraysSort (compareOffset tdl) (List.range tdl.length)) es)
      k).offset.toNat + 8) (intBytes sum)

theorem sameRange_tags {es fs : List TableDirectory} (h : List.Forall₂ SameRange es fs) :
    es.map TableDirectory.tag = fs.map TableDirectory.tag := by
  induction h with
  | nil => rfl
  | cons hab _ ih => rw [List.map_cons, List.map_cons, hab.1, ih]

theorem exists_sameRange {es fs : List TableDirectory} (h : List.Forall₂ SameRange es fs)
    {e : TableDirectory} (he : e ∈ es) : ∃ f ∈ fs, SameRange e f := by
  induction h with
  | nil => cases he
  | cons hab _ ih =>
    rcases List.mem_cons.mp he with rfl | he
    · exact ⟨_, List.mem_cons_self, hab⟩
    · obtain ⟨f, hf, hsame⟩ := ih he
      exact ⟨f, List.mem_cons_of_mem _ hf, hsame⟩

/-- The directory written over the copied tables. -/
theorem writeDirectory_sorted {es : List TableDirectory} (hlen : es.length = tdl.length)
    (dst : RandomAccessFile) {c : Bytes} (hc : dst.content = c) (hp : dst.pointer = 12) :
    (writeDirectory (setEntries tdl (arraysSort (compareOffset tdl) (List.range tdl.length)) es)
      (arraysSort (compareTag
          (setEntries tdl (arraysSort (compareOffset tdl) (List.range tdl.length)) es))
        (arraysSort (compareOffset tdl) (List.range tdl.length))) dst).content =
      overwrite 0 c 12 ((byTag es).flatMap entryBytes) := by
  rw [(writeDirectory_eq _ _ _).1, map_sort_tag, map_sorted tdl hlen, hc, hp]

/-- The adjustment in `head` is in reach of the file pointer. -/
theorem sorted_head_lt {src : Bytes} {xmlfile : XmlFile} {sfnt : JInt} {prior : Bytes}
    {es : List TableDirectory}
    (hfits : FitsAll xmlfile (byOffset tdl) (startOfTables tdl))
    (hmoved : List.Forall₂ SameRange es
      (movedEntries src (builtName xmlfile) sfnt tdl prior)) {k : Nat} (hk : k < tdl.length)
    (hh : isHead (derefTable tdl k)) :
    (derefTable (setEntries tdl (arraysSort (compareOffset tdl) (List.range tdl.length)) es)
      k).offset.toNat + 8 < 2 ^ 31 := by
  have hcount : es.length = tdl.length := by
    rw [hmoved.length_eq, movedEntries_length]
  have htags : es.map TableDirectory.tag = (byOffset tdl).map TableDirectory.tag := by
    rw [sameRange_tags hmoved, movedEntries_tags]
  obtain ⟨f, hf, htag, hoff, _⟩ := exists_sameRange hmoved (sorted_mem tdl hcount hk)
  rw [hoff]
  apply newEntries_head _ _ _ hfits _ hf
  unfold isHead
  rw [← htag, sorted_tag tdl htags hk]
  exact hh

/-- The loop over the tables, from where `run` starts it. -/
theorem copyTables_start (xmlfile : XmlFile) (src dst : RandomAccessFile) (sfnt : JInt)
    (hn : tdl.length ≤ 32767) :
    (FitsAll xmlfile (byOffset tdl) (startOfTables tdl) ∧
      ∃ st es, copyTables xmlfile (arraysSort (compareOffset tdl) (List.range tdl.length))
          { src
            dst := writeHeader { dst with pointer := 0 } (offsetTableFor sfnt tdl.length)
            store := tdl
            size := BitVec.ofNat 32 (startOfTables tdl) } = .ok st ∧
        st.size = BitVec.ofNat 32 (fixedSize (builtName xmlfile) tdl) ∧
        st.dst.content = copied src.content (builtName xmlfile) sfnt tdl dst.content ∧
        st.store = setEntries tdl (arraysSort (compareOffset tdl) (List.range tdl.length)) es ∧
        List.Forall₂ SameRange es
          (movedEntries src.content (builtName xmlfile) sfnt tdl dst.content) ∧
        (dst.Fills → st.dst.Fills ∧
          es = movedEntries src.content (builtName xmlfile) sfnt tdl dst.content)) ∨
    (¬ FitsAll xmlfile (byOffset tdl) (startOfTables tdl) ∧
      ∀ st, copyTables xmlfile (arraysSort (compareOffset tdl) (List.range tdl.length))
          { src
            dst := writeHeader { dst with pointer := 0 } (offsetTableFor sfnt tdl.length)
            store := tdl
            size := BitVec.ofNat 32 (startOfTables tdl) } = .ok st → st.size.toInt < 0) := by
  have hstart : startOfTables tdl < 2 ^ 32 := by
    unfold startOfTables
    omega
  have hbody := copyTables_cases xmlfile
    (arraysSort (compareOffset tdl) (List.range tdl.length))
    { src
      dst := writeHeader { dst with pointer := 0 } (offsetTableFor sfnt tdl.length)
      store := tdl
      size := BitVec.ofNat 32 (startOfTables tdl) }
    (startOfTables tdl) rfl hstart (sort_offset_nodup tdl)
  have hhead : (writeHeader { dst with pointer := 0 }
      (offsetTableFor sfnt tdl.length)).content = headed sfnt tdl dst.content := by
    rw [writeHeader_eq]
    rfl
  have hfills : dst.Fills →
      (writeHeader { dst with pointer := 0 } (offsetTableFor sfnt tdl.length)).Fills := by
    intro hf
    rw [writeHeader_eq]
    exact hf.of_schedule rfl
  rw [values_byOffset tdl, hhead] at hbody
  rcases hbody with ⟨hfits, st, es, hrun, hsize, hc, hst, hes, hfill⟩ | hno
  · exact Or.inl ⟨hfits, st, es, hrun, hsize, hc, hst, hes, fun hf => hfill (hfills hf)⟩
  · exact Or.inr hno

/-- What `run` does with a directory loaded: the loop, the directory, the adjustment. -/
theorem run_of_load (xmlfile : XmlFile) (dst : RandomAccessFile) {src src' : RandomAccessFile}
    {ot : OffsetTable} {head : Option Nat} (hload : loadDirectory src = .ok (ot, tdl, head, src')) :
    run src xmlfile dst =
      copyTables xmlfile (arraysSort (compareOffset tdl) (List.range tdl.length))
        { src := src'
          dst := writeHeader { dst with pointer := 0 } (offsetTableFor ot.sfnt tdl.length)
          store := tdl
          size := BitVec.ofNat 32 (startOfTables tdl) } >>= fun st =>
        adjust (writeDirectory st.store (arraysSort (compareTag st.store)
            (arraysSort (compareOffset tdl) (List.range tdl.length)))
          { st.dst with pointer := 12 }) st.store head st.size := by
  have hn := (loadDirectory_loaded hload).1.length_le
  have hupdate := updateOffsetTable_eq ot (n := tdl.length) (by omega)
  have hseek : dst.seek 0 = .ok { dst with pointer := 0 } := seek_eq (by decide)
  have hlen : (arraysSort (compareOffset tdl) (List.range tdl.length)).length = tdl.length := by
    rw [arraysSort_length, List.length_range]
  rw [run, hload, ok_bind]
  simp only
  rw [hupdate, ok_bind, hseek, ok_bind, hlen]
  rfl

/-- A run with a directory loaded: it writes the tables, the directory and an
adjustment, or it throws.  Short reads change sums only. -/
theorem run_writes (xmlfile : XmlFile) (dst : RandomAccessFile) {src src' : RandomAccessFile}
    {ot : OffsetTable} {head : Option Nat} (hload : loadDirectory src = .ok (ot, tdl, head, src')) :
    (∃ k, head = some k ∧ FitsAll xmlfile (byOffset tdl) (startOfTables tdl) ∧
      ∃ dst' es sum, run src xmlfile dst = .ok dst' ∧
        List.Forall₂ SameRange es
          (movedEntries src.content (builtName xmlfile) ot.sfnt tdl dst.content) ∧
        dst'.content = sealedWith
          (copied src.content (builtName xmlfile) ot.sfnt tdl dst.content) tdl es k sum ∧
        (dst.Fills →
          es = movedEntries src.content (builtName xmlfile) ot.sfnt tdl dst.content ∧
          sum = adjustment src.content (builtName xmlfile) ot.sfnt tdl dst.content)) ∨
    ((head = none ∨ ¬ FitsAll xmlfile (byOffset tdl) (startOfTables tdl)) ∧
      ∃ e, run src xmlfile dst = .error e) := by
  obtain ⟨hl, hsc, _⟩ := loadDirectory_loaded hload
  have hbody := copyTables_start xmlfile src' dst ot.sfnt hl.length_le
  rw [hsc] at hbody
  rw [run_of_load xmlfile dst hload]
  rcases hbody with ⟨hfits, st, es, hrun, hsize, hcopied, hst, hmoved, hfill⟩ | ⟨hno, hbad⟩
  · have hcount : es.length = tdl.length := by
      rw [hmoved.length_eq, movedEntries_length]
    have hds := (writeDirectory_eq st.store
      (arraysSort (compareTag st.store) (arraysSort (compareOffset tdl) (List.range tdl.length)))
      { st.dst with pointer := 12 }).2
    have hlisted := writeDirectory_sorted hcount { st.dst with pointer := 12 } hcopied rfl
    rw [← hst] at hlisted
    have hoffset : ∀ k, head = some k → (derefTable st.store k).offset.toNat + 8 < 2 ^ 31 := by
      intro k hk
      obtain ⟨hlt, hh⟩ := hl.head_lt k hk
      rw [hst]
      exact sorted_head_lt hfits hmoved hlt hh
    rw [hrun, ok_bind, hsize]
    rcases adjust_cases hfits.sizeFrom_lt hoffset with
      ⟨k, hk, sum, dst', hadj, hout, hsum⟩ | ⟨hnone, hbad⟩
    · refine Or.inl ⟨k, hk, hfits, dst', es, sum, hadj, hmoved, ?_, ?_⟩
      · rw [hout, hlisted, hst]
        rfl
      · intro hf
        obtain ⟨hfs, heq⟩ := hfill hf
        refine ⟨heq, ?_⟩
        rw [hsum (hfs.of_schedule hds), hlisted, heq]
        rfl
    · exact Or.inr ⟨Or.inl hnone, hbad⟩
  · refine Or.inr ⟨Or.inr hno, ?_⟩
    cases hrun : copyTables xmlfile (arraysSort (compareOffset tdl) (List.range tdl.length))
      { src := src'
        dst := writeHeader { dst with pointer := 0 } (offsetTableFor ot.sfnt tdl.length)
        store := tdl
        size := BitVec.ofNat 32 (startOfTables tdl) } with
    | error e => exact ⟨e, rfl⟩
    | ok st =>
      rw [ok_bind]
      exact adjust_error (hbad st hrun)

/-- A run with a directory loaded: it leaves the outcome, or it throws. -/
theorem run_cases (xmlfile : XmlFile) {src src' : RandomAccessFile} {ot : OffsetTable}
    {head : Option Nat} (hload : loadDirectory src = .ok (ot, tdl, head, src'))
    (hf : dst.Fills) :
    (∃ k, head = some k ∧ FitsAll xmlfile (byOffset tdl) (startOfTables tdl) ∧
      ∃ dst', run src xmlfile dst = .ok dst' ∧ dst'.content =
        outcome src.content (builtName xmlfile) ot.sfnt tdl dst.content k) ∨
    ((head = none ∨ ¬ FitsAll xmlfile (byOffset tdl) (startOfTables tdl)) ∧
      ∃ e, run src xmlfile dst = .error e) := by
  rcases run_writes xmlfile dst hload with
    ⟨k, hk, hfits, dst', es, sum, hrun, _, hout, hfill⟩ | hno
  · obtain ⟨hes, hsum⟩ := hfill hf
    rw [hes, hsum] at hout
    exact Or.inl ⟨k, hk, hfits, dst', hrun, hout⟩
  · exact Or.inr hno

end Run

end FixName
end Otf
end I18nZh
