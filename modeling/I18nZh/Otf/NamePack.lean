import I18nZh.Otf.NameFormat
import I18nZh.Otf.NameLoad

/-!
# The table that is built

`packNameTable` throws, or it returns the layout of the records in key order over
the pool of their strings.
-/

namespace I18nZh
namespace Otf

open Java Storage BigEndian Occurrence NameFormat

/-- What goes into the table of a record. -/
def NameRecord.raw (nr : NameRecord) : RawNameRecord :=
  { platformID := nr.platformID, encodingID := nr.encodingID, languageID := nr.languageID,
    nameID := nr.nameID, length := nr.length, offset := nr.offset }

namespace Tookit

/-- The name an object stands for. -/
def nameOf (heap : Heap) (r : Nat) : NameEntry :=
  let nr := deref heap r
  { platformID := nr.platformID, encodingID := nr.encodingID, languageID := nr.languageID,
    nameID := nr.nameID, string := nr.bytes.getD [] }

/-! ## The order of the records -/

theorem compareKey_iff (heap : Heap) (r1 r2 : Nat) :
    compareKey heap r1 r2 ≤ 0 ↔ (nameOf heap r1).key ≤ (nameOf heap r2).key := by
  simp only [compareKey, NameEntry.key, nameOf, Prod.Lex.le_iff, ofLex_toLex]
  split_ifs <;> simp <;> omega

theorem compareKey_sameNames {heap heap' : Heap} (h : sameNames heap heap') :
    compareKey heap' = compareKey heap := by
  funext r1 r2
  have hk (r : Nat) : (deref heap' r).platformID = (deref heap r).platformID ∧
      (deref heap' r).encodingID = (deref heap r).encodingID ∧
      (deref heap' r).languageID = (deref heap r).languageID ∧
      (deref heap' r).nameID = (deref heap r).nameID := by
    have hd := h.deref r
    exact ⟨(congrArg NameRecord.platformID hd).symm, (congrArg NameRecord.encodingID hd).symm,
      (congrArg NameRecord.languageID hd).symm, (congrArg NameRecord.nameID hd).symm⟩
  obtain ⟨a1, a2, a3, a4⟩ := hk r1
  obtain ⟨b1, b2, b3, b4⟩ := hk r2
  simp only [compareKey, a1, a2, a3, a4, b1, b2, b3, b4]

def placeOrder (heap : Heap) (nrs : List Nat) : List Nat := arraysSort (compareLength heap) nrs

def recordOrder (heap : Heap) (nrs : List Nat) : List Nat :=
  arraysSort (compareKey heap) (placeOrder heap nrs)

theorem recordOrder_perm (heap : Heap) (nrs : List Nat) : (recordOrder heap nrs).Perm nrs :=
  (arraysSort_perm _ _).trans (arraysSort_perm _ _)

theorem recordOrder_length (heap : Heap) (nrs : List Nat) :
    (recordOrder heap nrs).length = nrs.length := (recordOrder_perm heap nrs).length_eq

theorem recordOrder_pairwise (heap : Heap) (nrs : List Nat) :
    (recordOrder heap nrs).Pairwise fun r1 r2 =>
      (nameOf heap r1).key ≤ (nameOf heap r2).key := by
  have h := arraysSort_pairwise (compareKey heap)
    (fun x y => by
      rw [compareKey_iff, compareKey_iff]
      exact le_total _ _)
    (fun x y z h1 h2 => by
      rw [compareKey_iff] at h1 h2 ⊢
      exact le_trans h1 h2) (placeOrder heap nrs)
  exact h.imp fun hle => (compareKey_iff heap _ _).mp hle

/-! ## Writing the header and the records -/

section Write

variable {buf : Bytes}

/-- A store behind what has just been written. -/
theorem toBytesShort_behind (v : JShort) {k : Nat} (d : Bytes) (h : buf.length = 65536)
    (hd : k + d.length + 2 ≤ 65536) :
    toBytesShort v (overwrite 0 buf k d) (BitVec.ofNat 32 (k + d.length)) =
      .ok (overwrite 0 buf k (d ++ shortBytes v)) := by
  have hl : (overwrite 0 buf k d).length = 65536 := by
    rw [overwrite_length_of_le 0 (by omega), h]
  rw [toBytesShort_eq v (by omega) (by omega), overwrite_append]

theorem writeHeader_eq (nh : NameHeader) (h : buf.length = 65536) :
    (do
      let buf ← toBytesShort nh.format buf 0
      let buf ← toBytesShort nh.count buf 2
      toBytesShort nh.stringOffset buf 4) = .ok (overwrite 0 buf 0 (headerBytes nh)) := by
  have s0 : toBytesShort nh.format buf 0 = .ok (overwrite 0 buf 0 (shortBytes nh.format)) :=
    toBytesShort_eq (k := 0) nh.format (by omega) (by decide)
  have s1 : toBytesShort nh.count (overwrite 0 buf 0 (shortBytes nh.format)) 2 =
      .ok (overwrite 0 buf 0 (shortBytes nh.format ++ shortBytes nh.count)) :=
    toBytesShort_behind (k := 0) nh.count (shortBytes nh.format) h (by simp)
  have s2 : toBytesShort nh.stringOffset
      (overwrite 0 buf 0 (shortBytes nh.format ++ shortBytes nh.count)) 4 =
      .ok (overwrite 0 buf 0 (headerBytes nh)) :=
    toBytesShort_behind (k := 0) nh.stringOffset (shortBytes nh.format ++ shortBytes nh.count) h
      (by simp)
  simp only [bind, Except.bind, s0, s1, s2]

/-- The first five of the six stores of a record. -/
theorem writeRecord_step (r : RawNameRecord) {k : Nat} (h : buf.length = 65536)
    (hk : k + 10 ≤ 65536) :
    (do
      let buf ← toBytesShort r.platformID buf (BitVec.ofNat 32 k)
      let buf ← toBytesShort r.encodingID buf (BitVec.ofNat 32 (k + 2))
      let buf ← toBytesShort r.languageID buf (BitVec.ofNat 32 (k + 4))
      let buf ← toBytesShort r.nameID buf (BitVec.ofNat 32 (k + 6))
      let buf ← toBytesShort r.length buf (BitVec.ofNat 32 (k + 8))
      toBytesShort r.offset buf (BitVec.ofNat 32 (k + 10))) =
      toBytesShort r.offset (overwrite 0 buf k (shortBytes r.platformID ++
        shortBytes r.encodingID ++ shortBytes r.languageID ++ shortBytes r.nameID ++
        shortBytes r.length)) (BitVec.ofNat 32 (k + 10)) := by
  have s0 := toBytesShort_eq r.platformID (by omega : k + 2 ≤ buf.length) (by omega)
  have s1 := toBytesShort_behind (k := k) r.encodingID (shortBytes r.platformID) h
    (by simp; omega)
  have s2 := toBytesShort_behind (k := k) r.languageID
    (shortBytes r.platformID ++ shortBytes r.encodingID) h (by simp; omega)
  have s3 := toBytesShort_behind (k := k) r.nameID (shortBytes r.platformID ++
    shortBytes r.encodingID ++ shortBytes r.languageID) h (by simp; omega)
  have s4 := toBytesShort_behind (k := k) r.length (shortBytes r.platformID ++
    shortBytes r.encodingID ++ shortBytes r.languageID ++ shortBytes r.nameID) h
    (by simp; omega)
  simp only [List.length_append, shortBytes_length, Nat.reduceAdd] at s1 s2 s3 s4
  simp only [bind, Except.bind, s0, s1, s2, s3, s4]

theorem writeRecord_eq (r : RawNameRecord) {k : Nat} (h : buf.length = 65536)
    (hk : k + 12 ≤ 65536) :
    (do
      let buf ← toBytesShort r.platformID buf (BitVec.ofNat 32 k)
      let buf ← toBytesShort r.encodingID buf (BitVec.ofNat 32 (k + 2))
      let buf ← toBytesShort r.languageID buf (BitVec.ofNat 32 (k + 4))
      let buf ← toBytesShort r.nameID buf (BitVec.ofNat 32 (k + 6))
      let buf ← toBytesShort r.length buf (BitVec.ofNat 32 (k + 8))
      toBytesShort r.offset buf (BitVec.ofNat 32 (k + 10))) =
      .ok (overwrite 0 buf k (recordBytes r)) := by
  rw [writeRecord_step r h (by omega)]
  exact toBytesShort_behind (k := k) r.offset (shortBytes r.platformID ++
    shortBytes r.encodingID ++ shortBytes r.languageID ++ shortBytes r.nameID ++
    shortBytes r.length) h (by simp; omega)

theorem writeRecords_cons (heap : Heap) (r : Nat) (rest : List Nat) (i : Nat) :
    writeRecords heap (r :: rest) i buf = (do
      let buf ← (do
        let buf ← toBytesShort (deref heap r).raw.platformID buf (BitVec.ofNat 32 (6 + 12 * i))
        let buf ← toBytesShort (deref heap r).raw.encodingID buf
          (BitVec.ofNat 32 (6 + 12 * i + 2))
        let buf ← toBytesShort (deref heap r).raw.languageID buf
          (BitVec.ofNat 32 (6 + 12 * i + 4))
        let buf ← toBytesShort (deref heap r).raw.nameID buf (BitVec.ofNat 32 (6 + 12 * i + 6))
        let buf ← toBytesShort (deref heap r).raw.length buf (BitVec.ofNat 32 (6 + 12 * i + 8))
        toBytesShort (deref heap r).raw.offset buf (BitVec.ofNat 32 (6 + 12 * i + 10)))
      writeRecords heap rest (i + 1) buf) := by
  rw [writeRecords, Nat.mul_comm i 12]
  simp only [bind_assoc]
  rfl

theorem writeRecords_eq (heap : Heap) : ∀ (refs : List Nat) (i : Nat) (buf : Bytes),
    buf.length = 65536 → 6 + 12 * (i + refs.length) ≤ 65536 →
    writeRecords heap refs i buf =
      .ok (overwrite 0 buf (6 + 12 * i)
        (refs.flatMap fun r => recordBytes (deref heap r).raw)) := by
  intro refs
  induction refs with
  | nil =>
    intro i buf _ _
    rw [writeRecords, List.flatMap_nil, overwrite_nil]
    rfl
  | cons r rest ih =>
    intro i buf hb hi
    rw [List.length_cons] at hi
    have hnext : 6 + 12 * (i + 1) = 6 + 12 * i + (recordBytes (deref heap r).raw).length := by
      rw [recordBytes_length]
      omega
    rw [writeRecords_cons, writeRecord_eq _ hb (by omega)]
    show writeRecords heap rest (i + 1) _ = _
    rw [ih (i + 1) _ (by rw [overwrite_length_of_le 0 (by rw [recordBytes_length]; omega), hb])
      (by omega), hnext, overwrite_append, List.flatMap_cons]

/-- The buffer has no room for record number 5460. -/
theorem writeRecords_error (heap : Heap) : ∀ (refs : List Nat) (i : Nat) (buf : Bytes),
    buf.length = 65536 → i ≤ 5460 → 5460 < i + refs.length →
    ∃ e, writeRecords heap refs i buf = .error e := by
  intro refs
  induction refs with
  | nil =>
    intro i buf _ h1 h2
    rw [List.length_nil] at h2
    omega
  | cons r rest ih =>
    intro i buf hb h1 h2
    rw [List.length_cons] at h2
    rw [writeRecords_cons]
    by_cases hi : i = 5460
    · have hl : (overwrite 0 buf (6 + 12 * 5460) (shortBytes (deref heap r).raw.platformID ++
          shortBytes (deref heap r).raw.encodingID ++ shortBytes (deref heap r).raw.languageID ++
          shortBytes (deref heap r).raw.nameID ++
          shortBytes (deref heap r).raw.length)).length = 65536 := by
        rw [overwrite_length_of_le 0 (by simp [hb]), hb]
      rw [hi, writeRecord_step _ hb (by omega), toBytesShort_error _ (by omega) (by omega)]
      exact ⟨_, rfl⟩
    · rw [writeRecord_eq _ hb (by omega)]
      exact ih (i + 1) _ (by rw [overwrite_length_of_le 0 (by rw [recordBytes_length]; omega), hb])
        (by omega) (by omega)

end Write

/-! ## The whole table -/

/-- The pool of the strings of a list of objects.  There is none when there are
too many objects, when an object has no string, or when the strings cannot be
stored. -/
def Packs (heap : Heap) (nrs : List Nat) (pool : Bytes) : Prop :=
  nrs.length ≤ 2730 ∧ ∃ strings : List Bytes,
    (placeOrder heap nrs).map (bytesOf heap) = strings.map some ∧
    packStrings stored (65536 - (6 + 12 * nrs.length)) [] strings = some pool

theorem signExtend_stringOffset {n : Nat} (h : n ≤ 2730) :
    (headerFor n).stringOffset.signExtend 32 = BitVec.ofNat 32 (6 + 12 * n) :=
  signExtend_ofNat_of_lt (by omega)

theorem placeLoop_length {so : JShort} : ∀ (refs : List Nat) (heap : Heap) (buf : Bytes)
    (size : JInt) (r : Heap × Bytes × JInt), placeLoop so refs heap buf size = .ok r →
    r.2.1.length = buf.length := by
  intro refs
  induction refs with
  | nil =>
    intro heap buf size r h
    cases h
    rfl
  | cons q rest ih =>
    intro heap buf size r h
    cases hs : bytesOf heap q with
    | none =>
      have hs' : (deref heap q).bytes = none := hs
      rw [placeLoop] at h
      simp only [hs'] at h
      cases h
    | some s =>
      rw [placeLoop_some hs] at h
      cases hidx : indexOf buf (so.signExtend 32) size s with
      | error e =>
        rw [hidx] at h
        cases h
      | ok index =>
        rw [hidx] at h
        simp only [bind, Except.bind] at h
        split_ifs at h
        · cases hc : arraycopy s 0 buf (so.signExtend 32 + size)
              ((deref heap q).length.signExtend 32) with
          | error e =>
            rw [hc] at h
            cases h
          | ok buf' =>
            rw [hc] at h
            rw [ih _ _ _ _ h, arraycopy_length hc]
        · exact ih _ _ _ _ h

/-- `packNameTable` with its steps grouped. -/
theorem packNameTable_steps (heap : Heap) (nrs : List Nat) :
    packNameTable heap nrs = (do
      let r ← placeLoop (headerFor nrs.length).stringOffset (placeOrder heap nrs) heap
        (List.replicate 65536 0) 0
      let buf ← (do
        let buf ← toBytesShort (headerFor nrs.length).format r.2.1 0
        let buf ← toBytesShort (headerFor nrs.length).count buf 2
        toBytesShort (headerFor nrs.length).stringOffset buf 4)
      let buf ← writeRecords r.1 (arraysSort (compareKey r.1) (placeOrder heap nrs)) 0 buf
      let name ← newArray 0 (r.2.2 + (headerFor nrs.length).stringOffset.signExtend 32)
      arraycopy buf 0 name 0 (r.2.2 + (headerFor nrs.length).stringOffset.signExtend 32)) := by
  simp only [bind_assoc]
  rfl

/-- From record 2731 on the offset of the storage area is negative as a `short`,
or the records do not fit. -/
theorem packNameTable_error {heap : Heap} {nrs : List Nat} (h : 2730 < nrs.length) :
    ∃ e, packNameTable heap nrs = .error e := by
  have hlen : (placeOrder heap nrs).length = nrs.length := arraysSort_length _ _
  rw [packNameTable_steps]
  cases hp : placeLoop (headerFor nrs.length).stringOffset (placeOrder heap nrs) heap
      (List.replicate 65536 0) 0 with
  | error e => exact ⟨e, rfl⟩
  | ok r =>
    have hbuf : r.2.1.length = 65536 := by
      rw [placeLoop_length _ _ _ _ _ hp, List.length_replicate]
    have hmany : 5460 < nrs.length := by
      by_contra hle
      have hneg : (headerFor nrs.length).stringOffset.toInt < 0 := by
        show (BitVec.ofNat 16 (6 + 12 * nrs.length) : JShort).toInt < 0
        rw [BitVec.toInt_eq_toNat_cond, BitVec.toNat_ofNat, Nat.mod_eq_of_lt (by omega)]
        split <;> omega
      cases ho : placeOrder heap nrs with
      | nil =>
        rw [ho, List.length_nil] at hlen
        omega
      | cons q rest =>
        obtain ⟨e, he⟩ := placeLoop_error_of_neg heap (List.replicate 65536 0) q hneg
          rest
        rw [ho, he] at hp
        cases hp
    simp only [bind, Except.bind]
    have hhead := writeHeader_eq (headerFor nrs.length) hbuf
    simp only [bind, Except.bind] at hhead
    rw [hhead]
    obtain ⟨e, he⟩ := writeRecords_error r.1 (arraysSort (compareKey r.1) (placeOrder heap nrs)) 0
      (overwrite 0 r.2.1 0 (headerBytes (headerFor nrs.length)))
      (by rw [overwrite_length_of_le 0 (by rw [headerBytes_length]; omega), hbuf]) (by omega)
      (by rw [arraysSort_length, hlen]; omega)
    simp only [he]
    exact ⟨e, rfl⟩

/-- The header, the records and the copy into an array of the right size. -/
theorem finish_eq (heap : Heap) (refs : List Nat) {buf pool : Bytes} (hn : refs.length ≤ 2730)
    (hh : Holds (6 + 12 * refs.length) pool buf) :
    (do
      let buf ← (do
        let buf ← toBytesShort (headerFor refs.length).format buf 0
        let buf ← toBytesShort (headerFor refs.length).count buf 2
        toBytesShort (headerFor refs.length).stringOffset buf 4)
      let buf ← writeRecords heap refs 0 buf
      let name ← newArray 0
        (BitVec.ofNat 32 pool.length + (headerFor refs.length).stringOffset.signExtend 32)
      arraycopy buf 0 name 0
        (BitVec.ofNat 32 pool.length + (headerFor refs.length).stringOffset.signExtend 32)) =
      .ok (layout (refs.map fun r => (deref heap r).raw) pool) := by
  have hbuf := hh.length_eq
  have hroom := hh.room
  have hbuf1 : (overwrite 0 buf 0 (headerBytes (headerFor refs.length))).length = 65536 := by
    rw [overwrite_length_of_le 0 (by rw [headerBytes_length]; omega), hbuf]
  have hsize : BitVec.ofNat 32 pool.length + (headerFor refs.length).stringOffset.signExtend 32 =
      BitVec.ofNat 32 (6 + 12 * refs.length + pool.length) := by
    rw [signExtend_stringOffset hn, add_ofNat, Nat.add_comm]
  have hnat : (BitVec.ofNat 32 (6 + 12 * refs.length + pool.length)).toNat =
      6 + 12 * refs.length + pool.length := toNat_ofNat_of_lt (by omega)
  have hjoin := overwrite_append 0 buf 0 (headerBytes (headerFor refs.length))
    ((refs.map fun r => (deref heap r).raw).flatMap recordBytes)
  have harea := area_length (refs.map fun r => (deref heap r).raw)
  rw [List.length_map] at harea
  rw [headerBytes_length, Nat.zero_add] at hjoin
  rw [writeHeader_eq _ hbuf, ok_bind, writeRecords_eq heap refs 0 _ hbuf1 (by omega), ok_bind,
    Nat.mul_zero, Nat.add_zero, ← List.flatMap_map, hjoin, hsize,
    newArray_of_nonneg _ (by omega), ok_bind, hnat, overwrite_zero, harea]
  have hslice : slice (headerBytes (headerFor refs.length) ++
      (refs.map fun r => (deref heap r).raw).flatMap recordBytes ++
        buf.drop (6 + 12 * refs.length)) 0 (6 + 12 * refs.length + pool.length) =
      layout (refs.map fun r => (deref heap r).raw) pool := by
    have hpool : (buf.drop (6 + 12 * refs.length)).take pool.length = pool := hh.area
    rw [slice, List.drop_zero, List.take_append, List.take_of_length_le (by omega), harea,
      Nat.add_sub_cancel_left, hpool, layout, List.length_map]
  have hlen : (layout (refs.map fun r => (deref heap r).raw) pool).length =
      6 + 12 * refs.length + pool.length := by
    rw [layout_length, List.length_map]
  refine Eq.trans (arraycopy_eq (0 : JByte) _ _ 0 0 (6 + 12 * refs.length + pool.length) ?_ ?_
    (by omega) (by omega)) ?_
  · rw [List.length_append, harea, List.length_drop]
    omega
  · rw [List.length_replicate]
    omega
  · rw [hslice, overwrite_zero, hlen, List.drop_replicate, Nat.sub_self]
    simp

/-- What `packNameTable` does: it throws where the strings do not pack, and else
returns the records in key order over the pool. -/
theorem packNameTable_cases {heap : Heap} (hm : Measured heap) (nrs : List Nat) :
    ((∃ e, packNameTable heap nrs = .error e) ∧ ¬ ∃ pool, Packs heap nrs pool) ∨
    ∃ pool heap', Packs heap nrs pool ∧ sameNames heap heap' ∧
      (∀ r ∈ nrs, Placed pool (deref heap' r)) ∧
      6 + 12 * nrs.length + pool.length ≤ 65536 ∧
      packNameTable heap nrs =
        .ok (layout ((recordOrder heap nrs).map fun r => (deref heap' r).raw) pool) := by
  by_cases hmany : 2730 < nrs.length
  · refine Or.inl ⟨packNameTable_error hmany, ?_⟩
    intro h
    obtain ⟨pool, hle, _⟩ := h
    omega
  have hn : nrs.length ≤ 2730 := by omega
  have hstart : Holds (6 + 12 * nrs.length) [] (List.replicate 65536 0) := by
    constructor
    · exact List.length_replicate
    · omega
    · rw [List.length_nil]
      omega
    · exact slice_zero _ _
  have hplace := placeLoop_cases (signExtend_stringOffset hn) (placeOrder heap nrs) heap
    (List.replicate 65536 0) [] hm hstart
  rw [packNameTable_steps]
  rcases hplace with ⟨⟨e, he⟩, hno⟩ | ⟨strings, pool, heap', buf', hstr, hpack, hok, hsame,
    hholds, _, hall, _⟩
  · refine Or.inl ⟨⟨e, ?_⟩, ?_⟩
    · have he' : placeLoop (headerFor nrs.length).stringOffset (placeOrder heap nrs) heap
          (List.replicate 65536 0) 0 = .error e := he
      rw [he']
      rfl
    · intro h
      obtain ⟨pool, _, strings, hstr, hpack⟩ := h
      exact hno ⟨strings, pool, hstr, hpack⟩
  · have hroom := hholds.room
    have hbuf := hholds.length_eq
    have hok' : placeLoop (headerFor nrs.length).stringOffset (placeOrder heap nrs) heap
        (List.replicate 65536 0) 0 = .ok (heap', buf', BitVec.ofNat 32 pool.length) := hok
    refine Or.inr ⟨pool, heap', ⟨hn, strings, hstr, hpack⟩, hsame, ?_, by omega, ?_⟩
    · intro r hr
      exact hall r ((arraysSort_perm _ _).mem_iff.mpr hr)
    · rw [hok', ok_bind]
      have horder : arraysSort (compareKey heap') (placeOrder heap nrs) =
          recordOrder heap nrs := by
        rw [compareKey_sameNames hsame]
        rfl
      rw [horder, ← recordOrder_length heap nrs]
      rw [← recordOrder_length heap nrs] at hn hholds
      exact finish_eq heap' _ hn hholds

/-! ## The table of a document -/

theorem loadNameTable_of_load {xmlfile : XmlFile} {heap : Heap} {nrs : List Nat}
    (h : loadNameRecord xmlfile = .ok (heap, nrs)) :
    loadNameTable xmlfile = packNameTable heap nrs := by
  rw [loadNameTable, h]
  rfl

/-- A table has its header, and fits into the buffer it was built in. -/
theorem loadNameTable_length {xmlfile : XmlFile} {table : Bytes}
    (h : loadNameTable xmlfile = .ok table) : 6 ≤ table.length ∧ table.length ≤ 65536 := by
  unfold loadNameTable at h
  obtain ⟨⟨heap, nrs⟩, hload, hpack⟩ := bind_eq_ok h
  simp only at hpack
  rcases packNameTable_cases (loadNameRecord_measured hload) nrs with
    ⟨⟨e, he⟩, _⟩ | ⟨pool, heap', _, _, _, hsize, hok⟩
  · rw [he] at hpack
    cases hpack
  · rw [hok] at hpack
    cases hpack
    rw [layout_length, List.length_map, recordOrder_length]
    omega

end Tookit
end Otf
end I18nZh
