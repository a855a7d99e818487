import Mathlib.Order.Bounds.Defs
import I18nZh.Lib.Occurrence
import I18nZh.Otf.NameTable

/-!
# The string storage area

`indexOf` finds the first occurrence in a region of the buffer.  With it the loop
that places the strings keeps the storage area equal to the pool that
`packStrings` makes of the strings, and every record placed so far goes on
designating its string while the pool grows.
-/

namespace I18nZh
namespace Otf
namespace Tookit

open Java Storage BigEndian Occurrence

/-! ## `indexOf` -/

/-- The positions from `lo` on at which the string stands in front of `hi`. -/
def positions (buf : Bytes) (lo hi : Nat) (sb : Bytes) : Set Nat :=
  {p | lo ≤ p ∧ p + sb.length ≤ hi ∧ slice buf p sb.length = sb}

section Search

variable {buf sb : Bytes}

/-- The comparison stops after the last byte exactly when the bytes agree. -/
theorem matchLoop_eq {o : Nat} (hb : buf.length < 2 ^ 31) : ∀ (rest : Bytes) (i : Nat),
    o + i + rest.length ≤ buf.length →
    ∃ j, matchLoop buf (BitVec.ofNat 32 o) rest i = .ok j ∧
      (i + rest.length ≤ j ↔ slice buf (o + i) rest.length = rest) := by
  intro rest
  induction rest with
  | nil =>
    intro i _
    exact ⟨i, rfl, by simp [slice_zero]⟩
  | cons b rest ih =>
    intro i hi
    rw [List.length_cons] at hi
    have hlt : o + i < buf.length := by omega
    have hslice : slice buf (o + i) (b :: rest).length =
        buf[o + i] :: slice buf (o + (i + 1)) rest.length := by
      rw [slice, List.drop_eq_getElem_cons hlt, List.length_cons, List.take_succ_cons]
      rfl
    rw [matchLoop, add_ofNat, arrayGet_of_lt hlt (by omega)]
    simp only [bind, Except.bind]
    by_cases hne : b = buf[o + i]
    · rw [if_neg (not_not.mpr hne)]
      obtain ⟨j, hj, hiff⟩ := ih (i + 1) (by omega)
      refine ⟨j, hj, ?_⟩
      rw [hslice, List.length_cons, ← hne, List.cons.injEq, ← hiff]
      constructor
      · intro h
        exact ⟨rfl, by omega⟩
      · intro h
        have := h.2
        omega
    · rw [if_pos hne]
      refine ⟨i, rfl, ?_⟩
      rw [hslice, List.length_cons, List.cons.injEq]
      constructor
      · intro h
        omega
      · intro h
        exact absurd h.1.symm hne

/-- The search ends at the first occurrence, or at none. -/
theorem searchLoop_eq (sb : Bytes) (hb : buf.length < 2 ^ 31) : ∀ (fuel o size : Nat),
    size + 1 < fuel → o + size ≤ buf.length →
    (∃ p, searchLoop buf sb fuel (BitVec.ofNat 32 o) (BitVec.ofNat 32 size) =
        .ok (BitVec.ofNat 32 p) ∧ o ≤ p ∧ p + sb.length ≤ o + size ∧
        slice buf p sb.length = sb ∧ ∀ q, o ≤ q → q < p → slice buf q sb.length ≠ sb) ∨
    (searchLoop buf sb fuel (BitVec.ofNat 32 o) (BitVec.ofNat 32 size) = .ok (-1) ∧
      ∀ q, o ≤ q → q + sb.length ≤ o + size → slice buf q sb.length ≠ sb) := by
  intro fuel
  induction fuel with
  | zero => intro _ _ h; omega
  | succ fuel ih =>
    intro o size hf hr
    have hsize : (BitVec.ofNat 32 size).toInt = size := toInt_ofNat_of_lt (by omega)
    rw [searchLoop, hsize]
    by_cases hle : sb.length ≤ size
    · rw [if_pos (by omega)]
      obtain ⟨j, hj, hiff⟩ := matchLoop_eq hb sb 0 (o := o) (by omega)
      rw [Nat.zero_add, Nat.add_zero] at hiff
      rw [hj]
      simp only [bind, Except.bind]
      by_cases hm : sb.length ≤ j
      · rw [if_pos hm]
        exact Or.inl ⟨o, rfl, Nat.le_refl o, by omega, hiff.mp hm, fun q h1 h2 => by omega⟩
      · rw [if_neg hm]
        have hno : slice buf o sb.length ≠ sb := mt hiff.mpr hm
        cases size with
        | zero =>
          have hnil : sb = [] := List.length_eq_zero_iff.mp (by omega)
          rw [hnil] at hno
          exact absurd (slice_zero buf o) hno
        | succ size =>
          have ho : BitVec.ofNat 32 o + 1 = BitVec.ofNat 32 (o + 1) := add_ofNat o 1
          rw [ho, ofNat_succ_sub]
          rcases ih (o + 1) size (by omega) (by omega) with
            ⟨p, hp, h1, h2, h3, h4⟩ | ⟨hp, h1⟩
          · refine Or.inl ⟨p, hp, by omega, by omega, h3, fun q hq1 hq2 => ?_⟩
            by_cases hq : q = o
            · rw [hq]
              exact hno
            · exact h4 q (by omega) hq2
          · refine Or.inr ⟨hp, fun q hq1 hq2 => ?_⟩
            by_cases hq : q = o
            · rw [hq]
              exact hno
            · exact h1 q (by omega) (by omega)
    · rw [if_neg (by omega)]
      exact Or.inr ⟨rfl, fun q h1 h2 => by omega⟩

/-- What the loop answers, in the numbers of the region. -/
theorem indexOf_ofNat (sb : Bytes) {o size : Nat} (hb : buf.length < 2 ^ 31) (hr : o + size ≤ buf.length) :
    (∃ p, indexOf buf (BitVec.ofNat 32 o) (BitVec.ofNat 32 size) sb = .ok (BitVec.ofNat 32 p) ∧
      IsLeast (positions buf o (o + size) sb) p) ∨
    (indexOf buf (BitVec.ofNat 32 o) (BitVec.ofNat 32 size) sb = .ok (-1) ∧
      positions buf o (o + size) sb = ∅) := by
  have hsize : (BitVec.ofNat 32 size).toInt = size := toInt_ofNat_of_lt (by omega)
  have hnat : (BitVec.ofNat 32 size).toNat = size := toNat_ofNat_of_lt (by omega)
  rw [indexOf, hsize, hnat]
  by_cases hlt : size < sb.length
  · rw [if_pos (by omega)]
    refine Or.inr ⟨rfl, Set.eq_empty_of_forall_notMem ?_⟩
    rintro p ⟨hlo, hhi, -⟩
    omega
  · rw [if_neg (by omega)]
    rcases searchLoop_eq sb hb (size + 2) o size (by omega) hr with
      ⟨p, hp, hlo, hhi, hfound, hfirst⟩ | ⟨hp, hno⟩
    · refine Or.inl ⟨p, hp, ⟨hlo, hhi, hfound⟩, ?_⟩
      rintro q ⟨hq, -, hq'⟩
      by_contra hlt
      exact hfirst q hq (by omega) hq'
    · refine Or.inr ⟨hp, Set.eq_empty_of_forall_notMem ?_⟩
      rintro q ⟨hlo, hhi, hq⟩
      exact hno q hlo hhi hq

/-- `indexOf` in a region that holds `pool`. -/
theorem indexOf_cases (sb : Bytes) {pool : Bytes} {S : Nat} (hb : buf.length < 2 ^ 31)
    (hr : S + pool.length ≤ buf.length) (hpool : slice buf S pool.length = pool) :
    (∃ p, Occurs sb pool p ∧ indexOf buf (BitVec.ofNat 32 S) (BitVec.ofNat 32 pool.length) sb =
        .ok (BitVec.ofNat 32 (S + p))) ∨
    (¬ sb <:+: pool ∧
      indexOf buf (BitVec.ofNat 32 S) (BitVec.ofNat 32 pool.length) sb = .ok (-1)) := by
  have hocc (p : Nat) : Occurs sb pool p ↔
      p + sb.length ≤ pool.length ∧ slice buf (S + p) sb.length = sb := by
    have h := occurs_slice_iff (s := sb) (p := p) hr
    rwa [hpool] at h
  rcases indexOf_ofNat sb hb hr with ⟨p, hp, ⟨hlo, hhi, hfound⟩, _⟩ | ⟨hp, hempty⟩
  · have hsub : S + (p - S) = p := by omega
    refine Or.inl ⟨p - S, ?_, ?_⟩
    · rw [hocc, hsub]
      exact ⟨by omega, hfound⟩
    · rw [hp, hsub]
  · refine Or.inr ⟨fun hin => ?_, hp⟩
    obtain ⟨p, hoccurs⟩ := infix_iff_occurs.mp hin
    obtain ⟨hle, hfound⟩ := (hocc p).mp hoccurs
    have hmem : S + p ∈ positions buf S (S + pool.length) sb := ⟨by omega, by omega, hfound⟩
    rw [hempty] at hmem
    exact hmem

/-- A region that starts before the buffer holds nothing. -/
theorem indexOf_of_neg (buf sb : Bytes) {offset : JInt} (ho : offset.toInt < 0) :
    ∃ r, indexOf buf offset 0 sb = .ok r ∧ r.toInt < 0 := by
  have hz : (0 : JInt).toInt = 0 := rfl
  rw [indexOf, hz]
  cases sb with
  | nil => exact ⟨offset, rfl, ho⟩
  | cons b rest =>
    rw [List.length_cons, if_pos (by omega)]
    exact ⟨-1, rfl, by decide⟩

end Search

/-! ## Placing strings -/

/-- What the loop copies of a string that is not in the pool: the 16-bit length
of it, which must not be negative. -/
def stored (s : Bytes) : Option Bytes :=
  if s.length % 65536 < 32768 then some (s.take (s.length % 65536)) else none

theorem stored_of_lt {s : Bytes} (h : s.length < 32768) : stored s = some s := by
  rw [stored, Nat.mod_eq_of_lt (by omega), if_pos h, List.take_length]

def bytesOf (heap : Heap) (r : Nat) : Option Bytes := (deref heap r).bytes

/-- The record's length field is the length of its string, modulo 2^16. -/
def Measured (heap : Heap) : Prop :=
  ∀ r s, bytesOf heap r = some s → (deref heap r).length = BitVec.ofNat 16 s.length

/-- The string, or the part of it the length field covers, stands in the pool
where the record says. -/
def Placed (pool : Bytes) (nr : NameRecord) : Prop :=
  ∃ s, nr.bytes = some s ∧ nr.length.toNat ≤ s.length ∧
    Occurs (s.take nr.length.toNat) pool nr.offset.toNat

theorem Placed.append {pool : Bytes} {nr : NameRecord} (h : Placed pool nr) (more : Bytes) :
    Placed (pool ++ more) nr := by
  obtain ⟨s, h1, h2, h3⟩ := h
  exact ⟨s, h1, h2, h3.append more⟩

/-- The objects apart from their offsets. -/
def sameNames (heap heap' : Heap) : Prop :=
  heap.map (fun nr => { nr with offset := 0 }) = heap'.map fun nr => { nr with offset := 0 }

theorem sameNames_refl (heap : Heap) : sameNames heap heap := rfl

theorem sameNames.trans {h1 h2 h3 : Heap} (a : sameNames h1 h2) (b : sameNames h2 h3) :
    sameNames h1 h3 := Eq.trans a b

theorem sameNames_set (heap : Heap) (r : Nat) (x : JShort) :
    sameNames heap (heap.set r { deref heap r with offset := x }) := by
  unfold sameNames
  refine List.ext_getElem (by simp) fun i h1 h2 => ?_
  simp only [List.getElem_map, List.getElem_set]
  by_cases hi : r = i
  · subst hi
    have hr : r < heap.length := by simpa using h1
    rw [if_pos rfl, deref, List.getD_eq_getElem _ _ hr]
  · rw [if_neg hi]

theorem sameNames.deref {heap heap' : Heap} (h : sameNames heap heap') (r : Nat) :
    { deref heap r with offset := 0 } = { deref heap' r with offset := 0 } := by
  have hget := congrArg (fun l : Heap => l.getD r newNameRecord) h
  have hmap (g : Heap) : (g.map fun nr => { nr with offset := 0 }).getD r newNameRecord =
      { Otf.deref g r with offset := 0 } := by
    rw [show newNameRecord =
        (fun nr : NameRecord => { nr with offset := 0 }) newNameRecord from rfl,
      List.getD_map]
    rfl
  rwa [hmap, hmap] at hget

theorem sameNames.bytes {heap heap' : Heap} (h : sameNames heap heap') :
    bytesOf heap' = bytesOf heap := by
  funext r
  exact (congrArg NameRecord.bytes (h.deref r)).symm

theorem sameNames.length {heap heap' : Heap} (h : sameNames heap heap') (r : Nat) :
    (Otf.deref heap' r).length = (Otf.deref heap r).length :=
  (congrArg NameRecord.length (h.deref r)).symm

theorem Measured.of_sameNames {heap heap' : Heap} (hm : Measured heap)
    (h : sameNames heap heap') : Measured heap' := by
  intro r s hs
  rw [h.bytes] at hs
  rw [h.length, hm r s hs]

theorem deref_set_self {heap : Heap} {r : Nat} {nr : NameRecord} (h : r < heap.length) :
    deref (heap.set r nr) r = nr := by
  rw [deref, List.getD_eq_getElem _ _ (by rwa [List.length_set]), List.getElem_set_self]

theorem deref_set_ne {heap : Heap} {r q : Nat} {nr : NameRecord} (h : r ≠ q) :
    deref (heap.set r nr) q = deref heap q := by
  rw [deref, deref, List.getD_eq_getElem?_getD, List.getD_eq_getElem?_getD,
    List.getElem?_set_ne h]

/-- A reference to an object with a string is valid. -/
theorem lt_length_of_bytes {heap : Heap} {r : Nat} {s : Bytes} (h : bytesOf heap r = some s) :
    r < heap.length := by
  by_contra hr
  rw [bytesOf, deref, List.getD_eq_default _ _ (by omega)] at h
  cases h

/-! ## The invariant of the loop -/

/-- The storage area at `S` of the buffer holds the pool. -/
structure Holds (S : Nat) (pool buf : Bytes) : Prop where
  length_eq : buf.length = 65536
  start_pos : 0 < S
  room : S + pool.length ≤ 65536
  area : slice buf S pool.length = pool

theorem placeLoop_some {so : JShort} {r : Nat} {rest : List Nat} {heap : Heap} {buf s : Bytes}
    {size : JInt} (hs : bytesOf heap r = some s) :
    placeLoop so (r :: rest) heap buf size = (do
      let index ← indexOf buf (so.signExtend 32) size s
      if index.toInt < 0 then do
        let buf ← arraycopy s 0 buf (so.signExtend 32 + size)
          ((deref heap r).length.signExtend 32)
        placeLoop so rest (heap.set r { deref heap r with offset := size.setWidth 16 }) buf
          (size + (deref heap r).length.signExtend 32)
      else
        placeLoop so rest
          (heap.set r { deref heap r with
            offset := (index - so.signExtend 32).setWidth 16 }) buf size) := by
  have hs' : (deref heap r).bytes = some s := hs
  rw [placeLoop]
  simp only [hs']

theorem setWidth_ofNat (n : Nat) :
    (BitVec.ofNat 32 n).setWidth 16 = BitVec.ofNat 16 n := by
  refine BitVec.eq_of_toNat_eq ?_
  rw [BitVec.toNat_setWidth, BitVec.toNat_ofNat, BitVec.toNat_ofNat]
  omega

theorem signExtend_length (n : Nat) :
    (n % 65536 < 32768 ∧
      (BitVec.ofNat 16 n : JShort).signExtend 32 = BitVec.ofNat 32 (n % 65536)) ∨
    (¬ n % 65536 < 32768 ∧ ((BitVec.ofNat 16 n : JShort).signExtend 32).toInt < 0) := by
  have hn : (BitVec.ofNat 16 n : JShort) = BitVec.ofNat 16 (n % 65536) := by
    refine BitVec.eq_of_toNat_eq ?_
    rw [BitVec.toNat_ofNat, BitVec.toNat_ofNat, Nat.mod_mod]
  by_cases h : n % 65536 < 32768
  · rw [hn]
    exact Or.inl ⟨h, signExtend_ofNat_of_lt h⟩
  · refine Or.inr ⟨h, ?_⟩
    rw [BitVec.toInt_signExtend_of_le (by decide), BitVec.toInt_eq_toNat_cond,
      BitVec.toNat_ofNat]
    split <;> omega

section Place

variable {so : JShort} {S : Nat} {heap : Heap} {buf pool s : Bytes} {r : Nat}

/-- What is copied behind the pool belongs to it. -/
theorem Holds.append {d : Bytes} (hh : Holds S pool buf)
    (hfit : pool.length + d.length ≤ 65536 - S) :
    Holds S (pool ++ d) (overwrite 0 buf (S + pool.length) d) := by
  have hlen := hh.length_eq
  have hroom := hh.room
  refine ⟨?_, hh.start_pos, ?_, ?_⟩
  · rw [overwrite_length_of_le 0 (by omega), hlen]
  · rw [List.length_append]
    omega
  · rw [List.length_append, slice_add, slice_overwrite_self,
      slice_overwrite_outside 0 (Or.inl (Nat.le_refl _)) (by omega), hh.area]

/-- The length field of a measured record has the low 16 bits of the length. -/
theorem Measured.length_toNat (hm : Measured heap) (hs : bytesOf heap r = some s) :
    (deref heap r).length.toNat = s.length % 65536 := by
  rw [hm r s hs]
  exact BitVec.toNat_ofNat _ _

/-- A record is placed where as much of its string as the field says occurs. -/
theorem Measured.placed (hm : Measured heap) (hs : bytesOf heap r = some s) {p : Nat}
    (hocc : Occurs (s.take (s.length % 65536)) pool p) (hp : p < 65536) :
    Placed pool { deref heap r with offset := BitVec.ofNat 16 p } := by
  have hln := hm.length_toNat hs
  refine ⟨s, hs, ?_, ?_⟩
  · show (deref heap r).length.toNat ≤ s.length
    rw [hln]
    exact Nat.mod_le _ _
  · show Occurs (s.take (deref heap r).length.toNat) pool (BitVec.ofNat 16 p).toNat
    rw [hln, BitVec.toNat_ofNat, Nat.mod_eq_of_lt (by omega : p < 2 ^ 16)]
    exact hocc

/-- A string that the search finds: nothing is copied. -/
theorem placeLoop_found (hso : so.signExtend 32 = BitVec.ofNat 32 S) (hm : Measured heap)
    (hh : Holds S pool buf) (hs : bytesOf heap r = some s) (rest : List Nat) {p : Nat}
    (hocc : Occurs s pool p)
    (hidx : indexOf buf (BitVec.ofNat 32 S) (BitVec.ofNat 32 pool.length) s =
      .ok (BitVec.ofNat 32 (S + p))) :
    Placed pool { deref heap r with offset := BitVec.ofNat 16 p } ∧
      placeLoop so (r :: rest) heap buf (BitVec.ofNat 32 pool.length) =
        placeLoop so rest (heap.set r { deref heap r with offset := BitVec.ofNat 16 p }) buf
          (BitVec.ofNat 32 pool.length) := by
  have hpos := hh.start_pos
  have hroom := hh.room
  have hp := hocc.1
  constructor
  · refine hm.placed hs ?_ (by omega)
    rw [Nat.mod_eq_of_lt (by omega), List.take_length]
    exact hocc
  · have hint : (BitVec.ofNat 32 (S + p)).toInt = ((S + p : Nat) : Int) :=
      toInt_ofNat_of_lt (by omega)
    have hsub : BitVec.ofNat 32 (S + p) - BitVec.ofNat 32 S = BitVec.ofNat 32 p := by
      rw [Nat.add_comm S p, ← add_ofNat, BitVec.add_sub_cancel]
    rw [placeLoop_some hs, hso, hidx]
    simp only [bind, Except.bind]
    rw [if_neg (by omega), hsub, setWidth_ofNat]

/-- A string that the search does not find: it is copied behind the pool, or the copy
throws. -/
theorem placeLoop_stored (hso : so.signExtend 32 = BitVec.ofNat 32 S) (hm : Measured heap)
    (hh : Holds S pool buf) (hs : bytesOf heap r = some s) (rest : List Nat)
    (hidx : indexOf buf (BitVec.ofNat 32 S) (BitVec.ofNat 32 pool.length) s = .ok (-1)) :
    (stored s = none ∧
      ∃ e, placeLoop so (r :: rest) heap buf (BitVec.ofNat 32 pool.length) = .error e) ∨
    ∃ d, stored s = some d ∧ d = s.take (s.length % 65536) ∧
      ((¬ pool.length + d.length ≤ 65536 - S ∧
        ∃ e, placeLoop so (r :: rest) heap buf (BitVec.ofNat 32 pool.length) = .error e) ∨
      pool.length + d.length ≤ 65536 - S ∧
        placeLoop so (r :: rest) heap buf (BitVec.ofNat 32 pool.length) =
          placeLoop so rest
            (heap.set r { deref heap r with offset := BitVec.ofNat 16 pool.length })
            (overwrite 0 buf (S + pool.length) d) (BitVec.ofNat 32 (pool ++ d).length)) := by
  have hlen := hh.length_eq
  have hpos := hh.start_pos
  have hroom := hh.room
  have hneg : (-1 : JInt).toInt < 0 := by decide
  rw [placeLoop_some hs, hso, hidx, stored]
  simp only [bind, Except.bind]
  rw [if_pos hneg, add_ofNat, setWidth_ofNat]
  have hsplit := signExtend_length s.length
  rw [← hm r s hs] at hsplit
  rcases hsplit with ⟨hlt, hsx⟩ | ⟨hge, hsx⟩
  · have hmod := Nat.mod_le s.length 65536
    have hcast : (BitVec.ofNat 32 (s.length % 65536)).toInt = ((s.length % 65536 : Nat) : Int) :=
      toInt_ofNat_of_lt (by omega)
    have hdst : (BitVec.ofNat 32 (S + pool.length)).toInt = ((S + pool.length : Nat) : Int) :=
      toInt_ofNat_of_lt (by omega)
    have hdl : (s.take (s.length % 65536)).length = s.length % 65536 := by
      rw [List.length_take]
      omega
    rw [if_pos hlt, hsx]
    refine Or.inr ⟨_, rfl, rfl, ?_⟩
    by_cases hfit : pool.length + (s.take (s.length % 65536)).length ≤ 65536 - S
    · have hcopy : arraycopy s 0 buf (BitVec.ofNat 32 (S + pool.length))
          (BitVec.ofNat 32 (s.length % 65536)) =
            .ok (overwrite 0 buf (S + pool.length) (s.take (s.length % 65536))) :=
        arraycopy_eq (0 : JByte) s buf 0 (S + pool.length) _
          (by omega) (by omega) (by omega) (by omega)
      rw [hcopy, add_ofNat, List.length_append, hdl]
      exact Or.inr ⟨by rw [hdl] at hfit; exact hfit, rfl⟩
    · rw [arraycopy_error (Or.inr (Or.inr (by omega)))]
      exact Or.inl ⟨hfit, _, rfl⟩
  · rw [if_neg hge, arraycopy_error (Or.inr (Or.inl hsx))]
    exact Or.inl ⟨rfl, _, rfl⟩

/-- One string: either it cannot be stored, and the loop throws, or the loop goes
on with the larger pool, and the record designates what it should. -/
theorem placeLoop_cons (hso : so.signExtend 32 = BitVec.ofNat 32 S) (hm : Measured heap)
    (hh : Holds S pool buf) (hs : bytesOf heap r = some s) (rest : List Nat) :
    (addString stored (65536 - S) pool s = none ∧
      ∃ e, placeLoop so (r :: rest) heap buf (BitVec.ofNat 32 pool.length) = .error e) ∨
    ∃ mid buf' x, addString stored (65536 - S) pool s = some mid ∧ Holds S mid buf' ∧
      Placed mid { deref heap r with offset := x } ∧
      placeLoop so (r :: rest) heap buf (BitVec.ofNat 32 pool.length) =
        placeLoop so rest (heap.set r { deref heap r with offset := x }) buf'
          (BitVec.ofNat 32 mid.length) := by
  have hlen := hh.length_eq
  have hpos := hh.start_pos
  have hroom := hh.room
  rcases indexOf_cases s (by omega) (by omega) hh.area with
    ⟨p, hocc, hidx⟩ | ⟨hno, hidx⟩
  · obtain ⟨hplaced, hrun⟩ := placeLoop_found hso hm hh hs rest hocc hidx
    refine Or.inr ⟨pool, buf, BitVec.ofNat 16 p, ?_, hh, hplaced, hrun⟩
    rw [addString, if_pos (infix_of_occurs hocc)]
  · rw [addString, if_neg hno]
    rcases placeLoop_stored hso hm hh hs rest hidx with
      ⟨hnone, he⟩ | ⟨d, hsome, hd, ⟨hno, he⟩ | ⟨hfit, hrun⟩⟩
    · rw [hnone]
      exact Or.inl ⟨rfl, he⟩
    · rw [hsome]
      simp only
      rw [if_neg hno]
      exact Or.inl ⟨rfl, he⟩
    · have hocc : Occurs (s.take (s.length % 65536)) (pool ++ d) pool.length := by
        rw [← hd]
        exact occurs_at_end pool d
      rw [hsome]
      simp only
      rw [if_pos hfit]
      exact Or.inr ⟨_, _, _, rfl, hh.append hfit, hm.placed hs hocc (by omega), hrun⟩

/-- The strings of a list of records whose first has the string `s`. -/
theorem strings_cons (hs : bytesOf heap r = some s) {rest : List Nat} {strings : List Bytes}
    (h : (r :: rest).map (bytesOf heap) = strings.map some) :
    ∃ tail, strings = s :: tail ∧ rest.map (bytesOf heap) = tail.map some := by
  cases strings with
  | nil => cases h
  | cons t tail =>
    rw [List.map_cons, List.map_cons, hs, List.cons.injEq, Option.some.injEq] at h
    exact ⟨tail, by rw [h.1], h.2⟩

/-- The update of one record leaves the placed ones placed, in the larger pool. -/
theorem placed_set (hr : r < heap.length) {mid : Bytes} (hgrow : pool <+: mid) {nr : NameRecord}
    (hp : Placed mid nr) {q : Nat} (hq : Placed pool (deref heap q)) :
    Placed mid (deref (heap.set r nr) q) := by
  by_cases hqr : r = q
  · subst hqr
    rw [deref_set_self hr]
    exact hp
  · obtain ⟨more, rfl⟩ := hgrow
    rw [deref_set_ne hqr]
    exact hq.append more

/-- The whole loop.  It comes through exactly when the strings are there and can
be packed. -/
theorem placeLoop_cases (hso : so.signExtend 32 = BitVec.ofNat 32 S) :
    ∀ (refs : List Nat) (heap : Heap) (buf pool : Bytes), Measured heap → Holds S pool buf →
    ((∃ e, placeLoop so refs heap buf (BitVec.ofNat 32 pool.length) = .error e) ∧
      ¬ ∃ strings out, refs.map (bytesOf heap) = strings.map some ∧
        packStrings stored (65536 - S) pool strings = some out) ∨
    ∃ strings out heap' buf', refs.map (bytesOf heap) = strings.map some ∧
      packStrings stored (65536 - S) pool strings = some out ∧
      placeLoop so refs heap buf (BitVec.ofNat 32 pool.length) =
        .ok (heap', buf', BitVec.ofNat 32 out.length) ∧
      sameNames heap heap' ∧ Holds S out buf' ∧ pool <+: out ∧
      (∀ r ∈ refs, Placed out (deref heap' r)) ∧
      ∀ r, Placed pool (deref heap r) → Placed out (deref heap' r) := by
  intro refs
  induction refs with
  | nil =>
    intro heap buf pool hm hh
    refine Or.inr ⟨[], pool, heap, buf, rfl, rfl, rfl, sameNames_refl heap, hh,
      List.prefix_refl pool, ?_, fun r hr => hr⟩
    intro r hr
    exact absurd hr List.not_mem_nil
  | cons r rest ih =>
    intro heap buf pool hm hh
    cases hs : bytesOf heap r with
    | none =>
      refine Or.inl ⟨⟨.nullPointer, ?_⟩, ?_⟩
      · have hs' : (deref heap r).bytes = none := hs
        rw [placeLoop]
        simp only [hs']
        rfl
      · intro h
        obtain ⟨strings, out, hstr, _⟩ := h
        cases strings with
        | nil => cases hstr
        | cons s strings => simp [hs] at hstr
    | some s =>
      rcases placeLoop_cons hso hm hh hs rest with ⟨hadd, he⟩ | ⟨mid, buf1, x, hadd, hh1, hp, hrun⟩
      · refine Or.inl ⟨he, ?_⟩
        intro h
        obtain ⟨strings, out, hstr, hpack⟩ := h
        obtain ⟨tail, rfl, _⟩ := strings_cons hs hstr
        rw [packStrings, hadd] at hpack
        cases hpack
      · have hsame := sameNames_set heap r x
        have hbytes := hsame.bytes
        have hgrow := addString_prefix hadd
        have hlt := lt_length_of_bytes hs
        rcases ih (heap.set r { deref heap r with offset := x }) buf1 mid
            (hm.of_sameNames hsame) hh1 with ⟨he, hno⟩ | ⟨strings, out, heap', buf', hstr, hpack,
              hok, hsn, hh', hpre, hall, hold⟩
        · refine Or.inl ⟨by rw [hrun]; exact he, ?_⟩
          intro h
          obtain ⟨strings, out, hstr, hpack⟩ := h
          obtain ⟨tail, rfl, htail⟩ := strings_cons hs hstr
          rw [packStrings, hadd] at hpack
          exact hno ⟨tail, out, by rw [hbytes]; exact htail, hpack⟩
        · rw [hbytes] at hstr
          refine Or.inr ⟨s :: strings, out, heap', buf', ?_, ?_, ?_, hsame.trans hsn, hh',
            hgrow.trans hpre, ?_, fun q hq => hold q (placed_set hlt hgrow hp hq)⟩
          · rw [List.map_cons, List.map_cons, hs, hstr]
          · rw [packStrings, hadd]
            exact hpack
          · rw [hrun, hok]
          · intro q hq
            rcases List.mem_cons.mp hq with rfl | hq
            · refine hold q ?_
              rw [deref_set_self hlt]
              exact hp
            · exact hall q hq

/-- With a negative offset of the storage area the first string already throws. -/
theorem placeLoop_error_of_neg (heap : Heap) (buf : Bytes) (r : Nat) (hso : so.toInt < 0)
    (rest : List Nat) :
    ∃ e, placeLoop so (r :: rest) heap buf 0 = .error e := by
  have hneg : (so.signExtend 32).toInt < 0 := by
    rw [BitVec.toInt_signExtend_of_le (by decide)]
    exact hso
  cases hs : bytesOf heap r with
  | none =>
    have hs' : (deref heap r).bytes = none := hs
    refine ⟨.nullPointer, ?_⟩
    rw [placeLoop]
    simp only [hs']
    rfl
  | some s =>
    obtain ⟨index, hidx, hlt⟩ := indexOf_of_neg buf s hneg
    refine ⟨.arrayIndexOutOfBounds, ?_⟩
    rw [placeLoop_some hs, hidx]
    simp only [bind, Except.bind]
    rw [if_pos hlt, arraycopy_error (Or.inl ?_)]
    simpa using hneg

end Place

end Tookit
end Otf
end I18nZh
