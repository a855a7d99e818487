import I18nZh.Otf.Chunks

/-!
# Ranges of arrays and of files that read short

`calcTableChecksum` on a slice that does not start the array, and the two file
methods under any schedule of reads.
-/

namespace I18nZh
namespace Otf

open Java Storage BigEndian RandomAccessFile WeightedSum

namespace Tookit

/-! ## Slices of an array -/

theorem arrayGet_ok_lt {α : Type} {a : List α} {i : JInt} {x : α} (h : arrayGet a i = .ok x) :
    i.toNat < a.length := by
  by_contra hlen
  rw [arrayGet, List.getElem?_eq_none (by omega)] at h
  split at h <;> cases h

/-- A number that is read lies in the array. -/
theorem toInteger_ok_lt {table : Bytes} {k : Nat} {v : JInt} (hk : k + 3 < 2 ^ 32)
    (h : toInteger table (BitVec.ofNat 32 k) = .ok v) : k + 3 < table.length := by
  rw [toInteger] at h
  obtain ⟨a, _, h⟩ := bind_eq_ok h
  obtain ⟨b, _, h⟩ := bind_eq_ok h
  obtain ⟨d, _, h⟩ := bind_eq_ok h
  obtain ⟨e, he, _⟩ := bind_eq_ok h
  have h3 : (3 : JInt) + BitVec.ofNat 32 k = BitVec.ofNat 32 (3 + k) := add_ofNat 3 k
  have hlt := arrayGet_ok_lt he
  rw [h3, toNat_ofNat_of_lt (by omega)] at hlt
  omega

/-- A loop that returns has read every word up to the length. -/
theorem sumLoop_ok_reads {table : Bytes} {o L : Nat} (hL : L + 4 ≤ 2 ^ 31) :
    ∀ (fuel i : Nat) (sum r : JInt), 4 * i < L + 4 →
      sumLoop table (BitVec.ofNat 32 o) (BitVec.ofNat 32 L) fuel (BitVec.ofNat 32 (4 * i)) sum =
        .ok r →
      ∀ j, i ≤ j → 4 * j < L → ∃ v, toInteger table (BitVec.ofNat 32 (o + 4 * j)) = .ok v := by
  intro fuel
  induction fuel with
  | zero =>
    intro i sum r _ h
    cases h
  | succ fuel ih =>
    intro i sum r hi h j hij hj
    have hn : (BitVec.ofNat 32 (4 * i)).toInt = ((4 * i : Nat) : Int) :=
      toInt_ofNat_of_lt (by omega)
    have hL' : (BitVec.ofNat 32 L).toInt = L := toInt_ofNat_of_lt (by omega)
    have hnext : BitVec.ofNat 32 (4 * i) + 4 = BitVec.ofNat 32 (4 * (i + 1)) :=
      add_ofNat (4 * i) 4
    rw [sumLoop, hn, hL', if_pos (by omega), add_ofNat] at h
    obtain ⟨v, hv, h⟩ := bind_eq_ok h
    rw [hnext] at h
    by_cases hji : j = i
    · rw [hji]
      exact ⟨v, hv⟩
    · exact ih (i + 1) _ r (by omega) h j (by omega) hj

/-- For the greatest lengths of all the size of the copy is no positive `int`. -/
theorem calcTableChecksum_large (table : Bytes) (o : JInt) {n : Nat} (hn : n < 2 ^ 31)
    (hl : 2 ^ 31 ≤ n + 3) (h4 : ¬ 4 ∣ n) :
    calcTableChecksum table o (BitVec.ofNat 32 n) = .error .negativeArraySize := by
  have hmod : ¬ (BitVec.ofNat 32 n).toInt.tmod 4 = 0 := by
    rw [tmod_four_eq_zero_iff (by rw [toNat_ofNat_of_lt] <;> omega), toNat_ofNat_of_lt (by omega)]
    exact h4
  have hsize : ((BitVec.ofNat 32 n + 3) &&& ~~~3#32).toInt < 0 := by
    rcases (by omega : n = 2 ^ 31 - 3 ∨ n = 2 ^ 31 - 2 ∨ n = 2 ^ 31 - 1) with h | h | h
    all_goals
      rw [h]
      decide
  rw [calcTableChecksum, if_pos (by simpa using hmod), newArray_error _ hsize]
  rfl

/-- Behind the start of the array the copy ends too early for the last word. -/
theorem calcTableChecksum_not_ok {table : Bytes} {o n : Nat} (ho : 0 < o)
    (hn : o + n ≤ table.length) (hl : o + n < 2 ^ 31) (h4 : ¬ 4 ∣ n) (r : JInt) :
    calcTableChecksum table (BitVec.ofNat 32 o) (BitVec.ofNat 32 n) ≠ .ok r := by
  intro h
  by_cases hsize : n + 3 < 2 ^ 31
  · rw [calcTableChecksum_of_not_dvd _ (by omega) hsize h4] at h
    obtain ⟨v, hv⟩ := sumLoop_ok_reads (by omega) _ 0 0 r (by omega) h (n / 4) (by omega)
      (by omega)
    have hlt := toInteger_ok_lt (by omega) hv
    simp only [List.length_append, List.length_take, List.length_replicate] at hlt
    omega
  · rw [calcTableChecksum_large table _ (by omega) (by omega) h4] at h
    cases h

/-- The sum of a slice is returned where the length is a multiple of four, and
else at the start of the array only. -/
theorem calcTableChecksum_iff {table : Bytes} {o n : Nat} (htable : table.length < 2 ^ 31)
    (hn : o + n ≤ table.length) :
    calcTableChecksum table (BitVec.ofNat 32 o) (BitVec.ofNat 32 n) =
        .ok (wordSum (slice table o n)) ↔
      4 ∣ n ∨ (o = 0 ∧ n + 4 ≤ 2 ^ 31) := by
  constructor
  · intro h
    by_cases h4 : 4 ∣ n
    · exact Or.inl h4
    refine Or.inr ?_
    by_contra hc
    rcases Nat.eq_zero_or_pos o with rfl | ho
    · rw [calcTableChecksum_large table _ (by omega) (by omega) h4] at h
      cases h
    · exact calcTableChecksum_not_ok ho hn (by omega) h4 _ h
  · rintro (h4 | ⟨rfl, hl⟩)
    · exact calcTableChecksum_of_dvd hn (by omega) h4
    · exact calcTableChecksum_eq (by omega) hl

theorem calcTableChecksum_iff_eight :
    calcTableChecksum [0, 0, 0, 0, 1, 2, 3, 4] (BitVec.ofNat 32 4) (BitVec.ofNat 32 4) =
        .ok (wordSum (slice [0, 0, 0, 0, 1, 2, 3, 4] 4 4)) ↔
      4 ∣ 4 ∨ (4 = 0 ∧ 4 + 4 ≤ 2 ^ 31) :=
  calcTableChecksum_iff (by decide) (by decide)

/-- One byte behind four others cannot be summed. -/
theorem calcTableChecksum_unaligned :
    calcTableChecksum [0, 0, 0, 0, 1, 2, 3, 4] (BitVec.ofNat 32 4) (BitVec.ofNat 32 1) ≠
      .ok (wordSum (slice [0, 0, 0, 0, 1, 2, 3, 4] 4 1)) := by
  have h : calcTableChecksum [0, 0, 0, 0, 1, 2, 3, 4] (BitVec.ofNat 32 4) (BitVec.ofNat 32 1) =
      .error .arrayIndexOutOfBounds := by decide
  rw [h]
  exact fun hne => nomatch hne

/-! ## Files -/

/-- The reads of a range that the file holds, into the buffer both loops use. -/
def chunks (schedule : Nat → Nat → Nat) (length : JInt) : List Nat :=
  readSizes (min 65536 length.toNat) schedule length.toNat

theorem chunks_pos (schedule : Nat → Nat → Nat) (length : JInt) :
    ∀ n ∈ chunks schedule length, 0 < n := readSizes_mem_pos _ _ _

theorem chunks_sum (schedule : Nat → Nat → Nat) (length : JInt) :
    (chunks schedule length).sum = length.toNat := by
  by_cases h0 : length.toNat = 0
  · rw [chunks, h0, readSizes_zero]
    rfl
  · exact readSizes_sum (by omega) _ _

section Inside

variable {offset length : JInt} (ho : 0 ≤ offset.toInt) (hl : 0 ≤ length.toInt)

include ho hl

/-- A range of the file arrives unchanged, however the reads cut it. -/
theorem copyTo_range (src dst : RandomAccessFile) {dstOffset : JInt} (hd : 0 ≤ dstOffset.toInt)
    (hin : offset.toNat + length.toNat ≤ src.content.length) :
    ∃ src' dst', copyTo src offset dst dstOffset length = .ok (src', dst') ∧
      slice dst'.content dstOffset.toNat length.toNat =
        slice src.content offset.toNat length.toNat := by
  obtain ⟨src', dst', hrun, _, _, _, hdc⟩ := copyTo_eq src dst (toInt_nonneg_iff.mp ho)
    (toInt_nonneg_iff.mp hd) (toInt_nonneg_iff.mp hl)
  refine ⟨src', dst', hrun, ?_⟩
  have hlen : (slice src.content offset.toNat length.toNat).length = length.toNat :=
    slice_length_of_le hin
  have hself := slice_overwrite_self 0 dst.content dstOffset.toNat
    (slice src.content offset.toNat length.toNat)
  rw [hlen] at hself
  rw [hdc]
  exact hself

theorem calcTableChecksumFile_range (file : RandomAccessFile)
    (hin : offset.toNat + length.toNat ≤ file.content.length) :
    ∃ file', calcTableChecksumFile file offset length =
      .ok (chunkedSum byteWeight (chunks file.schedule length)
        (slice file.content offset.toNat length.toNat), file') := by
  obtain ⟨file', hrun, _, _⟩ := calcTableChecksumFile_chunks file (toInt_nonneg_iff.mp ho)
    (toInt_nonneg_iff.mp hl)
  have hall : min length.toNat (file.content.length - offset.toNat) = length.toNat := by omega
  rw [hall] at hrun
  exact ⟨file', hrun⟩

/-- Copies of a range never depend on the schedule; its checksum is that of the
range, whatever the file holds, exactly if the reads cut it at words only. -/
theorem range_access (schedule : Nat → Nat → Nat) :
    (∀ (src dst : RandomAccessFile) (dstOffset : JInt), src.schedule = schedule →
      offset.toNat + length.toNat ≤ src.content.length → 0 ≤ dstOffset.toInt →
      ∃ src' dst', copyTo src offset dst dstOffset length = .ok (src', dst') ∧
        slice dst'.content dstOffset.toNat length.toNat =
          slice src.content offset.toNat length.toNat) ∧
    ((∀ file : RandomAccessFile, file.schedule = schedule →
      offset.toNat + length.toNat ≤ file.content.length →
      ∃ file', calcTableChecksumFile file offset length =
        .ok (wordSum (slice file.content offset.toNat length.toNat), file')) ↔
      ∀ n ∈ (chunks schedule length).dropLast, 4 ∣ n) := by
  refine ⟨fun src dst dstOffset _ hin hd => copyTo_range ho hl src dst hd hin, ?_⟩
  constructor
  · intro h
    refine dvd_of_chunkedSum byteWeight byteWeight_add_four byteWeight_zero
      (fun i => four_dvd_of_byteWeight) _ (chunks_pos schedule length) fun xs hx => ?_
    rw [chunks_sum] at hx
    -- Any bytes can lie in the range.
    have hslice : slice (List.replicate offset.toNat 0 ++ xs) offset.toNat length.toNat = xs := by
      have hr := slice_append_right (List.replicate offset.toNat 0) xs 0 length.toNat
      rw [List.length_replicate, Nat.add_zero] at hr
      rw [hr, slice_all (by omega)]
    have hin : offset.toNat + length.toNat ≤ (List.replicate offset.toNat 0 ++ xs).length := by
      rw [List.length_append, List.length_replicate, hx]
    obtain ⟨_, hsum⟩ := calcTableChecksumFile_range ho hl
      (openFile (List.replicate offset.toNat 0 ++ xs) schedule) hin
    obtain ⟨_, hword⟩ := h (openFile (List.replicate offset.toNat 0 ++ xs) schedule) rfl hin
    rw [hsum] at hword
    have heq := congrArg Prod.fst (Except.ok.inj hword)
    simp only [openFile, hslice] at heq
    rw [heq, wordSum_eq_wsum]
  · rintro h file rfl hin
    obtain ⟨file', hrun⟩ := calcTableChecksumFile_range ho hl file hin
    refine ⟨file', ?_⟩
    rw [hrun, chunkedSum_of_dvd byteWeight byteWeight_add_four _ _ ?_ h, wordSum_eq_wsum]
    rw [chunks_sum, slice_length_of_le hin]

end Inside

/-- Two words read one at a time. -/
theorem range_access_words :
    ∃ file', calcTableChecksumFile (openFile [0, 0, 0, 1, 0, 0, 0, 2] fun _ _ => 4) 0 8 =
      .ok (3, file') := by
  have hchunks : chunks (fun _ _ => 4) 8 = [4, 4] := by simp [chunks, readSizes]
  exact (range_access (by decide) (by decide) fun _ _ => 4).2.mpr
    (by rw [hchunks]; decide) _ rfl (by decide)

/-- Two bytes read one at a time: the second one is summed as if it were the
first. -/
theorem range_access_bytes :
    ¬ ∃ file', calcTableChecksumFile (openFile [0, 1] fun _ _ => 1) 0 2 =
      .ok (wordSum (slice [0, 1] 0 2), file') := by
  rintro ⟨file', h⟩
  have hsum : Except.map Prod.fst
      (calcTableChecksumFile (openFile [0, 1] fun _ _ => 1) 0 2) =
      .ok (wordSum (slice [0, 1] 0 2)) := by
    rw [h]
    rfl
  exact absurd hsum (by decide)

end Tookit
end Otf
end I18nZh
