import Krcm.V5.Layout
import Krcm.V5.TwoRuns

/-!
# The segment size byte

Byte 25 of the public header is the logarithm of the segment size rounded up
to a power of two; the pieces have the size itself. `segmentSizeLog2_iff` says
when the byte is right about them.
-/

namespace Krcm

open Base Outcome

/-! ## The byte -/

theorem trailingZeros_pow : ∀ k : Fin 64, trailingZeros (2 ^ k.val) = k.val := by
  decide +kernel

variable {E : Env} {data password : Bytes} {opts : EncryptV5Options} {coins : Coins} {s : SealedV5}

/-- The offset of `segment_size_log2`. -/
def Frame.segmentSizeLog2 (frame : Frame) : Nat := frame.publicHeader[25].toNat

theorem packPublicHeader_log2 {salt : Salt} {publicNonce : Nonce} {header : Arr headerV5Size}
    (h : packPublicHeader E opts salt publicNonce = .ok header) :
    ∃ power, E.nextPowerOfTwo opts.chunkSize = .ok power ∧
      header[25] = UInt8.ofNat (trailingZeros power) := by
  obtain ⟨kdf, -, power, hpower, hv⟩ := by simpa only [packPublicHeader, bind_eq_ok] using h
  cases hv
  refine ⟨power, hpower, ?_⟩
  have hkdf : kdf.toList.length = 15 := Vector.length_toList
  rw [← Vector.getElem_toList (by simp)]
  simp only [toList_arrOfList, List.append_assoc]
  rw [List.getElem_append_right (by simp), List.getElem_append_right (by simp),
    List.getElem_append_right (by simp)]
  simp [hkdf]

/-- The byte is the logarithm of the rounded chunk size; a chunk size that cannot be rounded
leaves 64. -/
theorem SealedBy.segmentSizeLog2 (h : SealedBy E data password opts coins s) :
    (opts.chunkSize ≤ 2 ^ 63 ∧ s.frame.segmentSizeLog2 = Nat.clog 2 opts.chunkSize) ∨
      (2 ^ 63 < opts.chunkSize ∧ s.frame.segmentSizeLog2 = 64) := by
  obtain ⟨power, hpower, hbyte⟩ := packPublicHeader_log2 h.header
  unfold Frame.segmentSizeLog2
  rw [hbyte]
  rcases Nat.lt_or_ge (2 ^ 63) opts.chunkSize with hbig | hsmall
  · refine .inr ⟨hbig, ?_⟩
    have hclog : Nat.clog 2 opts.chunkSize = 64 := by
      refine Nat.le_antisymm (Nat.clog_le_of_le_pow opts.chunkSize_lt.le) ?_
      exact Nat.succ_le_of_lt ((Nat.lt_clog_iff_pow_lt Nat.one_lt_two).mpr hbig)
    unfold Env.nextPowerOfTwo at hpower
    rw [hclog] at hpower
    rcases addW_cases hpower with ⟨hlt, -⟩ | ⟨-, rfl⟩
    · omega
    · rfl
  · refine .inl ⟨hsmall, ?_⟩
    rw [nextPowerOfTwo_ok hsmall, ok.injEq] at hpower
    have hk : Nat.clog 2 opts.chunkSize ≤ 63 := Nat.clog_le_of_le_pow hsmall
    rw [← hpower, trailingZeros_pow ⟨_, by omega⟩, UInt8.toNat_ofNat', Nat.mod_eq_of_lt (by omega)]

/-! ## The pieces -/

/-- All lengths but the last are `size`, and the last is at most `size`. -/
structure UniformLengths (lengths : List Nat) (size : Nat) : Prop where
  front : ∀ n ∈ lengths.dropLast, n = size
  last : ∀ n ∈ lengths.getLast?, n ≤ size

theorem uniformLengths_chunks {size : Nat} (hs : 0 < size) (l : Bytes) :
    UniformLengths ((chunks size l).map List.length) size := by
  have hlen : ((chunks size l).map List.length).length = (l.length + size - 1) / size := by
    rw [List.length_map, length_chunks]
  constructor
  · intro n hn
    obtain ⟨i, hi, rfl⟩ := List.getElem_of_mem hn
    rw [List.length_dropLast, hlen] at hi
    have hfull : (i + 2) * size ≤ l.length + size - 1 :=
      (Nat.le_div_iff_mul_le hs).mp (by omega)
    rw [Nat.add_mul] at hfull
    rw [List.getElem_dropLast, List.getElem_map, getElem_chunks, List.length_take, List.length_drop]
    omega
  · intro n hn
    obtain ⟨i, hi, rfl⟩ := List.getElem_of_mem (List.mem_of_getLast? hn)
    rw [List.getElem_map, getElem_chunks, List.length_take]
    exact Nat.min_le_left _ _

/-- The table of a run records the lengths of its pieces. -/
theorem SealedBy.table_plainLengths (h : SealedBy E data password opts coins s) :
    ∃ entries, s.frame.segmentTable = serializeSegmentTable entries ∧
      plainLengths entries = (chunks opts.chunkSize s.inner).map List.length := by
  obtain ⟨lengths, ht, hl⟩ := h.lengths
  refine ⟨_, ht, ?_⟩
  have hmap : (lengths.map fun l => l.1.toNat) = (lengths.map Prod.fst).map UInt64.toNat := by
    rw [List.map_map]
    rfl
  rw [plainLengths_runningEntries, hmap, hl, List.map_map]
  refine List.map_congr_left fun piece hpiece => ?_
  obtain ⟨i, hi, rfl⟩ := List.getElem_of_mem hpiece
  have hle : (chunks opts.chunkSize s.inner)[i].length ≤ opts.chunkSize := by
    rw [getElem_chunks, List.length_take]
    exact Nat.min_le_left _ _
  exact UInt64.toNat_ofNat_of_lt' (hle.trans_lt opts.chunkSize_lt)

/-- A plaintext longer than the chunk size has a full piece in front of the last. -/
theorem UniformLengths.size_eq {size power : Nat} {l : Bytes} (hs : 0 < size)
    (hu : UniformLengths ((chunks size l).map List.length) power) (hcut : size < l.length) :
    size = power := by
  have hl : l ≠ [] := List.ne_nil_of_length_pos (by omega)
  have hrest : l.drop size ≠ [] := List.ne_nil_of_length_pos (by rw [List.length_drop]; omega)
  have hfront := hu.front size
  rw [chunks_cons hs hl, List.map_cons, List.length_take_of_le hcut.le,
    List.dropLast_cons_of_ne_nil (by rw [chunks_cons hs hrest]; exact List.cons_ne_nil _ _)] at hfront
  exact hfront List.mem_cons_self

/-- **When the byte tells the size of the pieces**: when the chunk size is a power of two, or the
plaintext is one piece. -/
theorem SealedBy.uniform_iff (h : SealedBy E data password opts coins s) :
    (∃ entries, s.frame.segmentTable = serializeSegmentTable entries ∧
      UniformLengths (plainLengths entries) (2 ^ s.frame.segmentSizeLog2)) ↔
      (∃ j, opts.chunkSize = 2 ^ j) ∨ s.inner.length ≤ opts.chunkSize := by
  obtain ⟨entries, ht, hpl⟩ := h.table_plainLengths
  refine ⟨fun ⟨es, hes, hu⟩ => ?_, fun hcases => ⟨entries, ht, ?_⟩⟩
  · obtain rfl := serializeSegmentTable_injective (ht.symm.trans hes)
    rw [hpl] at hu
    by_cases hcut : opts.chunkSize < s.inner.length
    · exact .inl ⟨_, hu.size_eq opts.chunkSize_pos hcut⟩
    · exact .inr (Nat.not_lt.mp hcut)
  · rw [hpl]
    have hlt := opts.chunkSize_lt
    rcases hcases with ⟨j, hj⟩ | hfit
    · have hpower : 2 ^ s.frame.segmentSizeLog2 = opts.chunkSize := by
        rcases h.segmentSizeLog2 with ⟨-, hk⟩ | ⟨hbig, -⟩
        · rw [hk, hj, Nat.clog_pow 2 j Nat.one_lt_two]
        · rw [hj] at hbig hlt
          have h1 := (Nat.pow_lt_pow_iff_right Nat.one_lt_two).mp hbig
          have h2 := (Nat.pow_lt_pow_iff_right Nat.one_lt_two).mp hlt
          omega
      rw [hpower]
      exact uniformLengths_chunks opts.chunkSize_pos s.inner
    · have hle : opts.chunkSize ≤ 2 ^ s.frame.segmentSizeLog2 := by
        rcases h.segmentSizeLog2 with ⟨-, hk⟩ | ⟨-, hk⟩
        · rw [hk]
          exact Nat.le_pow_clog Nat.one_lt_two _
        · rw [hk]
          exact hlt.le
      rw [chunks_of_le h.inner_ne_nil hfit]
      refine ⟨nofun, fun n hn => ?_⟩
      obtain rfl := Option.some.inj hn
      exact hfit.trans hle

/-- **When `segment_size_log2` is right**: exactly when the segment size, at least 32, is a power
of two, or the inner plaintext is one segment. -/
theorem segmentSizeLog2_iff (h : sealV5 E data password opts coins = .ok s) :
    (∃ entries, s.frame.segmentTable = serializeSegmentTable entries ∧
      UniformLengths (plainLengths entries) (2 ^ s.frame.segmentSizeLog2)) ↔
      (∃ j, opts.chunkSize = 2 ^ j) ∨
        76 + data.length + randomPaddingLen opts.paddingPolicy coins ≤ opts.chunkSize := by
  have hb := sealV5_eq_ok.mp h
  rw [hb.uniform_iff, hb.inner, length_packInner]

theorem segmentSizeLog2_small : ∃ n s entries,
    sealV5 (Env.zero.withFuel n) [7] [1] (smallOptions 64) .zero = .ok s ∧
      s.frame.segmentTable = serializeSegmentTable entries ∧
      UniformLengths (plainLengths entries) (2 ^ s.frame.segmentSizeLog2) := by
  obtain ⟨n, hn⟩ := Env.zero_shufflesTerminate.fuel
  obtain ⟨s, hs, -⟩ := zero_seals (hn n le_rfl) [7] 64 (by decide) (by decide)
  have hrun := sealV5_eq_ok.mpr hs
  obtain ⟨entries, ht, hu⟩ := (segmentSizeLog2_iff hrun).mpr (.inl ⟨6, rfl⟩)
  exact ⟨n, s, entries, hrun, ht, hu⟩

/-- Segments of 33 bytes under the logarithm of 64. -/
theorem segmentSizeLog2_wrong : ∃ n s,
    sealV5 (Env.zero.withFuel n) [7] [1] (smallOptions 33) .zero = .ok s ∧
      ¬ ∃ entries, s.frame.segmentTable = serializeSegmentTable entries ∧
        UniformLengths (plainLengths entries) (2 ^ s.frame.segmentSizeLog2) := by
  obtain ⟨n, hn⟩ := Env.zero_shufflesTerminate.fuel
  obtain ⟨s, hs, -⟩ := zero_seals (hn n le_rfl) [7] 33 (by decide) (by decide)
  refine ⟨n, s, sealV5_eq_ok.mpr hs, ?_⟩
  rw [hs.uniform_iff, hs.inner, length_packInner, not_or, not_exists]
  refine ⟨fun j (hj : 33 = 2 ^ j) => ?_, by decide⟩
  rcases Nat.lt_or_ge j 6 with hlt | hge
  · have hle : 2 ^ j ≤ 2 ^ 5 := Nat.pow_le_pow_right (by omega) (by omega)
    omega
  · have hge : 2 ^ 6 ≤ 2 ^ j := Nat.pow_le_pow_right (by omega) hge
    omega

end Krcm
