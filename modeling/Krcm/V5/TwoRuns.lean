import Krcm.V5.Sealing

/-!
# Two runs of the v5 encryption

What two runs of `encrypt_v5` under one password have in common when their
public headers or their plaintext lengths agree. The header determines the
keys (`SealedBy.keys_eq`), but only the rounded size of the segments, so equal
headers and inner plaintexts do not make equal segments; and the table shows the
length of the plaintext.
-/

namespace Krcm

open Base Outcome

variable {E : Env} {data₁ data₂ password : Bytes} {opts₁ opts₂ : EncryptV5Options}
  {coins₁ coins₂ : Coins} {s₁ s₂ : SealedV5}

/-- **The header determines the keys**, under one password. -/
theorem SealedBy.keys_eq (h₁ : SealedBy E data₁ password opts₁ coins₁ s₁)
    (h₂ : SealedBy E data₂ password opts₂ coins₂ s₂)
    (hheader : s₁.frame.publicHeader = s₂.frame.publicHeader) :
    s₁.keys = s₂.keys ∧ s₁.publicNonce = s₂.publicNonce := by
  have hp := parsePublicHeader_pack h₁.header
  rw [hheader, parsePublicHeader_pack h₂.header, ok.injEq, ParsedHeader.mk.injEq] at hp
  obtain ⟨hkdf, hsalt, hnonce⟩ := hp
  obtain ⟨root₁, hr₁, hk₁⟩ := h₁.keys
  obtain ⟨root₂, hr₂, hk₂⟩ := h₂.keys
  rw [hkdf, hsalt, hr₁, ok.injEq] at hr₂
  exact ⟨by rw [hk₁, hk₂, hr₂], hnonce.symm⟩

/-- The table of a run: the canonical one of the chunk lengths. -/
theorem SealedBy.lengths (h : SealedBy E data₁ password opts₁ coins₁ s₁) :
    ∃ lengths, s₁.frame.segmentTable = serializeSegmentTable (runningEntries 0 0 0 lengths) ∧
      lengths.map Prod.fst =
        (chunks opts₁.chunkSize s₁.inner).map fun piece => .ofNat piece.length := by
  obtain ⟨segments, hh, hp, -⟩ := h.segments
  refine ⟨lengthsOf segments, hh.table, ?_⟩
  rw [← hp, lengthsOf, List.map_map, List.map_map]
  rfl

theorem serialize_running_inj {lengths₁ lengths₂ : List SegmentLengths}
    (h : serializeSegmentTable (runningEntries 0 0 0 lengths₁) =
      serializeSegmentTable (runningEntries 0 0 0 lengths₂)) : lengths₁ = lengths₂ := by
  rw [← lengths_runningEntries 0 0 0 lengths₁, serializeSegmentTable_injective h,
    lengths_runningEntries]

/-! ## Equal headers and inner plaintexts -/

/-- A chunk size a plaintext fits in does not matter. -/
theorem chunks_of_le {α : Type} {n : Nat} {l : List α} (hl : l ≠ []) (h : l.length ≤ n) :
    chunks n l = [l] := by
  have hn : 0 < n := (List.length_pos_iff.mpr hl).trans_le h
  rw [chunks_cons hn hl, List.take_of_length_le h, List.drop_of_length_le h, chunks_nil]

theorem SealedBy.inner_ne_nil (h : SealedBy E data₁ password opts₁ coins₁ s₁) : s₁.inner ≠ [] := by
  intro hnil
  have hlen := length_packInner (E := E) data₁ opts₁.paddingPolicy coins₁
  rw [← h.inner, hnil, List.length_nil] at hlen
  omega

theorem EncryptV5Options.chunkSize_lt (opts : EncryptV5Options) : opts.chunkSize < 2 ^ 64 :=
  max_lt opts.segmentSize.toNat_lt (by decide)

/-- Tables of two runs differ when the smaller chunk size cuts the plaintext. -/
theorem SealedBy.chunkSize_le (h₁ : SealedBy E data₁ password opts₁ coins₁ s₁)
    (h₂ : SealedBy E data₂ password opts₂ coins₂ s₂) (hinner : s₁.inner = s₂.inner)
    (htable : s₁.frame.segmentTable = s₂.frame.segmentTable)
    (hcut : opts₁.chunkSize < s₁.inner.length) : opts₂.chunkSize = opts₁.chunkSize := by
  obtain ⟨lengths₁, ht₁, hl₁⟩ := h₁.lengths
  obtain ⟨lengths₂, ht₂, hl₂⟩ := h₂.lengths
  have hlengths := serialize_running_inj (ht₁ ▸ ht₂ ▸ htable)
  rw [hlengths, hl₂, chunks_cons opts₂.chunkSize_pos h₂.inner_ne_nil,
    chunks_cons opts₁.chunkSize_pos h₁.inner_ne_nil, List.map_cons, List.map_cons] at hl₁
  have hfirst := congrArg UInt64.toNat (List.cons.inj hl₁).1
  have hs₁ := opts₁.chunkSize_lt
  have hs₂ := opts₂.chunkSize_lt
  rw [← hinner, List.length_take, List.length_take, UInt64.toNat_ofNat', UInt64.toNat_ofNat',
    Nat.mod_eq_of_lt (by omega), Nat.mod_eq_of_lt (by omega)] at hfirst
  omega

/-- Runs that cut the plaintext alike encrypt it alike. -/
theorem SealedBy.pieces_eq (h₁ : SealedBy E data₁ password opts₁ coins₁ s₁)
    (h₂ : SealedBy E data₂ password opts₂ coins₂ s₂)
    (hheader : s₁.frame.publicHeader = s₂.frame.publicHeader) (hinner : s₁.inner = s₂.inner)
    (hchunks : chunks opts₁.chunkSize s₁.inner = chunks opts₂.chunkSize s₂.inner) :
    s₁.frame.segmentTable = s₂.frame.segmentTable ∧ s₁.frame.ciphertext = s₂.frame.ciphertext := by
  obtain ⟨hkeys, hnonce⟩ := h₁.keys_eq h₂ hheader
  have hsiv : s₁.frame.syntheticIv = s₂.frame.syntheticIv := by
    rw [h₁.siv, h₂.siv, hkeys, hheader, hinner]
  have hp := h₁.pieces
  rw [hkeys, hnonce, hsiv, hchunks, h₂.pieces, ok.injEq, Prod.mk.injEq] at hp
  exact ⟨hp.1.symm, hp.2.symm⟩

/-- **When the header and the inner plaintext determine the segments**: exactly when both runs cut
to the same size, or neither cuts at all. The header holds the logarithm of the rounded size. -/
theorem segments_determined_iff (h₁ : sealV5 E data₁ password opts₁ coins₁ = .ok s₁)
    (h₂ : sealV5 E data₂ password opts₂ coins₂ = .ok s₂)
    (hheader : s₁.frame.publicHeader = s₂.frame.publicHeader) (hinner : s₁.inner = s₂.inner) :
    (s₁.frame.segmentTable = s₂.frame.segmentTable ∧
        s₁.frame.ciphertext = s₂.frame.ciphertext) ↔
      opts₁.chunkSize = opts₂.chunkSize ∨
        76 + data₁.length + randomPaddingLen opts₁.paddingPolicy coins₁ ≤
          min opts₁.chunkSize opts₂.chunkSize := by
  have hb₁ := sealV5_eq_ok.mp h₁
  have hb₂ := sealV5_eq_ok.mp h₂
  rw [← length_packInner (E := E), ← hb₁.inner]
  constructor
  · rintro ⟨htable, _⟩
    by_contra hne
    obtain ⟨hsize, hlen⟩ := not_or.mp hne
    rcases Nat.lt_or_ge opts₁.chunkSize s₁.inner.length with hcut | hfit
    · exact hsize (hb₁.chunkSize_le hb₂ hinner htable hcut).symm
    · have hcut : opts₂.chunkSize < s₂.inner.length := by
        rw [← hinner]
        omega
      exact hsize (hb₂.chunkSize_le hb₁ hinner.symm htable.symm hcut)
  · intro h
    refine hb₁.pieces_eq hb₂ hheader hinner ?_
    rcases h with hsize | hfit
    · rw [hsize, hinner]
    · obtain ⟨hfit₁, hfit₂⟩ := le_min_iff.mp hfit
      rw [chunks_of_le hb₁.inner_ne_nil hfit₁, chunks_of_le hb₂.inner_ne_nil (hinner ▸ hfit₂), hinner]

/-- Sizes with the same next power of two leave the same header. -/
theorem smallOptions_header {a b : UInt64} (ha : (smallOptions a).chunkSize ≤ 2 ^ 63)
    (hb : (smallOptions b).chunkSize ≤ 2 ^ 63)
    (h : Nat.clog 2 (smallOptions a).chunkSize = Nat.clog 2 (smallOptions b).chunkSize)
    (salt : Salt) (publicNonce : Nonce) :
    packPublicHeader E (smallOptions a) salt publicNonce =
      packPublicHeader E (smallOptions b) salt publicNonce := by
  simp only [packPublicHeader, nextPowerOfTwo_ok ha, nextPowerOfTwo_ok hb, h]
  rfl

/-- Two small runs on the same data with equally rounded segment sizes. -/
theorem zero_seals_two (data : Bytes) (a b : UInt64) (ha : a.toNat ≤ 2 ^ 63) (hb : b.toNat ≤ 2 ^ 63)
    (hla : sealedLength (smallOptions a).chunkSize (76 + data.length) < 2 ^ 64)
    (hlb : sealedLength (smallOptions b).chunkSize (76 + data.length) < 2 ^ 64)
    (h : Nat.clog 2 (smallOptions a).chunkSize = Nat.clog 2 (smallOptions b).chunkSize) :
    ∃ n s₁ s₂, SealedBy (Env.zero.withFuel n) data [1] (smallOptions a) .zero s₁ ∧
      SealedBy (Env.zero.withFuel n) data [1] (smallOptions b) .zero s₂ ∧
      s₁.frame.publicHeader = s₂.frame.publicHeader ∧ s₁.inner = s₂.inner := by
  obtain ⟨n, hn⟩ := Env.zero_shufflesTerminate.fuel
  obtain ⟨s₁, h₁, -⟩ := zero_seals (hn n le_rfl) data a ha hla
  obtain ⟨s₂, h₂, -⟩ := zero_seals (hn n le_rfl) data b hb hlb
  refine ⟨n, s₁, s₂, h₁, h₂, ?_, by rw [h₁.inner, h₂.inner]; rfl⟩
  have hh := h₁.header
  rw [smallOptions_header (max_le ha (by decide)) (max_le hb (by decide)) h, h₁.publicNonce] at hh
  have hh₂ := h₂.header
  rw [h₂.publicNonce] at hh₂
  exact ok.inj (hh.symm.trans hh₂)

theorem segments_determined_small : ∃ n s₁ s₂,
    sealV5 (Env.zero.withFuel n) [7] [1] (smallOptions 80) .zero = .ok s₁ ∧
      sealV5 (Env.zero.withFuel n) [7] [1] (smallOptions 128) .zero = .ok s₂ ∧
      s₁.frame.segmentTable = s₂.frame.segmentTable ∧
      s₁.frame.ciphertext = s₂.frame.ciphertext := by
  obtain ⟨n, s₁, s₂, h₁, h₂, hheader, hinner⟩ := zero_seals_two [7] 80 128 (by decide) (by decide)
    (by decide) (by decide) (by decide)
  have hr₁ := sealV5_eq_ok.mpr h₁
  have hr₂ := sealV5_eq_ok.mpr h₂
  exact ⟨n, s₁, s₂, hr₁, hr₂,
    (segments_determined_iff hr₁ hr₂ hheader hinner).mpr (.inr (by decide))⟩

/-- Segment sizes 33 and 64 have one header, and cut 77 bytes into three and into two. -/
theorem segments_undetermined : ∃ n s₁ s₂,
    sealV5 (Env.zero.withFuel n) [7] [1] (smallOptions 33) .zero = .ok s₁ ∧
      sealV5 (Env.zero.withFuel n) [7] [1] (smallOptions 64) .zero = .ok s₂ ∧
      s₁.frame.publicHeader = s₂.frame.publicHeader ∧ s₁.inner = s₂.inner ∧
      s₁.frame.syntheticIv = s₂.frame.syntheticIv ∧
      s₁.frame.segmentTable ≠ s₂.frame.segmentTable := by
  obtain ⟨n, s₁, s₂, h₁, h₂, hheader, hinner⟩ := zero_seals_two [7] 33 64 (by decide) (by decide)
    (by decide) (by decide) (by decide)
  obtain ⟨hkeys, -⟩ := h₁.keys_eq h₂ hheader
  refine ⟨n, s₁, s₂, sealV5_eq_ok.mpr h₁, sealV5_eq_ok.mpr h₂, hheader, hinner, ?_, fun htable => ?_⟩
  · rw [h₁.siv, h₂.siv, hkeys, hheader, hinner]
  · have hlen : s₁.inner.length = 77 := by
      rw [h₁.inner, length_packInner]
      rfl
    have hsize := h₁.chunkSize_le h₂ hinner htable (by rw [hlen]; decide)
    exact absurd hsize (by decide)

/-! ## Equal options and plaintexts of as many blocks -/

/-- What a container shows: all of it but the synthetic IV, the ciphertext and the tag. -/
def Frame.clear (frame : Frame) : Bytes :=
  (magicV5 ++ [5] ++ beBytes 4 headerV5Size ++ frame.publicHeader.toList) ++
    (beBytes 8 frame.segmentTable.length ++ (frame.segmentTable ++
      beBytes 8 frame.ciphertext.length))

/-- Tables of one length stand at the same place. -/
theorem Frame.table_of_clear {f g : Frame} (hlen : f.segmentTable.length = g.segmentTable.length)
    (h : f.clear = g.clear) : f.segmentTable = g.segmentTable := by
  have hfront : (magicV5 ++ [5] ++ beBytes 4 headerV5Size ++ f.publicHeader.toList).length =
      (magicV5 ++ [5] ++ beBytes 4 headerV5Size ++ g.publicHeader.toList).length := by
    simp only [List.length_append, Vector.length_toList]
  have hrest := (List.append_inj h hfront).2
  rw [hlen] at hrest
  exact (List.append_inj (List.append_cancel_left hrest) hlen).1

/-- The table of a plaintext of `n` bytes in one segment. -/
def singleTable (n : Nat) : Bytes :=
  serializeSegmentTable (runningEntries 0 0 0 [(.ofNat n, .ofNat (32 * (n / 32 + 1)))])

theorem length_singleTable (n : Nat) : (singleTable n).length = 40 := by
  rw [singleTable, length_serialize, length_runningEntries]
  rfl

theorem singleTable_inj {n k : Nat} (hn : n < 2 ^ 64) (hk : k < 2 ^ 64)
    (h : singleTable n = singleTable k) : n = k := by
  have hplain := (Prod.mk.inj (List.cons.inj (serialize_running_inj h)).1).1
  have hnat := congrArg UInt64.toNat hplain
  rwa [UInt64.toNat_ofNat', UInt64.toNat_ofNat', Nat.mod_eq_of_lt hn, Nat.mod_eq_of_lt hk] at hnat

/-- A plaintext that fits in one segment is not cut. -/
theorem SealedBy.single (h : SealedBy E data₁ password opts₁ coins₁ s₁)
    (hfit : s₁.inner.length ≤ opts₁.chunkSize) :
    s₁.frame.segmentTable = singleTable s₁.inner.length ∧
      s₁.frame.ciphertext.length = 32 * (s₁.inner.length / 32 + 1) := by
  obtain ⟨segments, hh, hp, -⟩ := h.segments
  rw [chunks_of_le h.inner_ne_nil hfit] at hp
  obtain ⟨segment, rfl, hplain⟩ : ∃ segment, segments = [segment] ∧ segment.1 = s₁.inner := by
    obtain ⟨segment, rest, rfl, hplain, hrest⟩ := List.map_eq_cons_iff.mp hp
    obtain rfl := List.map_eq_nil_iff.mp hrest
    exact ⟨segment, rfl, hplain⟩
  have hlen := hh.sealed.length_ciphertext segment List.mem_cons_self
  rw [hplain] at hlen
  refine ⟨?_, by rw [hh.ciphertext, ciphertextOf_cons, List.length_append, hlen]; rfl⟩
  rw [hh.table, singleTable, lengthsOf, List.map_cons, hplain, hlen, List.map_nil]

/-- **The table shows the length of the plaintext.** Under equal options, two plaintexts that fit
in one segment give containers of one length that show the same bytes exactly when they are
equally long. -/
theorem clear_eq_iff (h₁ : sealV5 E data₁ password opts₁ coins₁ = .ok s₁)
    (h₂ : sealV5 E data₂ password opts₂ coins₂ = .ok s₂) (hkdf : opts₁.kdf = opts₂.kdf)
    (hsalt : opts₁.salt.getD coins₁.salt = opts₂.salt.getD coins₂.salt)
    (hnonce : opts₁.publicNonce.getD coins₁.publicNonce =
      opts₂.publicNonce.getD coins₂.publicNonce)
    (hsize : opts₁.segmentSize = opts₂.segmentSize)
    (hpad₁ : opts₁.paddingPolicy = .minimalBlock) (hpad₂ : opts₂.paddingPolicy = .minimalBlock)
    (hfit₁ : 76 + data₁.length ≤ opts₁.chunkSize) (hfit₂ : 76 + data₂.length ≤ opts₂.chunkSize) :
    (s₁.frame.bytes.length = s₂.frame.bytes.length ∧ s₁.frame.clear = s₂.frame.clear) ↔
      data₁.length = data₂.length := by
  have hb₁ := sealV5_eq_ok.mp h₁
  have hb₂ := sealV5_eq_ok.mp h₂
  have hi₁ : s₁.inner.length = 76 + data₁.length := by
    rw [hb₁.inner, length_packInner, hpad₁, randomPaddingLen, Nat.add_zero]
  have hi₂ : s₂.inner.length = 76 + data₂.length := by
    rw [hb₂.inner, length_packInner, hpad₂, randomPaddingLen, Nat.add_zero]
  have hheader : s₁.frame.publicHeader = s₂.frame.publicHeader := by
    have hh := hb₁.header
    have hpack : packPublicHeader E opts₁ (opts₁.salt.getD coins₁.salt) s₁.publicNonce =
        packPublicHeader E opts₂ (opts₂.salt.getD coins₂.salt) s₂.publicNonce := by
      rw [hb₁.publicNonce, hb₂.publicNonce, hsalt, hnonce]
      simp only [packPublicHeader, EncryptV5Options.chunkSize, hkdf, hsize, hpad₁, hpad₂]
    exact ok.inj (hb₁.header.symm.trans (hpack.trans hb₂.header))
  obtain ⟨ht₁, hc₁⟩ := hb₁.single (by rw [hi₁]; exact hfit₁)
  obtain ⟨ht₂, hc₂⟩ := hb₂.single (by rw [hi₂]; exact hfit₂)
  rw [hi₁] at ht₁ hc₁
  rw [hi₂] at ht₂ hc₂
  constructor
  · intro h
    have htable := Frame.table_of_clear (by rw [ht₁, ht₂, length_singleTable, length_singleTable])
      h.2
    rw [ht₁, ht₂] at htable
    have := singleTable_inj (hfit₁.trans_lt opts₁.chunkSize_lt)
      (hfit₂.trans_lt opts₂.chunkSize_lt) htable
    omega
  · intro hdata
    rw [length_frame, length_frame, Frame.clear, Frame.clear, hheader, hb₁.tag, hb₂.tag,
      Vector.length_toList, Vector.length_toList, ht₁, ht₂, hc₁, hc₂, hdata]
    exact ⟨rfl, rfl⟩

theorem clear_eq_small : ∃ n s₁ s₂,
    sealV5 (Env.zero.withFuel n) [7] [1] (smallOptions 128) .zero = .ok s₁ ∧
      sealV5 (Env.zero.withFuel n) [8] [1] (smallOptions 128) .zero = .ok s₂ ∧
      s₁.frame.bytes.length = s₂.frame.bytes.length ∧ s₁.frame.clear = s₂.frame.clear := by
  obtain ⟨n, hn⟩ := Env.zero_shufflesTerminate.fuel
  obtain ⟨s₁, h₁, -⟩ := zero_seals (hn n le_rfl) [7] 128 (by decide) (by decide)
  obtain ⟨s₂, h₂, -⟩ := zero_seals (hn n le_rfl) [8] 128 (by decide) (by decide)
  have hr₁ := sealV5_eq_ok.mpr h₁
  have hr₂ := sealV5_eq_ok.mpr h₂
  exact ⟨n, s₁, s₂, hr₁, hr₂, (clear_eq_iff hr₁ hr₂ rfl rfl rfl rfl rfl rfl (by decide) (by decide)).mpr
    rfl⟩

/-- Plaintexts of one and of two bytes fill as many blocks, and show different tables. -/
theorem clear_ne_small : (76 + 1) / 32 = (76 + 2) / 32 ∧ ∃ n s₁ s₂,
    sealV5 (Env.zero.withFuel n) [7] [1] (smallOptions 128) .zero = .ok s₁ ∧
      sealV5 (Env.zero.withFuel n) [7, 7] [1] (smallOptions 128) .zero = .ok s₂ ∧
      s₁.inner.length ≤ 128 ∧ s₂.inner.length ≤ 128 ∧ s₁.frame.clear ≠ s₂.frame.clear := by
  obtain ⟨n, hn⟩ := Env.zero_shufflesTerminate.fuel
  obtain ⟨s₁, h₁, -⟩ := zero_seals (hn n le_rfl) [7] 128 (by decide) (by decide)
  obtain ⟨s₂, h₂, -⟩ := zero_seals (hn n le_rfl) [7, 7] 128 (by decide) (by decide)
  have hi₁ : s₁.inner.length = 77 := by
    rw [h₁.inner, length_packInner]
    rfl
  have hi₂ : s₂.inner.length = 78 := by
    rw [h₂.inner, length_packInner]
    rfl
  refine ⟨rfl, n, s₁, s₂, sealV5_eq_ok.mpr h₁, sealV5_eq_ok.mpr h₂, by omega, by omega,
    fun hclear => ?_⟩
  have ht₁ := (h₁.single (by rw [hi₁]; decide)).1
  have ht₂ := (h₂.single (by rw [hi₂]; decide)).1
  have htable := Frame.table_of_clear (by rw [ht₁, ht₂, length_singleTable, length_singleTable])
    hclear
  rw [ht₁, ht₂, hi₁, hi₂] at htable
  exact absurd (singleTable_inj (by omega) (by omega) htable) (by omega)

end Krcm
