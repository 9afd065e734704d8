import Krcm.Base.Layout
import Krcm.V5.Opening

/-!
# The layout of the segments

A table is laid out (`LaidOut`) when it says of every entry by its index what
the running sums of `parse_segment_table` and `encrypt_segments` say step by
step. `laidOut_iff` connects the two, `parseSegmentTable_exact` is the exact
acceptance of the parser, and `encryptSegments_layout` places every segment
`encrypt_segments` writes.
-/

namespace Krcm

open Base Outcome

/-- The plaintext lengths of the entries. -/
def plainLengths (entries : List SegmentEntry) : List Nat :=
  entries.map fun entry => entry.plainLength.toNat

def ciphertextLengths (entries : List SegmentEntry) : List Nat :=
  entries.map fun entry => entry.ciphertextLength.toNat

/-- Entries numbered from zero and laid end to end over `n` bytes of ciphertext. -/
structure LaidOut (entries : List SegmentEntry) (n : Nat) : Prop where
  nonempty : entries ≠ []
  segmentIndex : ∀ i (h : i < entries.length), entries[i].segmentIndex.toNat = i
  plainOffset : ∀ i (h : i < entries.length),
    entries[i].plainOffset.toNat = startOf (plainLengths entries) i
  ciphertextOffset : ∀ i (h : i < entries.length),
    entries[i].ciphertextOffset.toNat = startOf (ciphertextLengths entries) i
  blocks : ∀ entry ∈ entries,
    0 < entry.ciphertextLength.toNat ∧ entry.ciphertextLength.toNat % 32 = 0
  plain_fits : (plainLengths entries).sum < 2 ^ 64
  total : (ciphertextLengths entries).sum = n

/-! ## Running sums -/

variable {lengths : List SegmentLengths} {entries : List SegmentEntry}

theorem plainLengths_runningEntries (ordinal : Nat) (p c : UInt64) (lengths : List SegmentLengths) :
    plainLengths (runningEntries ordinal p c lengths) = lengths.map fun l => l.1.toNat := by
  conv_rhs => rw [← lengths_runningEntries ordinal p c lengths]
  rw [List.map_map]
  rfl

theorem ciphertextLengths_runningEntries (ordinal : Nat) (p c : UInt64)
    (lengths : List SegmentLengths) :
    ciphertextLengths (runningEntries ordinal p c lengths) = lengths.map fun l => l.2.toNat := by
  conv_rhs => rw [← lengths_runningEntries ordinal p c lengths]
  rw [List.map_map]
  rfl

/-- Entry `i` carries the sums of the `i` lengths before it. -/
theorem getElem_runningEntries {ordinal : Nat} {p c : UInt64} (ha : Admissible p c lengths) {i : Nat}
    (hi : i < lengths.length) (h : i < (runningEntries ordinal p c lengths).length) :
    (runningEntries ordinal p c lengths)[i].segmentIndex = .ofNat (ordinal + i) ∧
      (runningEntries ordinal p c lengths)[i].plainOffset.toNat =
        p.toNat + startOf (lengths.map fun l => l.1.toNat) i ∧
      (runningEntries ordinal p c lengths)[i].ciphertextOffset.toNat =
        c.toNat + startOf (lengths.map fun l => l.2.toNat) i ∧
      (runningEntries ordinal p c lengths)[i].plainLength = lengths[i].1 ∧
      (runningEntries ordinal p c lengths)[i].ciphertextLength = lengths[i].2 := by
  induction lengths generalizing ordinal p c i with
  | nil => cases hi
  | cons l lengths ih =>
    obtain ⟨-, hp, hc, ha'⟩ := admissible_cons.mp ha
    cases i with
    | zero => exact ⟨rfl, rfl, rfl, rfl, rfl⟩
    | succ i =>
      obtain ⟨hs, hpo, hco, hpl, hcl⟩ := @ih (ordinal + 1) (p + l.1) (c + l.2) ha' i
        (Nat.lt_of_succ_lt_succ hi) (Nat.lt_of_succ_lt_succ h)
      rw [toNat_add_of_fits hp] at hpo
      rw [toNat_add_of_fits hc] at hco
      refine ⟨?_, ?_, ?_, hpl, hcl⟩
      · rw [← Nat.add_assoc, Nat.add_right_comm]
        exact hs
      · rw [List.map_cons, startOf_cons_succ, ← Nat.add_assoc]
        exact hpo
      · rw [List.map_cons, startOf_cons_succ, ← Nat.add_assoc]
        exact hco

/-- Every ciphertext is at least one byte, so the entries can be counted in 64 bits. -/
theorem Admissible.length_lt (ha : Admissible 0 0 lengths) : lengths.length < 2 ^ 64 := by
  have hle : (lengths.map fun l => l.2.toNat).length ≤ ciphertextTotal lengths := by
    refine List.length_le_sum_of_one_le _ fun x hx => ?_
    obtain ⟨l, hl, rfl⟩ := List.mem_map.mp hx
    have hne := (ha.blocks l hl).1
    have : l.2.toNat ≠ 0 := fun h => hne (UInt64.toNat_inj.mp h)
    omega
  have hfits := ha.ciphertext_fits
  rw [List.length_map] at hle
  simp only [UInt64.toNat_zero] at hfits
  omega

/-- A multiple of 32 other than zero, as a word and as a number. -/
theorem blocks_iff {x : UInt64} : (x ≠ 0 ∧ x % 32 = 0) ↔ 0 < x.toNat ∧ x.toNat % 32 = 0 := by
  have hzero : x = 0 ↔ x.toNat = 0 := UInt64.toNat_inj.symm
  have hmod : x % 32 = 0 ↔ x.toNat % 32 = 0 := by
    rw [← UInt64.toNat_inj, UInt64.toNat_mod]
    rfl
  rw [ne_eq, hzero, hmod]
  omega

/-- **Running sums, entry by entry.** -/
theorem laidOut_iff {n : Nat} : LaidOut entries n ∧ n < 2 ^ 64 ↔
    ∃ lengths, lengths ≠ [] ∧ entries = runningEntries 0 0 0 lengths ∧ Admissible 0 0 lengths ∧
      ciphertextTotal lengths = n := by
  constructor
  · rintro ⟨h, hn⟩
    let lengths := entries.map fun e => (e.plainLength, e.ciphertextLength)
    have hplain : (lengths.map fun l => l.1.toNat) = plainLengths entries := by
      simp only [lengths, List.map_map]
      rfl
    have hcipher : (lengths.map fun l => l.2.toNat) = ciphertextLengths entries := by
      simp only [lengths, List.map_map]
      rfl
    have ha : Admissible 0 0 lengths := by
      refine ⟨fun l hl => ?_, ?_, ?_⟩
      · obtain ⟨e, he, rfl⟩ := List.mem_map.mp hl
        exact blocks_iff.mpr (h.blocks e he)
      · unfold plainTotal
        rw [hplain]
        simpa using h.plain_fits
      · unfold ciphertextTotal
        rw [hcipher, h.total]
        simpa using hn
    have hlen : (runningEntries 0 0 0 lengths).length = entries.length := by
      rw [length_runningEntries, List.length_map]
    have hlt := ha.length_lt
    rw [List.length_map] at hlt
    refine ⟨lengths, by simpa [lengths] using h.nonempty, List.ext_getElem hlen.symm fun i h1 h2 => ?_,
      ha, by unfold ciphertextTotal; rw [hcipher, h.total]⟩
    have hi : i < lengths.length := by rwa [List.length_map]
    have hget : lengths[i] = (entries[i].plainLength, entries[i].ciphertextLength) :=
      List.getElem_map _
    obtain ⟨hs, hpo, hco, hpl, hcl⟩ := @getElem_runningEntries lengths 0 0 0 ha i hi h2
    rw [hplain, UInt64.toNat_zero, Nat.zero_add, ← h.plainOffset i h1] at hpo
    rw [hcipher, UInt64.toNat_zero, Nat.zero_add, ← h.ciphertextOffset i h1] at hco
    refine SegmentEntry.ext ?_ (UInt64.toNat_inj.mp hpo.symm) ?_ (UInt64.toNat_inj.mp hco.symm) ?_
    · apply UInt64.toNat_inj.mp
      rw [hs, h.segmentIndex i h1, Nat.zero_add, UInt64.toNat_ofNat', Nat.mod_eq_of_lt (by omega)]
    · rw [hpl, hget]
    · rw [hcl, hget]
  · rintro ⟨lengths, hne, he, ha, hn⟩
    subst he
    have hlt := ha.length_lt
    have hlen := length_runningEntries 0 0 0 lengths
    have hplain := plainLengths_runningEntries 0 0 0 lengths
    have hcipher := ciphertextLengths_runningEntries 0 0 0 lengths
    refine ⟨⟨?_, fun i hi => ?_, fun i hi => ?_, fun i hi => ?_, fun e he => ?_, ?_, ?_⟩, ?_⟩
    · rw [← List.length_pos_iff, hlen]
      exact List.length_pos_iff.mpr hne
    · rw [(getElem_runningEntries ha (hlen ▸ hi) hi).1, Nat.zero_add, UInt64.toNat_ofNat',
        Nat.mod_eq_of_lt (by omega)]
    · rw [(getElem_runningEntries ha (hlen ▸ hi) hi).2.1, hplain, UInt64.toNat_zero, Nat.zero_add]
    · rw [(getElem_runningEntries ha (hlen ▸ hi) hi).2.2.1, hcipher, UInt64.toNat_zero, Nat.zero_add]
    · have hmem : (e.plainLength, e.ciphertextLength) ∈ lengths := by
        rw [← lengths_runningEntries 0 0 0 lengths]
        exact List.mem_map_of_mem he
      exact blocks_iff.mp (ha.blocks _ hmem)
    · rw [hplain]
      simpa [plainTotal] using ha.plain_fits
    · rw [hcipher]
      exact hn
    · have := ha.ciphertext_fits
      rw [hn] at this
      simpa using this

/-! ## The parser -/

/-- The ciphertext ranges of the entries lie inside `n` bytes, none overlaps another, and every
byte lies in exactly one of them. -/
structure Tiles (entries : List SegmentEntry) (n : Nat) : Prop where
  inside : ∀ entry ∈ entries, entry.ciphertextOffset.toNat + entry.ciphertextLength.toNat ≤ n
  disjoint : entries.Pairwise fun e f =>
    e.ciphertextOffset.toNat + e.ciphertextLength.toNat ≤ f.ciphertextOffset.toNat
  cover : ∀ x < n, ∃! i, ∃ h : i < entries.length, entries[i].ciphertextOffset.toNat ≤ x ∧
    x < entries[i].ciphertextOffset.toNat + entries[i].ciphertextLength.toNat

theorem LaidOut.tiles {n : Nat} (h : LaidOut entries n) : Tiles entries n := by
  have hlen : (ciphertextLengths entries).length = entries.length := List.length_map ..
  have hget (i : Nat) (hi : i < entries.length) :
      entries[i].ciphertextLength.toNat = (ciphertextLengths entries)[i] := by
    simp [ciphertextLengths]
  refine ⟨fun e he => ?_, ?_, fun x hx => ?_⟩
  · obtain ⟨i, hi, rfl⟩ := List.getElem_of_mem he
    rw [h.ciphertextOffset i hi, hget i hi, ← h.total]
    exact end_le_sum (hlen ▸ hi)
  · refine List.pairwise_iff_getElem.mpr fun i j hi hj hij => ?_
    rw [h.ciphertextOffset i hi, h.ciphertextOffset j hj, hget i hi]
    exact end_le_startOf (hlen ▸ hi) hij
  · rw [← h.total] at hx
    obtain ⟨i, ⟨hi, hrange⟩, huniq⟩ := existsUnique_piece hx
    have hi' : i < entries.length := hlen ▸ hi
    refine ⟨i, ⟨hi', ?_⟩, ?_⟩
    · rw [h.ciphertextOffset i hi', hget i hi']
      exact hrange
    · rintro j ⟨hj, hj'⟩
      rw [h.ciphertextOffset j hj, hget j hj] at hj'
      exact huniq j ⟨hlen ▸ hj, hj'⟩

/-- **The parser accepts exactly the tables laid out over `n` bytes**, and returns on every other
one. The ranges of what it accepts tile the ciphertext, and the sum of the plaintext lengths in
`decrypt_v5` does not overflow. -/
theorem parseSegmentTable_exact (table : Bytes) (n : UInt64) :
    Settles (parseSegmentTable table n) ∧
      (∀ entries, parseSegmentTable table n = .ok entries ↔
        table = serializeSegmentTable entries ∧ LaidOut entries n.toNat) ∧
      ∀ entries, parseSegmentTable table n = .ok entries → Tiles entries n.toNat ∧
        ∀ E : Env, entries.foldlM (fun sum entry => E.addU64 sum entry.plainLength) 0 =
          .ok (.ofNat (plainLengths entries).sum) := by
  have hexact (entries : List SegmentEntry) : parseSegmentTable table n = .ok entries ↔
      table = serializeSegmentTable entries ∧ LaidOut entries n.toNat := by
    have hlt := n.toNat_lt
    rw [parseSegmentTable_eq_ok]
    constructor
    · rintro ⟨lengths, hne, he, ht, ha, hn⟩
      exact ⟨ht, (laidOut_iff.mpr ⟨lengths, hne, he, ha, hn⟩).1⟩
    · rintro ⟨ht, hl⟩
      obtain ⟨lengths, hne, he, ha, hn⟩ := laidOut_iff.mp ⟨hl, hlt⟩
      exact ⟨lengths, hne, he, ht, ha, hn⟩
  refine ⟨parseSegmentTable_settles table n, hexact, fun entries h => ⟨?_, fun E => ?_⟩⟩
  · exact ((hexact entries).mp h).2.tiles
  · obtain ⟨lengths, -, rfl, -, ha, -⟩ := parseSegmentTable_eq_ok.mp h
    rw [sum_runningEntries ha, plainLengths_runningEntries, UInt64.toNat_zero, Nat.zero_add]
    rfl

theorem parseSegmentTable_exact_two :
    parseSegmentTable (serializeSegmentTable [⟨0, 0, 33, 0, 64⟩, ⟨1, 33, 5, 64, 32⟩]) 96 =
      .ok [⟨0, 0, 33, 0, 64⟩, ⟨1, 33, 5, 64, 32⟩] := by
  refine ((parseSegmentTable_exact _ _).2.1 _).mpr ⟨rfl, List.cons_ne_nil _ _, ?_, ?_, ?_, ?_, ?_, rfl⟩
  · decide
  · decide
  · decide
  · decide
  · decide

/-! ## The encoder -/

variable {E : Env} {keys : V5Keys} {publicNonce : Nonce} {syntheticIv : Hash} {inner ciphertext : Bytes}
  {size : Nat}

/-- Entry `k` of an inner plaintext cut to `size`: its place, its lengths and its ciphertext. -/
structure SegmentAt (E : Env) (keys : V5Keys) (publicNonce : Nonce) (syntheticIv : Hash)
    (inner ciphertext : Bytes) (size k : Nat) (entry : SegmentEntry) : Prop where
  plainOffset : entry.plainOffset.toNat = k * size
  plainLength : entry.plainLength.toNat = min size (inner.length - k * size)
  ciphertextLength : entry.ciphertextLength.toNat = 32 * (entry.plainLength.toNat / 32 + 1)
  ciphertext : encryptBlocks E
    (pad (inner.extract (k * size) (k * size + entry.plainLength.toNat))) keys.encKey
      (segmentNonce E keys publicNonce syntheticIv (.ofNat k)).toList =
    .ok (ciphertext.extract entry.ciphertextOffset.toNat
      (entry.ciphertextOffset.toNat + entry.ciphertextLength.toNat))

/-- Padding adds at most one block to each segment. -/
theorem Sealed.ciphertext_le {ordinal : Nat} {segments : List Segment}
    (h : Sealed E keys publicNonce syntheticIv ordinal segments) :
    (ciphertextOf segments).length ≤ (plainOf segments).length + 32 * segments.length := by
  induction segments generalizing ordinal with
  | nil => exact le_rfl
  | cons segment segments ih =>
    have hlen := h.length_ciphertext segment List.mem_cons_self
    have := ih h.2
    rw [plainOf_cons, ciphertextOf_cons, List.length_append, List.length_append, List.length_cons]
    omega

/-- A plaintext in memory has a ciphertext whose length is a word. -/
theorem Sealed.ciphertext_lt {segments : List Segment}
    (h : Sealed E keys publicNonce syntheticIv 0 segments) (hs : 32 ≤ size) (hne : inner ≠ [])
    (hp : segments.map Prod.fst = chunks size inner) (hlt : inner.length < 2 ^ 63) :
    (ciphertextOf segments).length < 2 ^ 64 := by
  have hpos := List.length_pos_iff.mpr hne
  have hlen := congrArg List.length hp
  rw [List.length_map, length_chunks] at hlen
  have hcount : segments.length ≤ (inner.length - 1) / 32 + 1 := by
    rw [hlen, show inner.length + size - 1 = inner.length - 1 + size by omega,
      Nat.add_div_right _ (by omega)]
    exact Nat.succ_le_succ (Nat.div_le_div_left hs (by omega))
  have hplain : plainOf segments = inner := by
    unfold plainOf
    rw [hp, flatten_chunks (by omega)]
  have hle := h.ciphertext_le
  rw [hplain] at hle
  omega

/-- The recorded lengths are the lengths, where these are words. -/
theorem toNat_lengthsOf {segments : List Segment} (hplt : (plainOf segments).length < 2 ^ 64)
    (hclt : (ciphertextOf segments).length < 2 ^ 64) :
    ((lengthsOf segments).map fun l => l.1.toNat) = (segments.map Prod.fst).map List.length ∧
      ((lengthsOf segments).map fun l => l.2.toNat) = (segments.map Prod.snd).map List.length := by
  unfold lengthsOf
  simp only [List.map_map]
  refine ⟨List.map_congr_left fun s hs => ?_, List.map_congr_left fun s hs => ?_⟩
  · have hle : s.1.length ≤ (plainOf segments).length :=
      (List.sublist_flatten_of_mem (List.mem_map_of_mem hs)).length_le
    exact UInt64.toNat_ofNat_of_lt' (hle.trans_lt hplt)
  · have hle : s.2.length ≤ (ciphertextOf segments).length :=
      (List.sublist_flatten_of_mem (List.mem_map_of_mem hs)).length_le
    exact UInt64.toNat_ofNat_of_lt' (hle.trans_lt hclt)

/-- What the table says of a sealed segment. -/
theorem Sealed.segmentAt {segments : List Segment}
    (h : Sealed E keys publicNonce syntheticIv 0 segments) (hs : 0 < size)
    (hp : segments.map Prod.fst = chunks size inner) (hplt : (plainOf segments).length < 2 ^ 64)
    (hclt : (ciphertextOf segments).length < 2 ^ 64) {k : Nat}
    (hk : k < (runningEntries 0 0 0 (lengthsOf segments)).length) :
    SegmentAt E keys publicNonce syntheticIv inner (ciphertextOf segments) size k
      (runningEntries 0 0 0 (lengthsOf segments))[k] := by
  have ha := h.admissible hplt hclt
  have hks : k < segments.length := by
    rwa [length_runningEntries, lengthsOf, List.length_map] at hk
  have hkc : k < (chunks size inner).length := by
    rwa [← hp, List.length_map]
  obtain ⟨hplens, hclens⟩ := toNat_lengthsOf hplt hclt
  have hkl : k < (lengthsOf segments).length := by
    rwa [lengthsOf, List.length_map]
  obtain ⟨-, hpo, hco, hpl, hcl⟩ := @getElem_runningEntries _ 0 0 0 ha k hkl hk
  rw [UInt64.toNat_zero, Nat.zero_add, hplens, hp] at hpo
  rw [UInt64.toNat_zero, Nat.zero_add, hclens] at hco
  -- The recorded lengths of the entry are those of its piece and of its ciphertext.
  have hplen : (runningEntries 0 0 0 (lengthsOf segments))[k].plainLength.toNat =
      segments[k].1.length := by
    have hget := List.getElem_of_eq hplens (i := k) (by simpa [lengthsOf] using hks)
    rw [hpl]
    simpa using hget
  have hclen : (runningEntries 0 0 0 (lengthsOf segments))[k].ciphertextLength.toNat =
      segments[k].2.length := by
    have hget := List.getElem_of_eq hclens (i := k) (by simpa [lengthsOf] using hks)
    rw [hcl]
    simpa using hget
  have hpiece : segments[k].1 = (inner.drop (k * size)).take size := by
    rw [← getElem_chunks hkc]
    simp only [← hp, List.getElem_map]
  have hstart : k * size ≤ inner.length := by
    rw [length_chunks, Nat.lt_iff_add_one_le, Nat.le_div_iff_mul_le hs, Nat.succ_mul] at hkc
    omega
  have hcipher := @extract_flatten k _ (segments.map Prod.snd) (by simpa using hks)
  rw [List.getElem_map, ← hco] at hcipher
  have hlen := congrArg List.length hpiece
  rw [List.length_take, List.length_drop] at hlen
  refine ⟨by rw [hpo, startOf_chunks hs hstart], by rw [hplen, hlen], ?_, ?_⟩
  · rw [hplen, hclen]
    exact h.length_ciphertext _ (List.getElem_mem hks)
  · have hseal := h.getElem (List.getElem?_eq_getElem hks)
    rw [Nat.zero_add] at hseal
    have htake : inner.extract (k * size) (k * size + segments[k].1.length) = segments[k].1 := by
      rw [List.extract, Nat.add_sub_cancel_left, hlen, hpiece]
      simp [List.take_eq_take_iff]
    rw [hplen, hclen, htake, hseal]
    exact congrArg _ hcipher.symm

/-- **The segmentation loses, duplicates and reorders nothing.** With enough fuel for the rejection
loops `encrypt_segments` returns one table and one ciphertext for every number of workers and
every order in which they finish; the parser reads the table back, each entry is at its place,
and `decrypt_segments` returns the inner plaintext. -/
theorem encryptSegments_layout (E : Env) (hT : E.ShufflesTerminate) :
    ∃ n, ∀ m, n ≤ m → ∀ (keys : V5Keys) (publicNonce : Nonce) (syntheticIv : Hash) (inner : Bytes)
      (requestedSegmentSize : UInt64), inner ≠ [] → inner.length < 2 ^ 63 →
      ∃ table ciphertext entries,
        (∀ workers order, encryptSegments (E.withFuel m) keys publicNonce syntheticIv inner
          requestedSegmentSize workers order = .ok (table, ciphertext)) ∧
        parseSegmentTable table (.ofNat ciphertext.length) = .ok entries ∧
        LaidOut entries ciphertext.length ∧
        entries.length = (inner.length + max requestedSegmentSize.toNat blockBytes - 1) /
          max requestedSegmentSize.toNat blockBytes ∧
        (∀ k (h : k < entries.length), SegmentAt (E.withFuel m) keys publicNonce syntheticIv inner
          ciphertext (max requestedSegmentSize.toNat blockBytes) k entries[k]) ∧
        decryptSegments (E.withFuel m) keys publicNonce syntheticIv ciphertext entries =
          .ok inner := by
  obtain ⟨n, hn⟩ := hT.fuel
  refine ⟨n, fun m hm keys publicNonce syntheticIv inner requested hne hlt => ?_⟩
  have hs : 32 ≤ max requested.toNat blockBytes := Nat.le_max_right _ _
  generalize hsize : max requested.toNat blockBytes = size at hs ⊢
  obtain ⟨segments, hseal, hp⟩ := exists_sealed (hn m hm) keys publicNonce syntheticIv 0
    (chunks size inner)
  have hplain : plainOf segments = inner := by
    unfold plainOf
    rw [hp, flatten_chunks (by omega)]
  have hclt := hseal.ciphertext_lt hs hne hp hlt
  have hplt : (plainOf segments).length < 2 ^ 64 := by
    rw [hplain]
    omega
  have ha := hseal.admissible hplt hclt
  have hnat : (UInt64.ofNat (ciphertextOf segments).length).toNat = (ciphertextOf segments).length :=
    UInt64.toNat_ofNat_of_lt' hclt
  have htotal := ciphertextTotal_lengthsOf hclt
  have hcount : segments.length = (inner.length + size - 1) / size := by
    rw [← length_chunks size inner, ← hp, List.length_map]
  have hsegs : lengthsOf segments ≠ [] := by
    intro hnil
    obtain rfl := List.map_eq_nil_iff.mp hnil
    exact hne hplain.symm
  refine ⟨_, ciphertextOf segments, runningEntries 0 0 0 (lengthsOf segments), fun workers order => ?_,
    parseSegmentTable_eq_ok.mpr ⟨_, hsegs, rfl, rfl, ha, htotal.trans hnat.symm⟩,
    (laidOut_iff.mpr ⟨_, hsegs, rfl, ha, htotal⟩).1, ?_,
    fun k hk => hseal.segmentAt (by omega) hp hplt hclt hk, ?_⟩
  · rw [encryptSegments_eq_ok, hsize, ← hp]
    exact encryptPieces_ok hseal (by rw [plainTotal_lengthsOf hplt]; exact hplt)
      (by rw [htotal]; exact hclt)
  · rw [length_runningEntries, lengthsOf, List.length_map, hcount]
  · exact (decryptSegments_eq_ok ha htotal.symm).mpr ⟨segments, hseal, rfl, rfl, hplain.symm⟩

/-- Seventy bytes in segments of 64 and 6. -/
theorem encryptSegments_layout_small : ∃ n table ciphertext entries,
    encryptSegments (Env.zero.withFuel n) (V5Keys.derive Env.zero ⟨Vector.replicate 32 0⟩)
      (Vector.replicate 16 0) (Vector.replicate 32 0) (List.replicate 70 7) 64 2
      (fun _ => Equiv.refl _) = .ok (table, ciphertext) ∧
    LaidOut entries ciphertext.length ∧ entries.length = 2 := by
  obtain ⟨n, h⟩ := encryptSegments_layout Env.zero Env.zero_shufflesTerminate
  obtain ⟨table, ciphertext, entries, he, -, hl, hlen, -⟩ := h n le_rfl
    (V5Keys.derive Env.zero ⟨Vector.replicate 32 0⟩) (Vector.replicate 16 0)
    (Vector.replicate 32 0) (List.replicate 70 7) 64 (by decide) (by decide)
  exact ⟨n, table, ciphertext, entries, he _ _, hl, hlen⟩

end Krcm
