import Krcm.Env

/-!
# The segment table

`serialize_segment_table` and `parse_segment_table` of `format_v5.rs`. A table
is canonical when its entries are `runningEntries` of some segment lengths:
indices from zero, offsets the sums of the lengths before. The parser accepts
exactly the serialized canonical tables (`parseSegmentTable_eq_ok`).
-/

namespace Krcm

open Base Outcome

@[simp] abbrev segmentEntryBytes : Nat := 40

@[ext] structure SegmentEntry where
  segmentIndex : UInt64
  plainOffset : UInt64
  plainLength : UInt64
  ciphertextOffset : UInt64
  ciphertextLength : UInt64
  deriving DecidableEq, Repr

def SegmentEntry.bytes (entry : SegmentEntry) : Arr segmentEntryBytes :=
  arrOfList (u64Bytes entry.segmentIndex ++ (u64Bytes entry.plainOffset ++
    (u64Bytes entry.plainLength ++ (u64Bytes entry.ciphertextOffset ++
      u64Bytes entry.ciphertextLength)))) (by simp)

/-- The entry of one 40-byte chunk. -/
def SegmentEntry.read (chunk : Arr segmentEntryBytes) : SegmentEntry where
  segmentIndex := u64OfBytes (chunk.toList.extract 0 8)
  plainOffset := u64OfBytes (chunk.toList.extract 8 16)
  plainLength := u64OfBytes (chunk.toList.extract 16 24)
  ciphertextOffset := u64OfBytes (chunk.toList.extract 24 32)
  ciphertextLength := u64OfBytes (chunk.toList.extract 32 40)

def serializeSegmentTable (entries : List SegmentEntry) : Bytes :=
  ((entries.map SegmentEntry.bytes).map Vector.toList).flatten

/-- `a.checked_add(b)`. -/
def checkedAdd (a b : UInt64) : Option UInt64 :=
  if a.toNat + b.toNat < 2 ^ 64 then some (a + b) else none

/-- The loop of `parse_segment_table`; it returns the entries and the sum of the ciphertext
lengths. -/
def parseEntries (ordinal : Nat) (expectedPlainOffset expectedCiphertextOffset : UInt64) :
    List (Arr segmentEntryBytes) → Run (List SegmentEntry × UInt64)
  | [] => .ok ([], expectedCiphertextOffset)
  | chunk :: chunks => do
    let entry := SegmentEntry.read chunk
    rejectIf (entry.segmentIndex ≠ .ofNat ordinal ∨ entry.plainOffset ≠ expectedPlainOffset ∨
      entry.ciphertextOffset ≠ expectedCiphertextOffset ∨ entry.ciphertextLength = 0 ∨
      entry.ciphertextLength % 32 ≠ 0) .format
    let plainOffset ← okOr (checkedAdd expectedPlainOffset entry.plainLength) .format
    let ciphertextOffset ← okOr (checkedAdd expectedCiphertextOffset entry.ciphertextLength) .format
    let (entries, total) ← parseEntries (ordinal + 1) plainOffset ciphertextOffset chunks
    .ok (entry :: entries, total)

def parseSegmentTable (table : Bytes) (ciphertextLen : UInt64) : Run (List SegmentEntry) := do
  rejectIf (table = [] ∨ table.length % segmentEntryBytes ≠ 0) .format
  let (entries, total) ← parseEntries 0 0 0 (chunksExact segmentEntryBytes table)
  rejectIf (total ≠ ciphertextLen) .format
  .ok entries

/-! ## Entries and their bytes -/

@[simp] theorem SegmentEntry.bytes_read (chunk : Arr segmentEntryBytes) :
    (read chunk).bytes = chunk := by
  have hlen : chunk.toList.length = 40 := by simp
  have hword (i j : Nat) (hij : j = i + 8) (hj : j ≤ 40) :
      u64Bytes (u64OfBytes (chunk.toList.extract i j)) = chunk.toList.extract i j :=
    u64Bytes_u64OfBytes (by simp; omega)
  apply Vector.toList_inj.mp
  simp only [bytes, read, toList_arrOfList]
  rw [hword 0 8 rfl (by omega), hword 8 16 rfl (by omega), hword 16 24 rfl (by omega),
    hword 24 32 rfl (by omega), hword 32 40 rfl (by omega),
    extract_append_extract (by omega) (by omega), extract_append_extract (by omega) (by omega),
    extract_append_extract (by omega) (by omega), extract_append_extract (by omega) (by omega)]
  simp

theorem SegmentEntry.bytes_injective : Function.Injective SegmentEntry.bytes := by
  intro e f h
  have h := congrArg Vector.toList h
  simp only [bytes, toList_arrOfList] at h
  obtain ⟨h0, h⟩ := List.append_inj h (by simp)
  obtain ⟨h1, h⟩ := List.append_inj h (by simp)
  obtain ⟨h2, h⟩ := List.append_inj h (by simp)
  obtain ⟨h3, h4⟩ := List.append_inj h (by simp)
  exact SegmentEntry.ext (u64Bytes_inj h0) (u64Bytes_inj h1) (u64Bytes_inj h2) (u64Bytes_inj h3)
    (u64Bytes_inj h4)

@[simp] theorem SegmentEntry.read_bytes (entry : SegmentEntry) : read entry.bytes = entry :=
  bytes_injective (bytes_read entry.bytes)

theorem chunksExact_serialize (entries : List SegmentEntry) :
    chunksExact segmentEntryBytes (serializeSegmentTable entries) = entries.map SegmentEntry.bytes :=
  chunksExact_flatten (by decide) _

theorem length_serialize (entries : List SegmentEntry) :
    (serializeSegmentTable entries).length = entries.length * 40 := by
  unfold serializeSegmentTable
  rw [length_flatten_vectors, List.length_map]

theorem serializeSegmentTable_injective : Function.Injective serializeSegmentTable := by
  intro es fs h
  have h := congrArg (chunksExact segmentEntryBytes) h
  rw [chunksExact_serialize, chunksExact_serialize] at h
  exact SegmentEntry.bytes_injective.list_map h

/-! ## Canonical tables -/

/-- The lengths one entry records: of the plaintext and of the ciphertext of its segment. -/
abbrev SegmentLengths := UInt64 × UInt64

/-- The entries of segments of these lengths, numbered and laid end to end. -/
def runningEntries : (ordinal : Nat) → (plainOffset ciphertextOffset : UInt64) →
    List SegmentLengths → List SegmentEntry
  | _, _, _, [] => []
  | ordinal, plainOffset, ciphertextOffset, (plain, cipher) :: lengths =>
    ⟨.ofNat ordinal, plainOffset, plain, ciphertextOffset, cipher⟩ ::
      runningEntries (ordinal + 1) (plainOffset + plain) (ciphertextOffset + cipher) lengths

theorem length_runningEntries (ordinal : Nat) (p c : UInt64) (lengths : List SegmentLengths) :
    (runningEntries ordinal p c lengths).length = lengths.length := by
  induction lengths generalizing ordinal p c with
  | nil => rfl
  | cons l lengths ih => rw [runningEntries, List.length_cons, ih, List.length_cons]

/-- The lengths are read back off the entries. -/
theorem lengths_runningEntries (ordinal : Nat) (p c : UInt64) (lengths : List SegmentLengths) :
    (runningEntries ordinal p c lengths).map (fun e => (e.plainLength, e.ciphertextLength)) =
      lengths := by
  induction lengths generalizing ordinal p c with
  | nil => rfl
  | cons l lengths ih => rw [runningEntries, List.map_cons, ih]

def plainTotal (lengths : List SegmentLengths) : Nat := (lengths.map fun l => l.1.toNat).sum

def ciphertextTotal (lengths : List SegmentLengths) : Nat := (lengths.map fun l => l.2.toNat).sum

/-- The lengths the parser lets pass, when the offsets so far are the two sums. -/
structure Admissible (plainOffset ciphertextOffset : UInt64) (lengths : List SegmentLengths) :
    Prop where
  blocks : ∀ l ∈ lengths, l.2 ≠ 0 ∧ l.2 % 32 = 0
  plain_fits : plainOffset.toNat + plainTotal lengths < 2 ^ 64
  ciphertext_fits : ciphertextOffset.toNat + ciphertextTotal lengths < 2 ^ 64

theorem checkedAdd_eq_some {a b c : UInt64} :
    checkedAdd a b = some c ↔ a.toNat + b.toNat < 2 ^ 64 ∧ c = a + b := by
  unfold checkedAdd
  split <;> simp_all [eq_comm]

theorem toNat_add_of_fits {a b : UInt64} (h : a.toNat + b.toNat < 2 ^ 64) :
    (a + b).toNat = a.toNat + b.toNat := by
  rw [UInt64.toNat_add, Nat.mod_eq_of_lt h]

@[simp] theorem plainTotal_cons (l : SegmentLengths) (lengths : List SegmentLengths) :
    plainTotal (l :: lengths) = l.1.toNat + plainTotal lengths := by
  simp [plainTotal]

@[simp] theorem ciphertextTotal_cons (l : SegmentLengths) (lengths : List SegmentLengths) :
    ciphertextTotal (l :: lengths) = l.2.toNat + ciphertextTotal lengths := by
  simp [ciphertextTotal]

/-- One more segment in front: its own lengths pass, and the rest passes behind it. -/
theorem admissible_cons {p c : UInt64} {l : SegmentLengths} {lengths : List SegmentLengths} :
    Admissible p c (l :: lengths) ↔ (l.2 ≠ 0 ∧ l.2 % 32 = 0) ∧ p.toNat + l.1.toNat < 2 ^ 64 ∧
      c.toNat + l.2.toNat < 2 ^ 64 ∧ Admissible (p + l.1) (c + l.2) lengths := by
  constructor
  · rintro ⟨hb, hp, hc⟩
    rw [plainTotal_cons] at hp
    rw [ciphertextTotal_cons] at hc
    have hp' : p.toNat + l.1.toNat < 2 ^ 64 := by omega
    have hc' : c.toNat + l.2.toNat < 2 ^ 64 := by omega
    refine ⟨hb l List.mem_cons_self, hp', hc', fun m hm => hb m (List.mem_cons_of_mem _ hm), ?_, ?_⟩
    · rw [toNat_add_of_fits hp']
      omega
    · rw [toNat_add_of_fits hc']
      omega
  · rintro ⟨hl, hp, hc, hb, hps, hcs⟩
    rw [toNat_add_of_fits hp] at hps
    rw [toNat_add_of_fits hc] at hcs
    refine ⟨List.forall_mem_cons.mpr ⟨hl, hb⟩, ?_, ?_⟩
    · rw [plainTotal_cons]
      omega
    · rw [ciphertextTotal_cons]
      omega

theorem parseEntries_eq_ok {chunks : List (Arr segmentEntryBytes)} {ordinal : Nat} {p c : UInt64}
    {entries : List SegmentEntry} {total : UInt64} :
    parseEntries ordinal p c chunks = .ok (entries, total) ↔
      ∃ lengths, entries = runningEntries ordinal p c lengths ∧
        chunks = entries.map SegmentEntry.bytes ∧ Admissible p c lengths ∧
        total.toNat = c.toNat + ciphertextTotal lengths := by
  induction chunks generalizing ordinal p c entries with
  | nil =>
    constructor
    · intro h
      cases h
      exact ⟨[], rfl, rfl, ⟨nofun, p.toNat_lt, total.toNat_lt⟩, rfl⟩
    · rintro ⟨lengths, he, hc, _, ht⟩
      obtain rfl := List.map_eq_nil_iff.mp hc.symm
      cases lengths with
      | nil => rw [parseEntries, UInt64.toNat_inj.mp ht]
      | cons l lengths => cases he
  | cons chunk chunks ih =>
    constructor
    · intro h
      simp only [parseEntries, bind_eq_ok, rejectIf_eq_ok, okOr_eq_ok, checkedAdd_eq_some,
        not_or, not_not] at h
      obtain ⟨_, ⟨hi, hp, hc, hz, hm⟩, _, ⟨hpf, rfl⟩, _, ⟨hcf, rfl⟩, ⟨es, t⟩, hrest, h⟩ := h
      cases h
      obtain ⟨lengths, rfl, rfl, ha, ht⟩ := ih.mp hrest
      refine ⟨((SegmentEntry.read chunk).plainLength, (SegmentEntry.read chunk).ciphertextLength) ::
        lengths, ?_, ?_, admissible_cons.mpr ⟨⟨hz, hm⟩, hpf, hcf, ha⟩, ?_⟩
      · exact congrArg (· :: _) (SegmentEntry.ext hi hp rfl hc rfl)
      · rw [List.map_cons, SegmentEntry.bytes_read]
      · rw [ht, toNat_add_of_fits hcf, ciphertextTotal_cons, Nat.add_assoc]
    · rintro ⟨lengths, he, hc, ha, ht⟩
      cases lengths with
      | nil => subst he; cases hc
      | cons l lengths =>
        subst he
        obtain ⟨plain, cipher⟩ := l
        obtain ⟨rfl, rfl⟩ := List.cons.inj hc
        obtain ⟨⟨hz, hm⟩, hpf, hcf, ha⟩ := admissible_cons.mp ha
        rw [ciphertextTotal_cons] at ht
        have hrest := ih.mpr ⟨lengths, rfl, rfl, ha, by rw [toNat_add_of_fits hcf]; omega⟩
        rw [parseEntries, SegmentEntry.read_bytes, rejectIf_false (by simp [hz, hm]), ok_bind,
          checkedAdd_eq_some.mpr ⟨hpf, rfl⟩, checkedAdd_eq_some.mpr ⟨hcf, rfl⟩]
        simp only [okOr, ok_bind, hrest, runningEntries]

/-- **The parser accepts exactly the canonical tables.** -/
theorem parseSegmentTable_eq_ok {table : Bytes} {n : UInt64} {entries : List SegmentEntry} :
    parseSegmentTable table n = .ok entries ↔
      ∃ lengths, lengths ≠ [] ∧ entries = runningEntries 0 0 0 lengths ∧
        table = serializeSegmentTable entries ∧ Admissible 0 0 lengths ∧
        ciphertextTotal lengths = n.toNat := by
  constructor
  · intro h
    simp only [parseSegmentTable, bind_eq_ok, rejectIf_eq_ok, not_or, not_not] at h
    obtain ⟨_, ⟨hne, hlen⟩, ⟨es, total⟩, hparse, _, rfl, h⟩ := h
    cases h
    obtain ⟨lengths, rfl, hc, ha, hn⟩ := parseEntries_eq_ok.mp hparse
    have htable : table = serializeSegmentTable (runningEntries 0 0 0 lengths) := by
      unfold serializeSegmentTable
      rw [← hc, flatten_chunksExact (by decide) hlen]
    refine ⟨lengths, ?_, rfl, htable, ha, by simpa using hn.symm⟩
    rintro rfl
    exact hne htable
  · rintro ⟨lengths, hne, he, ht, ha, hn⟩
    have hchunks : chunksExact segmentEntryBytes table = entries.map SegmentEntry.bytes := by
      rw [ht, chunksExact_serialize]
    have hlen : table.length = entries.length * 40 := by rw [ht, length_serialize]
    have hpos : 0 < entries.length := by
      obtain ⟨l, rest, rfl⟩ := List.exists_cons_of_ne_nil hne
      simp [he, runningEntries]
    have hparse := parseEntries_eq_ok.mpr ⟨lengths, he, hchunks, ha, (by simpa using hn.symm)⟩
    unfold parseSegmentTable
    rw [rejectIf_false ?_, ok_bind, hparse, ok_bind]
    · exact bind_eq_ok.mpr ⟨(), rejectIf_eq_ok.mpr (not_not.mpr rfl), rfl⟩
    · simp only [segmentEntryBytes, not_or, not_not]
      refine ⟨fun hnil => ?_, by omega⟩
      rw [hnil, List.length_nil] at hlen
      omega

theorem parseEntries_settles (chunks : List (Arr segmentEntryBytes)) (ordinal : Nat)
    (p c : UInt64) : Settles (parseEntries ordinal p c chunks) := by
  induction chunks generalizing ordinal p c with
  | nil => exact settles_ok _
  | cons chunk chunks ih =>
    unfold parseEntries
    refine settles_bind rejectIf_settles fun _ _ => ?_
    refine settles_bind okOr_settles fun _ _ => settles_bind okOr_settles fun _ _ => ?_
    exact settles_bind (ih _ _ _) fun _ _ => settles_ok _

theorem parseSegmentTable_settles (table : Bytes) (n : UInt64) :
    Settles (parseSegmentTable table n) := by
  unfold parseSegmentTable
  refine settles_bind rejectIf_settles fun _ _ => ?_
  refine settles_bind (parseEntries_settles _ _ _ _) fun _ _ => ?_
  exact settles_bind rejectIf_settles fun _ _ => settles_ok _

end Krcm
