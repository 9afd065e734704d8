import Krcm.V5.Header

/-!
# The inner plaintext

`pack_inner`, `inspect_inner` and `unpack_inner` of `format_v5.rs`: a header of
76 bytes, the payload, and up to fifteen blocks of random padding.

`inspectInner_eq_ok` says what is accepted, and `inspectInner_panics` when the
sum `76 + payload_length` leaves 64 bits.
-/

namespace Krcm

open Base Outcome

@[simp] abbrev innerHeaderBytes : Nat := 76

def innerMagic : Bytes := ascii "KRCMIN5\x00"

/-- What one call of `encrypt_v5` takes from `OsRng`, and the order in which the workers finish
the segments. -/
structure Coins where
  salt : Salt
  publicNonce : Nonce
  /-- The byte behind the number of padding blocks. -/
  count : UInt8
  random : (n : Nat) → Arr n
  order : (n : Nat) → Equiv.Perm (Fin n)

def randomPaddingLen (padding : PaddingPolicy) (coins : Coins) : Nat :=
  match padding with
  | .minimalBlock => 0
  | .randomBlocks maxBlocks =>
    let maxBlocks := min maxBlocks 15
    if maxBlocks = 0 then 0 else (coins.count % (maxBlocks + 1)).toNat * blockBytes

/-- The first 76 bytes. -/
def innerHeader (originalLength payloadLength : UInt64) (hash : Hash) : Bytes :=
  innerMagic ++ ([1] ++ ([0] ++ (beBytes 2 0 ++ (u64Bytes originalLength ++ (u64Bytes payloadLength ++
    (hash.toList ++ (beBytes 2 1 ++ (beBytes 2 blockBytes ++ (beBytes 2 rounds ++
      List.replicate 10 0)))))))))

variable (E : Env)

def packInner (data : Bytes) (padding : PaddingPolicy) (coins : Coins) : Bytes :=
  innerHeader (.ofNat data.length) (.ofNat data.length) (E.sha256 data) ++ data ++
    (coins.random (randomPaddingLen padding coins)).toList

structure InnerInfo where
  originalLength : UInt64
  payloadLength : UInt64
  deriving DecidableEq

/-- `inspect_inner` up to the two lengths. -/
def inspectFields (inner : Bytes) : Run InnerInfo := do
  rejectIf (inner.length < innerHeaderBytes) .authentication
  let magic ← slice inner 0 8
  rejectIf (magic ≠ innerMagic) .authentication
  let version ← slice inner 8 9
  rejectIf (version ≠ [1]) .authentication
  let flags ← slice inner 9 10
  rejectIf (flags ≠ [0]) .authentication
  let reserved ← slice inner 10 12
  rejectIf (reserved ≠ [0, 0]) .authentication
  let algorithm ← slice inner 60 62
  rejectIf (beNat algorithm ≠ 1) .authentication
  let block ← slice inner 62 64
  rejectIf (beNat block ≠ blockBytes) .authentication
  let roundCount ← slice inner 64 66
  rejectIf (beNat roundCount ≠ rounds) .authentication
  let reserved2 ← slice inner 66 76
  rejectIf (reserved2.any fun b => b ≠ 0) .authentication
  let originalLength ← slice inner 12 20
  let payloadLength ← slice inner 20 28
  .ok ⟨u64OfBytes originalLength, u64OfBytes payloadLength⟩

def inspectInner (inner : Bytes) : Run InnerInfo := do
  let info ← inspectFields inner
  let needed ← E.add innerHeaderBytes info.payloadLength.toNat
  rejectIf (needed > inner.length ∨ info.originalLength > info.payloadLength) .authentication
  let payloadEnd ← E.add innerHeaderBytes info.payloadLength.toNat
  let payload ← slice inner innerHeaderBytes payloadEnd
  let stored ← slice inner 28 60
  rejectIf (stored ≠ (E.sha256 payload).toList) .authentication
  .ok info

def unpackInner (inner : Bytes) : Run Bytes := do
  let info ← inspectInner E inner
  let payloadEnd ← E.add innerHeaderBytes info.payloadLength.toNat
  let payload ← slice inner innerHeaderBytes payloadEnd
  slice payload 0 info.originalLength.toNat

/-! ## The fixed fields -/

@[simp] theorem length_innerHeader (originalLength payloadLength : UInt64) (hash : Hash) :
    (innerHeader originalLength payloadLength hash).length = 76 := by
  simp [innerHeader, innerMagic, ascii]

/-- The fields are accepted iff the first 76 bytes are a header with these lengths. -/
theorem inspectFields_eq_ok {inner : Bytes} {info : InnerInfo} : inspectFields inner = .ok info ↔
    ∃ hash, slice inner 0 innerHeaderBytes =
      (.ok (innerHeader info.originalLength info.payloadLength hash) : Run Bytes) := by
  have hm : innerMagic.length = 8 := by decide
  simp only [inspectFields, innerHeader, slice_append_iff, bind_eq_ok, rejectIf_eq_ok, not_not,
    List.length_cons, List.length_nil, hm, length_beBytes, length_u64Bytes, Vector.length_toList,
    Nat.zero_add, Nat.reduceAdd]
  constructor
  · rintro ⟨_, hlen, _, h0, _, rfl, _, h8, _, rfl, _, h9, _, rfl, _, h10, _, rfl, _, h60, _, ha,
      _, h62, _, hb, _, h64, _, hr, _, h66, _, hz, original, h12, payload, h20, hinfo⟩
    cases hinfo
    have hhash : slice inner 28 60 = (.ok ((inner.drop 28).take 32) : Run Bytes) :=
      slice_ok (by omega) (by simp at hlen; omega)
    exact ⟨arrOfList ((inner.drop 28).take 32) (by simp at hlen ⊢; omega), h0, h8, h9, h10,
      slice_u64.mp ⟨_, h12, rfl⟩, slice_u64.mp ⟨_, h20, rfl⟩, by rw [toList_arrOfList, hhash],
      (slice_beNat (n := 2) rfl (by decide)).mp ⟨_, h60, ha⟩, (slice_beNat (n := 2) rfl (by decide)).mp ⟨_, h62, hb⟩,
      (slice_beNat (n := 2) rfl (by decide)).mp ⟨_, h64, hr⟩, (slice_zeros (n := 10) rfl).mp ⟨_, h66, hz⟩⟩
  · rintro ⟨hash, h0, h8, h9, h10, h12, h20, -, h60, h62, h64, h66⟩
    have hlen := (slice_bounds h66).2.1
    exact ⟨(), by simpa using hlen, _, h0, (), rfl, _, h8, (), rfl, _, h9, (), rfl, _, h10, (), rfl,
      _, h60, (), by decide, _, h62, (), by decide, _, h64, (), by decide, _, h66, (), by decide,
      _, h12, _, h20, by rw [u64OfBytes_u64Bytes, u64OfBytes_u64Bytes]⟩

theorem innerHeader_hash {inner : Bytes} {originalLength payloadLength : UInt64} {hash : Hash}
    (h : slice inner 0 innerHeaderBytes =
      (.ok (innerHeader originalLength payloadLength hash) : Run Bytes)) :
    slice inner 28 60 = (.ok hash.toList : Run Bytes) := by
  have hm : innerMagic.length = 8 := by decide
  simp only [innerHeader, slice_append_iff, List.length_cons, List.length_nil, hm, length_beBytes,
    length_u64Bytes, Vector.length_toList, Nat.zero_add, Nat.reduceAdd] at h
  obtain ⟨-, -, -, -, -, -, h28, -⟩ := h
  exact h28

/-- `inner` is an inner plaintext with these lengths and this payload. -/
structure InnerOf (inner : Bytes) (info : InnerInfo) (payload : Bytes) : Prop where
  bytes : ∃ padding, inner = innerHeader info.originalLength info.payloadLength (E.sha256 payload) ++
    payload ++ padding
  payload_length : payload.length = info.payloadLength.toNat
  original_le : info.originalLength ≤ info.payloadLength
  fits : innerHeaderBytes + info.payloadLength.toNat < 2 ^ 64

variable {E} {inner : Bytes} {info : InnerInfo}

theorem InnerOf.length_le {payload : Bytes} (h : InnerOf E inner info payload) :
    innerHeaderBytes + info.payloadLength.toNat ≤ inner.length := by
  obtain ⟨padding, hbytes⟩ := h.bytes
  rw [hbytes, ← h.payload_length]
  simp

theorem InnerOf.inspectFields {payload : Bytes} (h : InnerOf E inner info payload) :
    inspectFields inner = .ok info := by
  obtain ⟨padding, hbytes⟩ := h.bytes
  rw [List.append_assoc] at hbytes
  exact inspectFields_eq_ok.mpr ⟨_, slice_zero_iff.mpr ⟨by simp, _, hbytes⟩⟩

/-- **What is accepted**: the payload slice of an accepted plaintext did not wrap around. -/
theorem inspectInner_eq_ok :
    inspectInner E inner = .ok info ↔ ∃ payload, InnerOf E inner info payload := by
  constructor
  · intro h
    simp only [inspectInner, bind_eq_ok, rejectIf_eq_ok, not_or, Nat.not_lt, UInt64.not_lt, not_not,
      ok.injEq] at h
    obtain ⟨fields, hfields, needed, -, _, ⟨-, hle⟩, payloadEnd, hend, payload, hpayload, stored,
      hstored, _, rfl, rfl⟩ := h
    have hlt := fields.payloadLength.toNat_lt
    obtain ⟨hge, -, hlen⟩ := slice_bounds hpayload
    have hfits : payloadEnd = 76 + fields.payloadLength.toNat ∧ payloadEnd < 2 ^ 64 := by
      rcases addW_cases hend with ⟨hlt, rfl⟩ | ⟨hov, rfl⟩
      · exact ⟨rfl, hlt⟩
      · simp only [innerHeaderBytes] at hge hov
        omega
    obtain ⟨hash, hheader⟩ := inspectFields_eq_ok.mp hfields
    obtain ⟨-, padding, hbytes⟩ := slice_zero_iff.mp (slice_append hheader hpayload)
    obtain rfl : hash = E.sha256 payload := by
      rw [innerHeader_hash hheader] at hstored
      exact Vector.toList_inj.mp (ok.inj hstored)
    refine ⟨payload, ⟨padding, hbytes⟩, ?_, hle, ?_⟩
    · simp only [innerHeaderBytes] at hlen
      omega
    · simp only [innerHeaderBytes]
      omega
  · rintro ⟨payload, h⟩
    obtain ⟨padding, hbytes⟩ := h.bytes
    rw [List.append_assoc] at hbytes
    have hlen : inner.length = 76 + (info.payloadLength.toNat + padding.length) := by
      simp [hbytes, h.payload_length]
    have hpayload : slice inner innerHeaderBytes (innerHeaderBytes + info.payloadLength.toNat) =
        (.ok payload : Run Bytes) := slice_mid hbytes (by simp) (by rw [h.payload_length])
    have hstored : slice inner 28 60 = (.ok (E.sha256 payload).toList : Run Bytes) :=
      innerHeader_hash (slice_zero_iff.mpr ⟨by simp, _, hbytes⟩)
    unfold inspectInner
    rw [h.inspectFields, ok_bind, Env.add_ok h.fits, ok_bind, rejectIf_false ?_, ok_bind,
      ok_bind, hpayload, ok_bind, hstored, ok_bind, rejectIf_false (by simp), ok_bind]
    simp only [innerHeaderBytes, not_or, Nat.not_lt, UInt64.not_lt]
    exact ⟨by omega, h.original_le⟩

theorem InnerOf.payload_slice {payload : Bytes} (h : InnerOf E inner info payload) :
    slice inner innerHeaderBytes (innerHeaderBytes + info.payloadLength.toNat) =
      (.ok payload : Run Bytes) := by
  obtain ⟨padding, hbytes⟩ := h.bytes
  exact slice_mid (by rw [hbytes, List.append_assoc]) (by simp) (by rw [h.payload_length])

theorem unpackInner_eq_ok {data : Bytes} : unpackInner E inner = .ok data ↔
    ∃ info payload, InnerOf E inner info payload ∧ data = payload.take info.originalLength.toNat := by
  simp only [unpackInner, bind_eq_ok, inspectInner_eq_ok]
  constructor
  · rintro ⟨info, ⟨payload, hin⟩, payloadEnd, hend, _, hpayload, hdata⟩
    rw [Env.add_ok hin.fits] at hend
    cases hend
    rw [hin.payload_slice] at hpayload
    cases hpayload
    obtain ⟨hlen, rest, rfl⟩ := slice_zero_iff.mp hdata
    exact ⟨info, _, hin, by rw [hlen]; simp⟩
  · rintro ⟨info, payload, hin, rfl⟩
    have hle : info.originalLength.toNat ≤ payload.length := by
      rw [hin.payload_length]
      exact UInt64.le_iff_toNat_le.mp hin.original_le
    refine ⟨info, ⟨payload, hin⟩, _, Env.add_ok hin.fits, payload, hin.payload_slice, ?_⟩
    rw [slice_ok (Nat.zero_le _) hle, List.drop_zero, Nat.sub_zero]

/-! ## Packing and unpacking -/

theorem length_packInner (data : Bytes) (padding : PaddingPolicy) (coins : Coins) :
    (packInner E data padding coins).length = 76 + data.length + randomPaddingLen padding coins := by
  simp [packInner, Nat.add_assoc]

/-- At most fifteen blocks of padding. -/
theorem randomPaddingLen_le (padding : PaddingPolicy) (coins : Coins) :
    randomPaddingLen padding coins ≤ 480 := by
  unfold randomPaddingLen
  split
  · exact Nat.zero_le _
  · next maxBlocks =>
    dsimp only
    split
    · exact Nat.zero_le _
    · have hle : (min maxBlocks 15).toNat ≤ 15 := by
        show (if maxBlocks ≤ 15 then maxBlocks else 15).toNat ≤ 15
        split
        · next h => exact UInt8.le_iff_toNat_le.mp h
        · exact le_rfl
      have hmod : coins.count.toNat % ((min maxBlocks 15).toNat + 1) < (min maxBlocks 15).toNat + 1 :=
        Nat.mod_lt _ (Nat.succ_pos _)
      have hadd : (min maxBlocks 15 + 1).toNat = (min maxBlocks 15).toNat + 1 := by
        rw [UInt8.toNat_add]
        exact Nat.mod_eq_of_lt (Nat.lt_of_le_of_lt (Nat.succ_le_succ hle) (by omega))
      rw [UInt8.toNat_mod, hadd]
      simp only [blockBytes]
      omega

theorem inspectFields_packInner (data : Bytes) (padding : PaddingPolicy) (coins : Coins) :
    inspectFields (packInner E data padding coins) =
      .ok ⟨.ofNat data.length, .ofNat data.length⟩ :=
  inspectFields_eq_ok.mpr ⟨_, slice_zero_iff.mpr ⟨by simp, _, List.append_assoc ..⟩⟩

/-- The inner plaintext determines the data. -/
theorem packInner_inj {data₁ data₂ : Bytes} {padding₁ padding₂ : PaddingPolicy}
    {coins₁ coins₂ : Coins} (h₁ : data₁.length < 2 ^ 64) (h₂ : data₂.length < 2 ^ 64)
    (h : packInner E data₁ padding₁ coins₁ = packInner E data₂ padding₂ coins₂) :
    data₁ = data₂ := by
  have hinfo := inspectFields_packInner (E := E) data₁ padding₁ coins₁
  rw [h, inspectFields_packInner, ok.injEq, InnerInfo.mk.injEq] at hinfo
  have hlen := congrArg UInt64.toNat hinfo.1
  rw [UInt64.toNat_ofNat', UInt64.toNat_ofNat', Nat.mod_eq_of_lt h₁, Nat.mod_eq_of_lt h₂] at hlen
  simp only [packInner, List.append_assoc] at h
  obtain ⟨-, hrest⟩ := List.append_inj h (by simp)
  exact (List.append_inj hrest hlen.symm).1

/-- What `pack_inner` writes is an inner plaintext with all the data as payload. -/
theorem innerOf_packInner {data : Bytes} (padding : PaddingPolicy) (coins : Coins)
    (h : 76 + data.length < 2 ^ 64) :
    InnerOf E (packInner E data padding coins) ⟨.ofNat data.length, .ofNat data.length⟩ data where
  bytes := ⟨_, rfl⟩
  payload_length := by rw [UInt64.toNat_ofNat', Nat.mod_eq_of_lt (by omega)]
  original_le := UInt64.le_refl _
  fits := by simp only [innerHeaderBytes, UInt64.toNat_ofNat']; omega

theorem unpackInner_packInner {data : Bytes} (padding : PaddingPolicy) (coins : Coins)
    (h : 76 + data.length < 2 ^ 64) : unpackInner E (packInner E data padding coins) = .ok data := by
  refine unpackInner_eq_ok.mpr ⟨_, _, innerOf_packInner padding coins h, ?_⟩
  rw [UInt64.toNat_ofNat', Nat.mod_eq_of_lt (by omega), List.take_length]

/-! ## Panics -/

theorem inspectFields_settles (inner : Bytes) : Settles (inspectFields inner) := by
  by_cases hlen : inner.length < innerHeaderBytes
  · unfold inspectFields
    rw [rejectIf_true hlen]
    exact settles_err _
  · simp only [innerHeaderBytes, Nat.not_lt] at hlen
    have hle (n : Nat) (hn : n ≤ 76) : n ≤ inner.length := hn.trans hlen
    simp [inspectFields, settles_bind_iff, slice_settles, hle]

/-- A well-formed inner header whose payload would end past 64 bits. -/
def InnerOverflows (inner : Bytes) : Prop :=
  ∃ info, inspectFields inner = .ok info ∧ 2 ^ 64 ≤ innerHeaderBytes + info.payloadLength.toNat

theorem innerHeader_overflows {originalLength payloadLength : UInt64} (hash : Hash)
    (h : 2 ^ 64 ≤ innerHeaderBytes + payloadLength.toNat) :
    InnerOverflows (innerHeader originalLength payloadLength hash) :=
  ⟨⟨originalLength, payloadLength⟩, inspectFields_eq_ok.mpr ⟨hash, slice_zero_iff.mpr
    ⟨(length_innerHeader _ _ _).symm, [], (List.append_nil _).symm⟩⟩, h⟩

theorem inspectInner_settles (h : ¬ InnerOverflows inner) : Settles (inspectInner E inner) := by
  refine settles_bind (inspectFields_settles inner) fun info hf => ?_
  have hfits : innerHeaderBytes + info.payloadLength.toNat < 2 ^ 64 := by
    by_contra hge
    exact h ⟨info, hf, Nat.not_lt.mp hge⟩
  obtain ⟨hash, hheader⟩ := inspectFields_eq_ok.mp hf
  have hlen := (slice_bounds hheader).2.1
  simp only [innerHeaderBytes] at hlen
  rw [Env.add_ok hfits, ok_bind]
  refine settles_bind rejectIf_settles fun _ hcheck => ?_
  simp only [rejectIf_eq_ok, not_or, Nat.not_lt] at hcheck
  rw [ok_bind, slice_ok (by omega) hcheck.1, ok_bind, slice_ok (by omega) (by omega), ok_bind]
  exact settles_bind rejectIf_settles fun _ _ => settles_ok _

theorem inspectInner_panic (hE : E.overflowChecks = true) (h : InnerOverflows inner) :
    inspectInner E inner = .panic := by
  obtain ⟨info, hf, hge⟩ := h
  unfold inspectInner
  rw [hf, ok_bind, Env.add, hE, addW_checked_panic hge, panic_bind]

theorem unpackInner_settles (h : ¬ InnerOverflows inner) : Settles (unpackInner E inner) := by
  refine settles_bind (inspectInner_settles h) fun info hi => ?_
  obtain ⟨payload, hin⟩ := inspectInner_eq_ok.mp hi
  have hle : info.originalLength.toNat ≤ payload.length := by
    rw [hin.payload_length]
    exact UInt64.le_iff_toNat_le.mp hin.original_le
  rw [Env.add_ok hin.fits, ok_bind, hin.payload_slice, ok_bind]
  exact slice_settles (Nat.zero_le _) hle

end Krcm
