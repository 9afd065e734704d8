import Krcm.V5.Container

/-!
# What decryption accepts

`Holds` states what is inside a frame that opens: sealed segments behind a
canonical table, a synthetic IV computed from the joined plaintext, and the
tag. `decryptV5_eq_ok` is the exact acceptance of `decrypt_v5`; it is read from
left to right for what an accepted container must be, and from right to left
for the round trip.
-/

namespace Krcm

open Base Outcome

/-- The content of a frame that opens under these keys. -/
structure Holds (E : Env) (keys : V5Keys) (publicNonce : Nonce) (frame : Frame)
    (segments : List Segment) : Prop where
  nonempty : segments ≠ []
  sealed : Sealed E keys publicNonce frame.syntheticIv 0 segments
  table : frame.segmentTable = serializeSegmentTable (runningEntries 0 0 0 (lengthsOf segments))
  ciphertext : frame.ciphertext = ciphertextOf segments
  siv : frame.syntheticIv = syntheticIv E keys frame.publicHeader.toList (plainOf segments)
  tag : frame.tag = (tagV5 E keys frame.publicHeader.toList frame.syntheticIv frame.segmentTable
    frame.ciphertext).toList

variable {E : Env} {keys : V5Keys} {publicNonce : Nonce} {frame : Frame}

/-- Sealing makes every segment longer. -/
theorem Sealed.plain_le {siv : Hash} {ordinal : Nat} {segments : List Segment}
    (h : Sealed E keys publicNonce siv ordinal segments) :
    (plainOf segments).length ≤ (ciphertextOf segments).length := by
  induction segments generalizing ordinal with
  | nil => exact le_rfl
  | cons segment segments ih =>
    have hlen := h.length_ciphertext segment List.mem_cons_self
    have := ih h.2
    rw [plainOf_cons, ciphertextOf_cons, List.length_append, List.length_append]
    omega

/-- The sum of the plaintext lengths of a canonical table. -/
theorem sum_runningEntries {lengths : List SegmentLengths} {ordinal : Nat} {p c : UInt64}
    (ha : Admissible p c lengths) :
    (runningEntries ordinal p c lengths).foldlM (fun sum entry => E.addU64 sum entry.plainLength) p =
      .ok (.ofNat (p.toNat + plainTotal lengths)) := by
  induction lengths generalizing ordinal p c with
  | nil => simp [runningEntries, plainTotal]
  | cons l lengths ih =>
    obtain ⟨-, hpf, -, ha'⟩ := admissible_cons.mp ha
    unfold runningEntries
    rw [List.foldlM_cons, Env.addU64_ok hpf, ok_bind, ih ha', toNat_add_of_fits hpf,
      plainTotal_cons, Nat.add_assoc]

namespace Holds

variable {segments : List Segment}

theorem plain_fits (h : Holds E keys publicNonce frame segments)
    (hlen : frame.ciphertext.length < 2 ^ 64) : (plainOf segments).length < 2 ^ 64 :=
  h.sealed.plain_le.trans_lt (h.ciphertext ▸ hlen)

theorem admissible (h : Holds E keys publicNonce frame segments)
    (hlen : frame.ciphertext.length < 2 ^ 64) : Admissible 0 0 (lengthsOf segments) :=
  h.sealed.admissible (h.plain_fits hlen) (h.ciphertext ▸ hlen)

theorem total (h : Holds E keys publicNonce frame segments)
    (hlen : frame.ciphertext.length < 2 ^ 64) :
    frame.ciphertext.length = ciphertextTotal (lengthsOf segments) := by
  rw [ciphertextTotal_lengthsOf (h.ciphertext ▸ hlen), h.ciphertext]

theorem parseSegmentTable (h : Holds E keys publicNonce frame segments)
    (hlen : frame.ciphertext.length < 2 ^ 64) :
    parseSegmentTable frame.segmentTable (.ofNat frame.ciphertext.length) =
      .ok (runningEntries 0 0 0 (lengthsOf segments)) := by
  refine parseSegmentTable_eq_ok.mpr ⟨_, by simpa [lengthsOf] using h.nonempty, rfl, h.table,
    h.admissible hlen, ?_⟩
  rw [← h.total hlen, UInt64.toNat_ofNat', Nat.mod_eq_of_lt hlen]

theorem decryptSegments (h : Holds E keys publicNonce frame segments)
    (hlen : frame.ciphertext.length < 2 ^ 64) :
    decryptSegments E keys publicNonce frame.syntheticIv frame.ciphertext
      (runningEntries 0 0 0 (lengthsOf segments)) = .ok (plainOf segments) :=
  (decryptSegments_eq_ok (h.admissible hlen) (h.total hlen)).mpr
    ⟨segments, h.sealed, rfl, h.ciphertext, rfl⟩

theorem parseContainer {parsed : ParsedHeader} (h : Holds E keys publicNonce frame segments)
    (hp : parsePublicHeader frame.publicHeader.toList = .ok parsed)
    (hlen : frame.bytes.length < 2 ^ 64) :
    parseContainer E frame.bytes = .ok (frame, parsed) := by
  refine parseContainer_eq_ok.mpr ⟨rfl, hlen, hp, ?_, by rw [h.tag, Vector.length_toList]⟩
  rw [h.table, length_serialize]
  omega

end Holds

theorem openFrame_eq_ok {data : Bytes} (hlen : frame.ciphertext.length < 2 ^ 64) :
    openFrame E keys publicNonce frame = .ok data ↔
      ∃ segments, Holds E keys publicNonce frame segments ∧
        unpackInner E (plainOf segments) = .ok data := by
  constructor
  · intro h
    simp only [openFrame, bind_eq_ok, rejectIf_eq_ok, not_not] at h
    obtain ⟨_, htag, entries, hparse, inner, hdec, _, hsiv, info, -, sum, -, _, -, hu⟩ := h
    obtain ⟨lengths, hne, rfl, htable, ha, htotal⟩ := parseSegmentTable_eq_ok.mp hparse
    rw [UInt64.toNat_ofNat', Nat.mod_eq_of_lt hlen] at htotal
    obtain ⟨segments, hs, rfl, hct, rfl⟩ := (decryptSegments_eq_ok ha htotal.symm).mp hdec
    refine ⟨segments, ⟨?_, hs, htable, hct, hsiv, htag⟩, hu⟩
    rintro rfl
    exact hne rfl
  · rintro ⟨segments, hh, hu⟩
    obtain ⟨info, payload, hin, -⟩ := unpackInner_eq_ok.mp hu
    simp only [openFrame, bind_eq_ok, rejectIf_eq_ok, not_not]
    refine ⟨(), hh.tag, _, hh.parseSegmentTable hlen, _, hh.decryptSegments hlen, (), hh.siv, info,
      inspectInner_eq_ok.mpr ⟨payload, hin⟩, _, sum_runningEntries (hh.admissible hlen), (), ?_, hu⟩
    -- The sum is the length of the plaintext, and the payload lies inside it.
    have hle := hin.length_le
    have hplain := hh.plain_fits hlen
    rw [UInt64.toNat_zero, Nat.zero_add, plainTotal_lengthsOf hplain]
    refine not_or.mpr ⟨not_not.mpr rfl, UInt64.not_lt.mpr (UInt64.le_iff_toNat_le.mpr ?_)⟩
    rw [UInt64.toNat_ofNat', Nat.mod_eq_of_lt hplain]
    exact (Nat.le_add_left _ _).trans hle

theorem ciphertext_lt (frame : Frame) (h : frame.bytes.length < 2 ^ 64) :
    frame.ciphertext.length < 2 ^ 64 := by
  rw [length_frame] at h
  omega

/-- **What `decrypt_v5` accepts.** -/
theorem decryptV5_eq_ok {container password data : Bytes} :
    decryptV5 E container password = .ok data ↔
      ∃ frame parsed root segments, container = frame.bytes ∧ container.length < 2 ^ 64 ∧
        parsePublicHeader frame.publicHeader.toList = .ok parsed ∧
        deriveRootKey E password parsed.salt.toList parsed.kdf = .ok root ∧
        Holds E (V5Keys.derive E root) parsed.publicNonce frame segments ∧
        unpackInner E (plainOf segments) = .ok data := by
  simp only [decryptV5, bind_eq_ok, Prod.exists]
  constructor
  · rintro ⟨frame, parsed, hparse, root, hr, hopen⟩
    obtain ⟨hc, hlt, hp, -, -⟩ := parseContainer_eq_ok.mp hparse
    obtain ⟨segments, hh, hu⟩ := (openFrame_eq_ok (ciphertext_lt frame (hc ▸ hlt))).mp hopen
    exact ⟨frame, parsed, root, segments, hc, hlt, hp, hr, hh, hu⟩
  · rintro ⟨frame, parsed, root, segments, hc, hlt, hp, hr, hh, hu⟩
    subst hc
    exact ⟨frame, parsed, hh.parseContainer hp hlt, root, hr,
      (openFrame_eq_ok (ciphertext_lt frame hlt)).mpr ⟨segments, hh, hu⟩⟩

end Krcm
