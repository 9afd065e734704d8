import Krcm.Kdf
import Krcm.V5.Inner
import Krcm.V5.Segments

/-!
# The v5 container

`encrypt_v5` and `decrypt_v5`. A `Frame` is the five variable parts of a
container and `Frame.bytes` writes them; `parseContainer` is `decrypt_v5` up to
the key derivation, and succeeds exactly on written frames
(`parseContainer_eq_ok`).
-/

namespace Krcm

open Base Outcome

@[simp] abbrev outerPrefixBytes : Nat := 13
@[simp] abbrev syntheticIvBytes : Nat := 32

structure Frame where
  publicHeader : Arr headerV5Size
  syntheticIv : Hash
  segmentTable : Bytes
  ciphertext : Bytes
  tag : Bytes

/-- The container, as `encrypt_v5` writes it. -/
def Frame.bytes (frame : Frame) : Bytes :=
  magicV5 ++ ([5] ++ (beBytes 4 headerV5Size ++ (frame.publicHeader.toList ++
    (frame.syntheticIv.toList ++ (beBytes 8 frame.segmentTable.length ++ (frame.segmentTable ++
      (beBytes 8 frame.ciphertext.length ++ (frame.ciphertext ++ frame.tag))))))))

section model

variable (E : Env)

/-! ## Derived values -/

/-- The message under `synthetic_iv`. -/
def sivMessage (publicHeader inner : Bytes) : Bytes :=
  ascii "KRCM-v5-SIV" ++ beBytes 8 publicHeader.length ++ publicHeader ++ beBytes 8 inner.length ++
    inner

def syntheticIv (keys : V5Keys) (publicHeader inner : Bytes) : Hash :=
  E.hmacSha256 keys.sivKey.key.toList (sivMessage publicHeader inner)

def effectiveNonce (keys : V5Keys) (publicNonce : Nonce) (syntheticIv : Hash) : Nonce :=
  let digest := E.hmacSha256 keys.blockKey.key.toList
    (ascii "KRCM-v5-effective-nonce" ++ publicNonce.toList ++ syntheticIv.toList)
  arrOfList (digest.toList.take 16) (by simp)

def appendField (out field : Bytes) : Bytes := out ++ beBytes 8 field.length ++ field

/-- The message under `tag_v5`. -/
def transcript (publicHeader : Bytes) (syntheticIv : Hash) (segmentTable ciphertext : Bytes) :
    Bytes :=
  appendField (appendField (appendField (appendField (appendField [] (ascii "KRCM-v5-TAG"))
    publicHeader) syntheticIv.toList) segmentTable) ciphertext

def tagV5 (keys : V5Keys) (publicHeader : Bytes) (syntheticIv : Hash)
    (segmentTable ciphertext : Bytes) : Hash :=
  E.hmacSha256 keys.authKey.key.toList (transcript publicHeader syntheticIv segmentTable ciphertext)

/-! ## Encryption -/

/-- What `encrypt_v5` holds when it writes the container. -/
structure SealedV5 where
  keys : V5Keys
  publicNonce : Nonce
  inner : Bytes
  frame : Frame

def sealV5 (data password : Bytes) (opts : EncryptV5Options) (coins : Coins) : Run SealedV5 := do
  let salt := opts.salt.getD coins.salt
  let publicNonce := opts.publicNonce.getD coins.publicNonce
  let publicHeader ← packPublicHeader E opts salt publicNonce
  let root ← deriveRootKey E password salt.toList opts.kdf
  let keys := V5Keys.derive E root
  let inner := packInner E data opts.paddingPolicy coins
  let siv := syntheticIv E keys publicHeader.toList inner
  let _effectiveNonce := effectiveNonce E keys publicNonce siv
  let (segmentTable, ciphertext) ← encryptSegments E keys publicNonce siv inner opts.segmentSize
    opts.workers coins.order
  let tag := tagV5 E keys publicHeader.toList siv segmentTable ciphertext
  .ok ⟨keys, publicNonce, inner, publicHeader, siv, segmentTable, ciphertext, tag.toList⟩

def encryptV5 (data password : Bytes) (opts : EncryptV5Options) (coins : Coins) : Run Bytes := do
  let sealed ← sealV5 E data password opts coins
  .ok sealed.frame.bytes

/-! ## Decryption -/

def readFixed32 (container : Bytes) (offset : Nat) : Run (Hash × Nat) := do
  let limit ← E.add offset 32
  rejectIf (limit > container.length) .format
  let source ← slice container offset limit
  let out ← copyFromSlice 32 source
  let offset ← E.add offset 32
  .ok (out, offset)

def readU64At (container : Bytes) (offset : Nat) : Run (Nat × Nat) := do
  let limit ← E.add offset 8
  rejectIf (limit > container.length) .format
  let value ← slice container offset limit
  let offset ← E.add offset 8
  .ok (beNat value, offset)

/-- `decrypt_v5` up to the length of the segment table: the public header, read and parsed, the
synthetic IV, the length, and the offset behind it. -/
def parseFront (container : Bytes) :
    Run (Arr headerV5Size × ParsedHeader × Hash × Nat × Nat) := do
  rejectIf (container.length < outerPrefixBytes + headerV5Size + syntheticIvBytes + tagBytes) .format
  let magic ← slice container 0 8
  rejectIf (magic ≠ magicV5) .format
  let version ← slice container 8 9
  rejectIf (version ≠ [5]) .format
  let publicHeaderLen ← slice container 9 13
  rejectIf (beNat publicHeaderLen ≠ headerV5Size) .format
  let publicHeader ← sliceVec container 13 headerV5Size
  let parsed ← parsePublicHeader publicHeader.toList
  let (storedSyntheticIv, offset) ← readFixed32 E container (13 + headerV5Size)
  let (segmentTableLen, offset) ← readU64At E container offset
  .ok (publicHeader, parsed, storedSyntheticIv, segmentTableLen, offset)

/-- `decrypt_v5` from the length of the segment table to the tag: the table, the ciphertext and
the tag. -/
def parseBody (container : Bytes) (segmentTableLen offset : Nat) : Run (Bytes × Bytes × Bytes) := do
  rejectIf (segmentTableLen % segmentEntryBytes ≠ 0) .format
  let tableEnd ← E.add offset segmentTableLen
  rejectIf (tableEnd > container.length) .format
  let segmentTable ← slice container offset tableEnd
  let offset ← E.add offset segmentTableLen
  let (ciphertextLen, offset) ← readU64At E container offset
  let ciphertextEnd ← E.add offset ciphertextLen
  let containerEnd ← E.add ciphertextEnd tagBytes
  rejectIf (containerEnd ≠ container.length) .format
  let ciphertext ← slice container offset ciphertextEnd
  let offset ← E.add offset ciphertextLen
  let tag ← slice container offset container.length
  .ok (segmentTable, ciphertext, tag)

/-- `decrypt_v5` up to the derivation of the root key. -/
def parseContainer (container : Bytes) : Run (Frame × ParsedHeader) := do
  let (publicHeader, parsed, storedSyntheticIv, segmentTableLen, offset) ← parseFront E container
  let (segmentTable, ciphertext, tag) ← parseBody E container segmentTableLen offset
  .ok (⟨publicHeader, storedSyntheticIv, segmentTable, ciphertext, tag⟩, parsed)

/-- `decrypt_v5` from the tag comparison on, given the keys. -/
def openFrame (keys : V5Keys) (publicNonce : Nonce) (frame : Frame) : Run Bytes := do
  let expected := tagV5 E keys frame.publicHeader.toList frame.syntheticIv frame.segmentTable
    frame.ciphertext
  rejectIf (frame.tag ≠ expected.toList) .authentication
  let entries ← parseSegmentTable frame.segmentTable (.ofNat frame.ciphertext.length)
  let _effectiveNonce := effectiveNonce E keys publicNonce frame.syntheticIv
  let inner ← decryptSegments E keys publicNonce frame.syntheticIv frame.ciphertext entries
  let recomputed := syntheticIv E keys frame.publicHeader.toList inner
  rejectIf (frame.syntheticIv ≠ recomputed) .authentication
  let info ← inspectInner E inner
  let segmentPlainSum ← entries.foldlM (fun sum entry => E.addU64 sum entry.plainLength) 0
  rejectIf (segmentPlainSum ≠ .ofNat inner.length ∨ info.payloadLength > .ofNat inner.length) .format
  unpackInner E inner

def decryptV5 (container password : Bytes) : Run Bytes := do
  let (frame, parsed) ← parseContainer E container
  let root ← deriveRootKey E password parsed.salt.toList parsed.kdf
  openFrame E (V5Keys.derive E root) parsed.publicNonce frame

end model

/-! ## Framing -/

variable {E : Env}

theorem readFixed32_eq_ok {container : Bytes} {a b : Nat} {v : Hash} :
    readFixed32 E container a = .ok (v, b) ↔
      b = a + 32 ∧ a + 32 < 2 ^ 64 ∧ slice container a (a + 32) = (.ok v.toList : Run Bytes) := by
  simp only [readFixed32, bind_eq_ok, copyFromSlice_eq_ok, ok.injEq, Prod.mk.injEq]
  constructor
  · intro h
    obtain ⟨limit, hadd, -, -, source, hs, out, hout, offset, hoff, hv, hb⟩ := h
    obtain ⟨rfl, hlt⟩ := Env.add_slice (by omega) hadd hs
    rw [Env.add_ok hlt] at hoff
    cases hoff
    exact ⟨hb.symm, hlt, by rw [hs, hout, hv]⟩
  · intro h
    obtain ⟨hb, hlt, hs⟩ := h
    have hbound := (slice_bounds hs).2.1
    exact ⟨_, Env.add_ok hlt, (), by simpa using hbound, _, hs, v, rfl, _, Env.add_ok hlt, rfl, hb.symm⟩

theorem readU64At_eq_ok {container : Bytes} {a b x : Nat} :
    readU64At E container a = .ok (x, b) ↔
      b = a + 8 ∧ a + 8 < 2 ^ 64 ∧ x < 2 ^ 64 ∧
        slice container a (a + 8) = (.ok (beBytes 8 x) : Run Bytes) := by
  simp only [readU64At, bind_eq_ok, ok.injEq, Prod.mk.injEq]
  constructor
  · intro h
    obtain ⟨limit, hadd, -, -, value, hs, offset, hoff, hv, hb⟩ := h
    obtain ⟨rfl, hlt⟩ := Env.add_slice (by omega) hadd hs
    rw [Env.add_ok hlt] at hoff
    cases hoff
    have hlen := (slice_bounds hs).2.2
    have hx := beNat_lt value
    rw [show value.length = 8 by omega] at hx
    exact ⟨hb.symm, hlt, by omega, (slice_beNat rfl (by omega)).mp ⟨_, hs, hv⟩⟩
  · intro h
    obtain ⟨hb, hlt, hx, hs⟩ := h
    have hbound := (slice_bounds hs).2.1
    exact ⟨_, Env.add_ok hlt, (), by simpa using hbound, _, hs, _, Env.add_ok hlt,
      by rw [beNat_beBytes, Nat.mod_eq_of_lt (by omega)], hb.symm⟩

theorem length_frame (frame : Frame) : frame.bytes.length =
    125 + frame.segmentTable.length + frame.ciphertext.length + frame.tag.length := by
  simp only [Frame.bytes, List.length_append, length_magicV5, List.length_cons, List.length_nil, length_beBytes,
    Vector.length_toList, headerV5Size]
  omega

/-- The bytes in front of the segment table. -/
def frontBytes (publicHeader : Arr headerV5Size) (siv : Hash) (tableLen : Nat) : Bytes :=
  magicV5 ++ ([5] ++ (beBytes 4 headerV5Size ++ (publicHeader.toList ++
    (siv.toList ++ beBytes 8 tableLen))))

/-- A container that `decrypt_v5` reads up to the length of its segment table. -/
structure Fronted (container : Bytes) (publicHeader : Arr headerV5Size) (parsed : ParsedHeader)
    (siv : Hash) (tableLen : Nat) : Prop where
  long : 141 ≤ container.length
  front : ∃ rest, container = frontBytes publicHeader siv tableLen ++ rest
  header : parsePublicHeader publicHeader.toList = .ok parsed
  fits : tableLen < 2 ^ 64

theorem length_frontBytes (publicHeader : Arr headerV5Size) (siv : Hash) (tableLen : Nat) :
    (frontBytes publicHeader siv tableLen).length = 117 := by
  simp [frontBytes]

theorem Fronted.slice {container : Bytes} {publicHeader : Arr headerV5Size} {parsed : ParsedHeader}
    {siv : Hash} {tableLen : Nat} (h : Fronted container publicHeader parsed siv tableLen) :
    slice container 0 117 = (.ok (frontBytes publicHeader siv tableLen) : Run Bytes) :=
  slice_zero_iff.mpr ⟨(length_frontBytes _ _ _).symm, h.front⟩

/-- Each field in front of the table is found at its place. -/
theorem slice_front {container : Bytes} {publicHeader : Arr headerV5Size} {siv : Hash}
    {tableLen : Nat} :
    slice container 0 117 = (.ok (frontBytes publicHeader siv tableLen) : Run Bytes) ↔
      slice container 0 8 = (.ok magicV5 : Run Bytes) ∧
        slice container 8 9 = (.ok [5] : Run Bytes) ∧
        slice container 9 13 = (.ok (beBytes 4 headerV5Size) : Run Bytes) ∧
        slice container 13 77 = (.ok publicHeader.toList : Run Bytes) ∧
        slice container 77 109 = (.ok siv.toList : Run Bytes) ∧
        slice container 109 117 = (.ok (beBytes 8 tableLen) : Run Bytes) := by
  simp only [frontBytes, slice_append_iff, List.length_cons, List.length_nil, length_magicV5, length_beBytes,
    Vector.length_toList, Nat.zero_add, Nat.reduceAdd, headerV5Size]

theorem parseFront_eq_ok {container : Bytes} {publicHeader : Arr headerV5Size}
    {parsed : ParsedHeader} {siv : Hash} {tableLen offset : Nat} :
    parseFront E container = .ok (publicHeader, parsed, siv, tableLen, offset) ↔
      offset = 117 ∧ Fronted container publicHeader parsed siv tableLen := by
  constructor
  · intro h
    simp only [parseFront, bind_eq_ok, rejectIf_eq_ok, not_not] at h
    obtain ⟨_, hmin, _, h0, _, rfl, _, h8, _, rfl, _, h9, _, hlen, header, h13, parsed', hp,
      ⟨siv, o1⟩, hsiv, ⟨tl, o2⟩, htl, h⟩ := h
    cases h
    obtain ⟨rfl, -, hsiv⟩ := readFixed32_eq_ok.mp hsiv
    obtain ⟨rfl, -, htl64, htl⟩ := readU64At_eq_ok.mp htl
    have hfront : slice container 0 117 = (.ok (frontBytes publicHeader siv tl) : Run Bytes) :=
      slice_front.mpr ⟨h0, h8, (slice_beNat (n := 4) rfl (by decide)).mp ⟨_, h9, hlen⟩,
        sliceVec_eq_ok.mp h13, hsiv, htl⟩
    exact ⟨rfl, by simpa using hmin, (slice_zero_iff.mp hfront).2, hp, htl64⟩
  · rintro ⟨ho, hf⟩
    subst ho
    obtain ⟨h0, h8, h9, h13, hsiv, htl⟩ := slice_front.mp hf.slice
    simp only [parseFront, bind_eq_ok, rejectIf_eq_ok, not_not]
    exact ⟨(), by simpa using hf.long, _, h0, (), rfl, _, h8, (), rfl, _, h9, (), by decide,
      publicHeader, sliceVec_eq_ok.mpr h13, parsed, hf.header, (siv, 109),
      readFixed32_eq_ok.mpr ⟨rfl, by decide, hsiv⟩, (tableLen, 117),
      readU64At_eq_ok.mpr ⟨rfl, by dsimp only; decide, hf.fits, htl⟩, rfl⟩

/-- Behind the length of the table: the table, the length of the ciphertext, the ciphertext and
32 bytes of tag, and nothing else. -/
theorem parseBody_eq_ok {container : Bytes} {publicHeader : Arr headerV5Size}
    {parsed : ParsedHeader} {siv : Hash} {tableLen : Nat} {table ciphertext tag : Bytes}
    (hf : Fronted container publicHeader parsed siv tableLen) :
    parseBody E container tableLen 117 = .ok (table, ciphertext, tag) ↔
      container = frontBytes publicHeader siv tableLen ++
        (table ++ (beBytes 8 ciphertext.length ++ (ciphertext ++ tag))) ∧
        container.length < 2 ^ 64 ∧ table.length = tableLen ∧ tableLen % 40 = 0 ∧
        tag.length = 32 := by
  have hlong := hf.long
  have hlen := length_frontBytes publicHeader siv tableLen
  constructor
  · intro h
    simp only [parseBody, bind_eq_ok, rejectIf_eq_ok, not_not] at h
    obtain ⟨_, htl40, tableEnd, htab, _, _, table', htable, o3, ho3, ⟨cl, o4⟩, hcl, ctEnd, hct, cEnd,
      hend, _, rfl, ciphertext', hciphertext, o5, ho5, tag', htag, h⟩ := h
    cases h
    obtain ⟨rfl, htab'⟩ := Env.add_slice hf.fits htab htable
    rw [Env.add_ok htab'] at ho3
    cases ho3
    obtain ⟨rfl, -, hcl64, hcl⟩ := readU64At_eq_ok.mp hcl
    obtain ⟨rfl, hct'⟩ := Env.add_slice hcl64 hct hciphertext
    rw [Env.add_ok hct'] at ho5
    cases ho5
    dsimp only at hcl hciphertext htag hend hct'
    -- The total did not wrap: a wrapped total is shorter than the front.
    have htotal : container.length = 117 + tableLen + 8 + cl + 32 ∧ container.length < 2 ^ 64 := by
      rcases addW_cases hend with ⟨hlt, heq⟩ | ⟨hge, heq⟩
      · simp only [tagBytes] at hlt heq
        omega
      · simp only [tagBytes] at hge heq
        omega
    have htable' := (slice_bounds htable).2.2
    have hciphertext' := (slice_bounds hciphertext).2.2
    have htag' := (slice_bounds htag).2.2
    obtain rfl : cl = ciphertext.length := by omega
    have hslice : slice container 0 container.length =
        (.ok (frontBytes publicHeader siv tableLen ++
          (table ++ (beBytes 8 ciphertext.length ++ (ciphertext ++ tag)))) : Run Bytes) :=
      slice_append hf.slice (slice_append htable (slice_append hcl (slice_append hciphertext htag)))
    exact ⟨(slice_all hslice rfl).symm, htotal.2, by omega, htl40, by omega⟩
  · rintro ⟨hc, hlt, htl, h40, htag⟩
    have hslice : slice container 0 container.length =
        (.ok (frontBytes publicHeader siv tableLen ++
          (table ++ (beBytes 8 ciphertext.length ++ (ciphertext ++ tag)))) : Run Bytes) :=
      slice_zero_iff.mpr ⟨by rw [← hc], [], by rw [List.append_nil, ← hc]⟩
    simp only [slice_append_iff, length_beBytes, hlen, htl] at hslice
    obtain ⟨-, htable, hcl, hciphertext, htag'⟩ := hslice
    have htotal := (slice_bounds htag').2.2
    have hle := (slice_bounds hciphertext).2.1
    simp only [Nat.zero_add] at htable hcl hciphertext htag' htotal hle
    simp only [parseBody, bind_eq_ok, rejectIf_eq_ok, not_not]
    refine ⟨(), h40, _, Env.add_ok (by omega), (), by omega, _, htable, _, Env.add_ok (by omega),
      (ciphertext.length, _), readU64At_eq_ok.mpr ⟨rfl, by omega, by omega, hcl⟩, _,
      Env.add_ok (by omega), _, Env.add_ok (by simp only [tagBytes]; omega), (),
      by simp only [tagBytes]; omega, _, hciphertext, _, Env.add_ok (by omega), _, htag', rfl⟩

/-- **What the framing accepts**: written frames with a header that parses, a table of whole
entries and a tag of 32 bytes. No byte of the container lies outside the frame. -/
theorem parseContainer_eq_ok {container : Bytes} {frame : Frame} {parsed : ParsedHeader} :
    parseContainer E container = .ok (frame, parsed) ↔
      container = frame.bytes ∧ container.length < 2 ^ 64 ∧
        parsePublicHeader frame.publicHeader.toList = .ok parsed ∧
        frame.segmentTable.length % 40 = 0 ∧ frame.tag.length = 32 := by
  have hbytes : frame.bytes = frontBytes frame.publicHeader frame.syntheticIv
      frame.segmentTable.length ++ (frame.segmentTable ++ (beBytes 8 frame.ciphertext.length ++
        (frame.ciphertext ++ frame.tag))) := by
    simp [Frame.bytes, frontBytes]
  simp only [parseContainer, bind_eq_ok, Prod.exists, parseFront_eq_ok]
  constructor
  · rintro ⟨header, parsed', siv, tl, _, ⟨ho, hf⟩, table, ciphertext, tag, hb, h⟩
    subst ho
    cases h
    obtain ⟨hc, hlt, rfl, h40, htag⟩ := (parseBody_eq_ok hf).mp hb
    exact ⟨hc.trans hbytes.symm, hlt, hf.header, h40, htag⟩
  · rintro ⟨hc, hlt, hp, ht, htag⟩
    have hlong : 141 ≤ container.length := by
      rw [hc, length_frame]
      omega
    have hfits : frame.segmentTable.length < 2 ^ 64 := by
      rw [hc, length_frame] at hlt
      omega
    rw [hbytes] at hc
    have hf : Fronted container frame.publicHeader parsed frame.syntheticIv
        frame.segmentTable.length := ⟨hlong, ⟨_, hc⟩, hp, hfits⟩
    exact ⟨_, parsed, _, _, 117, ⟨rfl, hf⟩, _, _, _,
      (parseBody_eq_ok hf).mpr ⟨hc, hlt, rfl, ht, htag⟩, rfl⟩

end Krcm
