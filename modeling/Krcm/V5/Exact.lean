import Krcm.V5.Canonical

/-!
# The v5 containers

Two levels of the format, each way. `HeaderFields.bytes` are the public
headers: what `parse_public_header` makes of one, and of what is none, is
`parsePublicHeader_exact`. A `DraftV5` is all that a container leaves free: its
header and the pieces of its inner plaintext. Every container that opens is
written from a draft (`exists_draftV5`), and from one (`DraftV5.unique`).
-/

namespace Krcm

open Base Outcome

/-! ## Public headers -/

/-- What a public header leaves free, of the bytes `parse_public_header` checks first. -/
structure HeaderFields where
  kdfId : UInt8
  kdfFields : Arr 13
  segmentSizeLog2 : UInt8
  padPolicy : UInt8
  salt : Salt
  publicNonce : Nonce

def HeaderFields.bytes (f : HeaderFields) : Bytes :=
  magicV5 ++ ([5] ++ ([1] ++ ([f.kdfId] ++ ([0] ++ (f.kdfFields.toList ++ ([f.segmentSizeLog2] ++
    ([f.padPolicy] ++ (List.replicate 5 0 ++ (f.salt.toList ++ f.publicNonce.toList)))))))))

/-- The parameters under each `kdf_id`, and the bytes that it does not read. -/
inductive KdfFields : KdfParams → UInt8 → Bytes → Prop where
  | pbkdf2 (iterations : UInt32) (unread : Arr 9) :
    KdfFields (.pbkdf2 iterations) 1 (u32Bytes iterations ++ unread.toList)
  | scrypt (unread : Arr 4) (nLog2 : UInt8) (r p : UInt32) :
    KdfFields (.scrypt nLog2 r p) 2 (unread.toList ++ ([nLog2] ++ (u32Bytes r ++ u32Bytes p)))

theorem KdfFields.known {params : KdfParams} {kdfId : UInt8} {l : Bytes}
    (h : KdfFields params kdfId l) : kdfId = 1 ∨ kdfId = 2 := by
  cases h with
  | pbkdf2 iterations unread => exact .inl rfl
  | scrypt unread nLog2 r p => exact .inr rfl

variable {header : Bytes}

theorem HeaderFields.slices {f : HeaderFields} : slice header 0 64 = (.ok f.bytes : Run Bytes) ↔
    slice header 0 8 = (.ok magicV5 : Run Bytes) ∧ index header 8 = (.ok 5 : Run UInt8) ∧
      index header 9 = (.ok 1 : Run UInt8) ∧ index header 10 = (.ok f.kdfId : Run UInt8) ∧
      index header 11 = (.ok 0 : Run UInt8) ∧
      slice header 12 25 = (.ok f.kdfFields.toList : Run Bytes) ∧
      index header 25 = (.ok f.segmentSizeLog2 : Run UInt8) ∧
      index header 26 = (.ok f.padPolicy : Run UInt8) ∧
      slice header 27 32 = (.ok (List.replicate 5 0) : Run Bytes) ∧
      sliceVec header 32 16 = (.ok f.salt : Run Salt) ∧
      sliceVec header 48 16 = (.ok f.publicNonce : Run Nonce) := by
  simp only [HeaderFields.bytes, slice_append_iff, index_eq_ok, sliceVec_eq_ok, length_magicV5,
    List.length_cons, List.length_nil, List.length_replicate, Vector.length_toList, Nat.zero_add,
    Nat.reduceAdd]

theorem HeaderFields.length_bytes (f : HeaderFields) : f.bytes.length = 64 := by
  simp [HeaderFields.bytes]

/-- A header is fields iff they are found at their places. -/
theorem HeaderFields.bytes_iff {f : HeaderFields} (hlen : header.length = 64) :
    slice header 0 64 = (.ok f.bytes : Run Bytes) ↔ header = f.bytes := by
  refine ⟨fun h => (slice_all h hlen.symm).symm, ?_⟩
  rintro rfl
  exact slice_zero_iff.mpr ⟨hlen.symm, [], (List.append_nil _).symm⟩

theorem HeaderFields.found (f : HeaderFields) :
    slice f.bytes 0 64 = (.ok f.bytes : Run Bytes) :=
  (HeaderFields.bytes_iff f.length_bytes).mpr rfl

theorem HeaderFields.bytes_injective : Function.Injective HeaderFields.bytes := by
  intro f g h
  have hf := HeaderFields.slices.mp f.found
  rw [h] at hf
  obtain ⟨-, -, -, hid, -, hkdf, hlog2, hpolicy, -, hsalt, hnonce⟩ := hf
  obtain ⟨-, -, -, hid', -, hkdf', hlog2', hpolicy', -, hsalt', hnonce'⟩ :=
    HeaderFields.slices.mp g.found
  cases f
  cases g
  dsimp only at *
  rw [ok.inj (hid.symm.trans hid'), Vector.toList_inj.mp (ok.inj (hkdf.symm.trans hkdf')),
    ok.inj (hlog2.symm.trans hlog2'), ok.inj (hpolicy.symm.trans hpolicy'),
    ok.inj (hsalt.symm.trans hsalt'), ok.inj (hnonce.symm.trans hnonce')]

/-- What is no public header is a `Format` error. -/
theorem parsePublicHeader_unframed (h : ¬ ∃ f : HeaderFields, header = f.bytes) :
    parsePublicHeader header = .err .format := by
  unfold parsePublicHeader
  refine rejectIf_bind_err fun hlen => ?_
  rw [headerV5Size, not_not] at hlen
  have hslice {a b : Nat} (hab : a ≤ b) (hb : b ≤ 64) : ∃ m, slice header a b = (.ok m : Run Bytes) :=
    ⟨_, slice_ok hab (hlen ▸ hb)⟩
  have hvec {a n : Nat} (hn : a + n ≤ 64) : ∃ v, sliceVec header a n = (.ok v : Run (Arr n)) :=
    ⟨_, dif_pos (hlen ▸ hn)⟩
  have hindex {i : Nat} (hi : i < 64) : ∃ b, index header i = (.ok b : Run UInt8) :=
    index_ok (hlen ▸ hi)
  obtain ⟨_, hmagic⟩ := @hslice 0 8 (by omega) (by omega)
  rw [hmagic, ok_bind]
  refine rejectIf_bind_err fun hm => ?_
  obtain ⟨_, hversion⟩ := @hindex 8 (by omega)
  rw [hversion, ok_bind]
  refine rejectIf_bind_err fun hv => ?_
  obtain ⟨_, hheaderVersion⟩ := @hindex 9 (by omega)
  rw [hheaderVersion, ok_bind]
  refine rejectIf_bind_err fun hhv => ?_
  obtain ⟨_, hflags⟩ := @hindex 11 (by omega)
  rw [hflags, ok_bind]
  refine rejectIf_bind_err fun hf => ?_
  obtain ⟨_, hreserved⟩ := @hslice 27 32 (by omega) (by omega)
  rw [hreserved, ok_bind]
  refine rejectIf_bind_err fun hr => ?_
  -- Every check passes, so the rest of the fields can be read off.
  rw [not_not] at hm hv hhv hf
  subst hm hv hhv hf
  obtain ⟨kdfId, hkdfId⟩ := @hindex 10 (by omega)
  obtain ⟨kdfFields, hkdfFields⟩ := @hvec 12 13 (by omega)
  obtain ⟨segmentSizeLog2, hlog2⟩ := @hindex 25 (by omega)
  obtain ⟨padPolicy, hpolicy⟩ := @hindex 26 (by omega)
  obtain ⟨salt, hsalt⟩ := @hvec 32 16 (by omega)
  obtain ⟨publicNonce, hnonce⟩ := @hvec 48 16 (by omega)
  have hslices := @HeaderFields.slices header
    ⟨kdfId, kdfFields, segmentSizeLog2, padPolicy, salt, publicNonce⟩
  exact absurd ⟨_, (HeaderFields.bytes_iff hlen).mp (hslices.mpr ⟨hmagic, hversion,
    hheaderVersion, hkdfId, hflags, sliceVec_eq_ok.mp hkdfFields, hlog2, hpolicy,
    (slice_zeros (n := 5) rfl).mp ⟨_, hreserved, hr⟩, hsalt, hnonce⟩)⟩ h

/-- The fields behind each `kdf_id`. -/
theorem parseKdf_bytes {f : HeaderFields} {params : KdfParams}
    (h : KdfFields params f.kdfId f.kdfFields.toList) : parseKdf f.bytes = .ok params := by
  obtain ⟨-, -, -, hid, -, hkdf, -⟩ := HeaderFields.slices.mp f.found
  unfold parseKdf
  rw [hid, ok_bind]
  generalize f.kdfFields.toList = l, f.kdfId = kdfId at h hkdf
  cases h with
  | pbkdf2 iterations unread =>
    rw [slice_append_iff, length_u32Bytes] at hkdf
    rw [if_pos rfl, hkdf.1, ok_bind, u32OfBytes_u32Bytes]
  | scrypt unread nLog2 r p =>
    simp only [slice_append_iff, ← index_eq_ok, length_u32Bytes, Vector.length_toList,
      List.length_cons, List.length_nil, Nat.zero_add, Nat.reduceAdd] at hkdf
    obtain ⟨-, hn, hr, hp⟩ := hkdf
    rw [if_neg (by decide), if_pos rfl, hn, ok_bind, hr, ok_bind, hp, ok_bind, u32OfBytes_u32Bytes,
      u32OfBytes_u32Bytes]

theorem exists_kdfFields (l : Arr 13) {kdfId : UInt8} (h : kdfId = 1 ∨ kdfId = 2) :
    ∃ params, KdfFields params kdfId l.toList := by
  have hlen : l.toList.length = 13 := l.length_toList
  generalize l.toList = fields at hlen
  rcases h with rfl | rfl
  · have hparams := KdfFields.pbkdf2 (u32OfBytes (fields.take 4))
      (arrOfList (fields.drop 4) (by rw [List.length_drop, hlen]))
    rw [u32Bytes_u32OfBytes (by rw [List.length_take, hlen]; rfl), toList_arrOfList,
      List.take_append_drop] at hparams
    exact ⟨_, hparams⟩
  · obtain ⟨unread, rest, rfl, hunread⟩ : ∃ a b, fields = a ++ b ∧ a.length = 4 :=
      ⟨_, _, (List.take_append_drop 4 fields).symm, by rw [List.length_take, hlen]; rfl⟩
    rw [List.length_append, hunread] at hlen
    obtain ⟨nLog2, rest, rfl⟩ := List.exists_cons_of_length_pos (show 0 < rest.length by omega)
    rw [List.length_cons] at hlen
    have hparams := KdfFields.scrypt (arrOfList unread hunread) nLog2 (u32OfBytes (rest.take 4))
      (u32OfBytes (rest.drop 4))
    rw [u32Bytes_u32OfBytes (by rw [List.length_take]; omega), toList_arrOfList,
      u32Bytes_u32OfBytes (by rw [List.length_drop]; omega), List.take_append_drop] at hparams
    exact ⟨_, hparams⟩

theorem parseKdf_unknown {f : HeaderFields} (h : ¬ (f.kdfId = 1 ∨ f.kdfId = 2)) :
    parseKdf f.bytes = .err .invalidParameter := by
  obtain ⟨-, -, -, hid, -⟩ := HeaderFields.slices.mp f.found
  rw [not_or] at h
  unfold parseKdf
  rw [hid, ok_bind, if_neg h.1, if_neg h.2]

theorem parsePublicHeader_bytes (f : HeaderFields) : parsePublicHeader f.bytes =
    rejectIf (f.padPolicy > 1) .invalidParameter >>= fun _ =>
      parseKdf f.bytes >>= fun kdf => .ok ⟨kdf, f.salt, f.publicNonce⟩ := by
  obtain ⟨hmagic, hversion, hheaderVersion, -, hflags, -, -, hpolicy, hreserved, hsalt, hnonce⟩ :=
    HeaderFields.slices.mp f.found
  unfold parsePublicHeader
  rw [rejectIf_false (not_not.mpr f.length_bytes), ok_bind, hmagic, ok_bind,
    rejectIf_false (not_not.mpr rfl), ok_bind, hversion, ok_bind, rejectIf_false (not_not.mpr rfl),
    ok_bind, hheaderVersion, ok_bind, rejectIf_false (not_not.mpr rfl), ok_bind, hflags, ok_bind,
    rejectIf_false (not_not.mpr rfl), ok_bind, hreserved, ok_bind, rejectIf_false (by decide),
    ok_bind, hpolicy, ok_bind]
  simp only [hsalt, hnonce, ok_bind]

/-- **What `parse_public_header` makes of every byte string**: the fields of a header, with the
parameters behind its `kdf_id`; `InvalidParameter` for a padding policy or a `kdf_id` that it does
not know; and `Format` for everything else. The segment size byte, and the bytes of the other key
derivation, are free. -/
theorem parsePublicHeader_exact (header : Bytes) :
    (∀ parsed, parsePublicHeader header = .ok parsed ↔ ∃ f : HeaderFields, header = f.bytes ∧
      f.padPolicy ≤ 1 ∧ KdfFields parsed.kdf f.kdfId f.kdfFields.toList ∧
      parsed.salt = f.salt ∧ parsed.publicNonce = f.publicNonce) ∧
    (parsePublicHeader header = .err .invalidParameter ↔ ∃ f : HeaderFields, header = f.bytes ∧
      (f.padPolicy > 1 ∨ ¬ (f.kdfId = 1 ∨ f.kdfId = 2))) ∧
    (parsePublicHeader header = .err .format ↔ ¬ ∃ f : HeaderFields, header = f.bytes) := by
  by_cases hframed : ∃ f : HeaderFields, header = f.bytes
  · obtain ⟨f, rfl⟩ := hframed
    simp only [HeaderFields.bytes_injective.eq_iff, exists_eq_left', exists_eq', not_true_eq_false,
      iff_false]
    rw [parsePublicHeader_bytes]
    by_cases hpolicy : f.padPolicy > 1
    · rw [rejectIf_true hpolicy, err_bind]
      exact ⟨fun _ => ⟨nofun, fun h => absurd hpolicy (UInt8.not_lt.mpr h.1)⟩,
        iff_of_true rfl (.inl hpolicy), nofun⟩
    rw [rejectIf_false hpolicy, ok_bind]
    by_cases hid : f.kdfId = 1 ∨ f.kdfId = 2
    · obtain ⟨params, hparams⟩ := exists_kdfFields f.kdfFields hid
      have hkdf := parseKdf_bytes hparams
      rw [hkdf, ok_bind]
      refine ⟨fun parsed => ⟨fun h => ?_, ?_⟩, ⟨nofun, ?_⟩, nofun⟩
      · cases h
        exact ⟨UInt8.not_lt.mp hpolicy, hparams, rfl, rfl⟩
      · rintro ⟨-, hparams', hsalt, hnonce⟩
        rw [← ok.inj ((parseKdf_bytes hparams').symm.trans hkdf), ← hsalt, ← hnonce]
      · rintro (h | h)
        · exact absurd h hpolicy
        · exact absurd hid h
    · rw [parseKdf_unknown hid, err_bind]
      exact ⟨fun _ => ⟨nofun, fun ⟨_, h, _⟩ => absurd h.known hid⟩,
        iff_of_true rfl (.inr hid), nofun⟩
  · rw [parsePublicHeader_unframed hframed]
    refine ⟨fun parsed => ⟨nofun, ?_⟩, ⟨nofun, ?_⟩, iff_of_true rfl hframed⟩
    · exact fun ⟨f, hf, _⟩ => absurd ⟨f, hf⟩ hframed
    · exact fun ⟨f, hf, _⟩ => absurd ⟨f, hf⟩ hframed

/-! ## Drafts -/

structure DraftV5 where
  publicHeader : Arr headerV5Size
  pieces : List Bytes
  nonempty : pieces ≠ []

namespace DraftV5

def inner (d : DraftV5) : Bytes := d.pieces.flatten

def write (E : Env) (password : Bytes) (d : DraftV5) : Run Bytes :=
  reencrypt E password d.publicHeader d.inner (d.pieces.map List.length)

end DraftV5

/-- A frame with the content of a draft. -/
structure Writes (E : Env) (password : Bytes) (d : DraftV5) (frame : Frame) (parsed : ParsedHeader)
    (segments : List Segment) : Prop where
  header : frame.publicHeader = d.publicHeader
  parses : parsePublicHeader frame.publicHeader.toList = .ok parsed
  holds : ∃ root, deriveRootKey E password parsed.salt.toList parsed.kdf = .ok root ∧
    Holds E (V5Keys.derive E root) parsed.publicNonce frame segments
  pieces : segments.map Prod.fst = d.pieces

variable {E : Env} {password container data : Bytes} {d : DraftV5}

theorem Writes.inner {frame : Frame} {parsed : ParsedHeader} {segments : List Segment}
    (h : Writes E password d frame parsed segments) : plainOf segments = d.inner := by
  rw [plainOf, h.pieces, DraftV5.inner]

theorem DraftV5.write_eq_ok : d.write E password = .ok container ↔
    ∃ parsed, parsePublicHeader d.publicHeader.toList = .ok parsed ∧
      ∃ root, deriveRootKey E password parsed.salt.toList parsed.kdf = .ok root ∧
        ∃ siv, siv = syntheticIv E (V5Keys.derive E root) d.publicHeader.toList d.inner ∧
          ∃ table ciphertext, encryptPieces E (V5Keys.derive E root) parsed.publicNonce siv
              d.pieces = .ok (table, ciphertext) ∧
            container = Frame.bytes ⟨d.publicHeader, siv, table, ciphertext,
              (tagV5 E (V5Keys.derive E root) d.publicHeader.toList siv table ciphertext).toList⟩ := by
  simp only [DraftV5.write, reencrypt, bind_eq_ok, Prod.exists, DraftV5.inner, splitLengths_flatten,
    ok.injEq, exists_eq_left, eq_comm (a := container)]

theorem DraftV5.writes (h : d.write E password = .ok container) :
    ∃ frame parsed segments, container = frame.bytes ∧
      Writes E password d frame parsed segments := by
  obtain ⟨parsed, hp, root, hr, siv, rfl, table, ciphertext, hpieces, rfl⟩ := DraftV5.write_eq_ok.mp h
  obtain ⟨segments, hsealed, hcut, ht, hc⟩ := encryptPieces_eq_ok hpieces
  have hplain : plainOf segments = d.pieces.flatten := by rw [plainOf, ← hcut]
  refine ⟨_, parsed, segments, rfl, rfl, hp, ⟨root, hr, ?_, hsealed, ht, hc, ?_, rfl⟩, hcut.symm⟩
  · rintro rfl
    exact d.nonempty hcut
  · rw [hplain]
    rfl

theorem Writes.write {frame : Frame} {parsed : ParsedHeader} {segments : List Segment}
    (h : Writes E password d frame parsed segments) (hlen : frame.bytes.length < 2 ^ 64) :
    d.write E password = .ok frame.bytes := by
  obtain ⟨root, hr, hh⟩ := h.holds
  have hct := ciphertext_lt frame hlen
  have hplain := hh.plain_fits hct
  have hencrypt := encryptPieces_ok hh.sealed (by rw [plainTotal_lengthsOf hplain]; exact hplain)
    (by rw [← hh.total hct]; exact hct)
  rw [h.pieces] at hencrypt
  unfold DraftV5.write reencrypt
  rw [← h.header, h.parses, ok_bind, hr, ok_bind, DraftV5.inner, splitLengths_flatten, ← DraftV5.inner,
    ← h.inner]
  dsimp only
  rw [← hh.siv, hencrypt, ok_bind, ← hh.table, ← hh.ciphertext, ← hh.tag]

/-- A container is read as its draft. -/
theorem Writes.unique {frame₁ frame₂ : Frame} {parsed₁ parsed₂ : ParsedHeader}
    {segments₁ segments₂ : List Segment} {d₁ d₂ : DraftV5}
    (h₁ : Writes E password d₁ frame₁ parsed₁ segments₁)
    (h₂ : Writes E password d₂ frame₂ parsed₂ segments₂) (hbytes : frame₁.bytes = frame₂.bytes)
    (hlen : frame₁.bytes.length < 2 ^ 64) : d₁ = d₂ := by
  obtain ⟨root₁, hr₁, hh₁⟩ := h₁.holds
  obtain ⟨root₂, hr₂, hh₂⟩ := h₂.holds
  have hframe := hh₁.parseContainer h₁.parses hlen
  have hframe₂ := hh₂.parseContainer h₂.parses (hbytes ▸ hlen)
  rw [hbytes, hframe₂] at hframe
  obtain ⟨rfl, rfl⟩ := Prod.mk.inj (ok.inj hframe)
  obtain rfl := ok.inj (hr₁.symm.trans hr₂)
  have hct := ciphertext_lt _ hlen
  -- The table gives the lengths of the pieces, decryption gives what they join to.
  have hentries := (hh₁.parseSegmentTable hct).symm.trans (hh₂.parseSegmentTable hct)
  have hinner := hh₁.decryptSegments hct
  rw [ok.inj hentries, hh₂.decryptSegments hct, ok.injEq] at hinner
  have hlengths := plainLengths_running (hh₁.plain_fits hct)
  rw [ok.inj hentries, plainLengths_running (hh₂.plain_fits hct), h₁.pieces, h₂.pieces] at hlengths
  have hpieces := splitLengths_flatten d₁.pieces
  rw [← hlengths, ← DraftV5.inner, ← h₁.inner, ← hinner, h₂.inner, DraftV5.inner,
    splitLengths_flatten] at hpieces
  cases d₁
  cases d₂
  have hheader := h₁.header.symm.trans h₂.header
  dsimp only at hheader hpieces
  subst hheader hpieces
  rfl

theorem DraftV5.unique {d₁ d₂ : DraftV5} (hlen : container.length < 2 ^ 64)
    (h₁ : d₁.write E password = .ok container) (h₂ : d₂.write E password = .ok container) :
    d₁ = d₂ := by
  obtain ⟨frame₁, _, _, rfl, hw₁⟩ := DraftV5.writes h₁
  obtain ⟨frame₂, _, _, hbytes, hw₂⟩ := DraftV5.writes h₂
  exact hw₁.unique hw₂ hbytes hlen

theorem DraftV5.opens (hlen : container.length < 2 ^ 64) (h : d.write E password = .ok container)
    (hu : unpackInner E d.inner = .ok data) : decryptV5 E container password = .ok data := by
  obtain ⟨frame, parsed, segments, rfl, hw⟩ := DraftV5.writes h
  obtain ⟨root, hr, hh⟩ := hw.holds
  rw [← hw.inner] at hu
  exact decryptV5_eq_ok.mpr ⟨frame, parsed, root, segments, rfl, hlen, hw.parses, hr, hh, hu⟩

/-- A container that opens has a draft. -/
theorem exists_draftV5 (h : decryptV5 E container password = .ok data) :
    ∃ d : DraftV5, d.write E password = .ok container ∧ unpackInner E d.inner = .ok data := by
  obtain ⟨frame, parsed, root, segments, rfl, hlen, hp, hr, hh, hu⟩ := decryptV5_eq_ok.mp h
  have hne : segments.map Prod.fst ≠ [] := fun hnil => hh.nonempty (List.map_eq_nil_iff.mp hnil)
  have hw : Writes E password ⟨frame.publicHeader, segments.map Prod.fst, hne⟩ frame parsed
      segments := ⟨rfl, hp, ⟨root, hr, hh⟩, rfl⟩
  exact ⟨_, hw.write hlen, hu⟩

theorem chunks_packInner_ne_nil (E : Env) (data : Bytes) (opts : EncryptV5Options)
    (coins : Coins) : chunks opts.chunkSize (packInner E data opts.paddingPolicy coins) ≠ [] := by
  intro hnil
  have hlen := congrArg List.length (flatten_chunks opts.chunkSize_pos
    (packInner E data opts.paddingPolicy coins))
  rw [hnil, length_packInner] at hlen
  simp only [List.flatten_nil, List.length_nil] at hlen
  omega

/-- The draft of a run of `encrypt_v5`, behind its header. -/
def EncryptV5Options.draft (E : Env) (data : Bytes) (opts : EncryptV5Options) (coins : Coins)
    (publicHeader : Arr headerV5Size) : DraftV5 :=
  ⟨publicHeader, chunks opts.chunkSize (packInner E data opts.paddingPolicy coins),
    chunks_packInner_ne_nil E data opts coins⟩

theorem encryptV5_iff_draft {opts : EncryptV5Options} {coins : Coins} :
    encryptV5 E data password opts coins = .ok container ↔
      ∃ publicHeader, packPublicHeader E opts (opts.salt.getD coins.salt)
          (opts.publicNonce.getD coins.publicNonce) = .ok publicHeader ∧
        (opts.draft E data coins publicHeader).write E password = .ok container := by
  have hinner : (chunks opts.chunkSize (packInner E data opts.paddingPolicy coins)).flatten =
    packInner E data opts.paddingPolicy coins := flatten_chunks opts.chunkSize_pos _
  simp only [encryptV5_eq_ok, DraftV5.write_eq_ok, DraftV5.inner, EncryptV5Options.draft, hinner]
  refine ⟨?_, ?_⟩
  · rintro ⟨s, h, rfl⟩
    obtain ⟨root, hr, hk⟩ := h.keys
    have hh := h.header
    have hpieces := h.pieces
    rw [h.publicNonce] at hh hpieces
    rw [hk, h.inner] at hpieces
    refine ⟨_, hh, _, parsePublicHeader_pack hh, root, hr, _, ?_, _, _, hpieces, ?_⟩
    · rw [h.siv, h.inner, hk]
    · rw [← hk, ← h.tag]
  · rintro ⟨publicHeader, hh, parsed, hp, root, hr, siv, rfl, table, ciphertext, hpieces, rfl⟩
    obtain rfl := ok.inj ((parsePublicHeader_pack hh).symm.trans hp)
    exact ⟨⟨V5Keys.derive E root, opts.publicNonce.getD coins.publicNonce,
      packInner E data opts.paddingPolicy coins, ⟨publicHeader, _, table, ciphertext, _⟩⟩,
      ⟨rfl, hh, ⟨root, hr, rfl⟩, rfl, rfl, hpieces, rfl⟩, rfl⟩

end Krcm
