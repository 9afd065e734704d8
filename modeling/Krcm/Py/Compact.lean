import Krcm.Py.Container

/-!
# The compact container

`compact.py`: the transformation of `core.py` under a binary header of 45
bytes. What is written opens again, and under one password the authenticated
message determines the container (`compact_codec`).
-/

namespace Krcm.Py

open Base Outcome

def compactMagic : Bytes := ascii "AMPCMPCT"
def compactVersion : Nat := 4
def supportedCompactVersions : List Nat := [3, 4]
/-- `COMPACT_HEADER.size`. -/
@[simp] abbrev compactHeaderBytes : Nat := 45

@[simp] theorem length_compactMagic : compactMagic.length = 8 := by decide

/-- The fields of `COMPACT_HEADER`. -/
structure CompactHeader where
  version : Nat
  iterations : Nat
  originalLength : Nat
  salt : Bytes
  nonce : Bytes

/-- A `16s` field: cut or filled with zeros. -/
def field16 (bytes : Bytes) : Bytes := bytes.take 16 ++ List.replicate (16 - bytes.length) 0

namespace CompactHeader

/-- `COMPACT_HEADER.pack`, of `>BIQ16s16s`. -/
def pack (header : CompactHeader) : PyRun Bytes := do
  rejectIf (256 ≤ header.version ∨ 2 ^ 32 ≤ header.iterations ∨ 2 ^ 64 ≤ header.originalLength)
    .structError
  .ok (beBytes 1 header.version ++ (beBytes 4 header.iterations ++
    (beBytes 8 header.originalLength ++ (field16 header.salt ++ field16 header.nonce))))

/-- `COMPACT_HEADER.unpack` of 45 bytes. -/
def unpack (header : Bytes) : CompactHeader where
  version := beNat (header.extract 0 1)
  iterations := beNat (header.extract 1 5)
  originalLength := beNat (header.extract 5 13)
  salt := header.extract 13 29
  nonce := header.extract 29 45

end CompactHeader

def packHeader (iterations originalLength : Int) (salt nonce : Bytes) : PyRun Bytes := do
  rejectIf (salt.length ≠ saltBytes ∨ nonce.length ≠ nonceBytes) .valueError
  rejectIf (iterations < 1 ∨ iterations > maxIterations) .valueError
  rejectIf (originalLength < 0 ∨ originalLength > 0xFFFFFFFFFFFFFFFF) .valueError
  CompactHeader.pack ⟨compactVersion, iterations.toNat, originalLength.toNat, salt, nonce⟩

def unpackHeader (header : Bytes) : PyRun CompactHeader := do
  rejectIf (header.length ≠ compactHeaderBytes) .formatError
  let fields := CompactHeader.unpack header
  rejectIf (fields.version ∉ supportedCompactVersions) .formatError
  rejectIf (fields.iterations < 1 ∨ fields.iterations > maxIterations) .formatError
  rejectIf (fields.salt.length ≠ saltBytes ∨ fields.nonce.length ≠ nonceBytes) .formatError
  .ok fields

section model
variable (E : Env) (native : Bool)

/-- `encrypt_bytes_compact`, where the generator returns the salt and then the nonce. -/
def encryptBytesCompact (data password : Bytes) (iterations : Int) (salt nonce : Bytes) :
    PyRun Bytes := do
  rejectIf (salt.length ≠ saltBytes ∨ nonce.length ≠ nonceBytes) .valueError
  let (encKey, authKey) ← deriveKeys E password salt iterations
  let header ← packHeader iterations data.length salt nonce
  let ciphertext ← encryptBlocks E native (pad data) encKey nonce compactVersion
  let tag := makeTag E authKey header ciphertext
  .ok (compactMagic ++ header ++ ciphertext ++ tag)

def decryptBytesCompact (blob password : Bytes) : PyRun Bytes := do
  rejectIf (blob.length < compactMagic.length + compactHeaderBytes + tagBytes) .formatError
  rejectIf (¬ compactMagic.isPrefixOf blob) .formatError
  let headerStart := compactMagic.length
  let headerEnd := headerStart + compactHeaderBytes
  let header := blob.extract headerStart headerEnd
  let fields ← unpackHeader header
  let ciphertext := (dropLast blob tagBytes).drop headerEnd
  let tag := sliceLast blob tagBytes
  let (encKey, authKey) ← deriveKeys E password fields.salt fields.iterations
  let expected := makeTag E authKey header ciphertext
  rejectIf (tag ≠ expected) .authenticationError
  let padded ← decryptBlocks E native ciphertext encKey fields.nonce fields.version
  let plain ← unpad padded
  rejectIf (plain.length ≠ fields.originalLength) .authenticationError
  .ok plain

end model

/-- What the tag of a compact container covers: its header and its ciphertext. -/
def authenticatedMessage (container : Bytes) : Bytes :=
  container.extract 8 53 ++ (dropLast container tagBytes).drop 53

variable {E : Env} {native : Bool} {password data : Bytes}

/-! ## The header -/

theorem field16_of_length {bytes : Bytes} (h : bytes.length = 16) : field16 bytes = bytes := by
  unfold field16
  rw [List.take_of_length_le (by omega), h]
  exact List.append_nil _

/-- A header in range unpacks to what was packed. -/
theorem unpack_pack {header : CompactHeader} {bytes : Bytes} (hs : header.salt.length = 16)
    (hn : header.nonce.length = 16) (h : header.pack = .ok bytes) :
    bytes.length = 45 ∧ CompactHeader.unpack bytes = header := by
  obtain ⟨_, hrange, hbytes⟩ := bind_eq_ok.mp h
  rw [rejectIf_eq_ok] at hrange
  rw [field16_of_length hs, field16_of_length hn] at hbytes
  obtain ⟨l, hl⟩ : ∃ l, l = bytes := ⟨_, rfl⟩
  rw [← ok.inj hbytes] at hl
  rw [← ok.inj hbytes, ← hl]
  have h0 : l.extract 0 1 = beBytes 1 header.version := extract_mid (p := []) hl rfl (by simp)
  have h1 : l.extract 1 5 = beBytes 4 header.iterations := extract_mid hl (by simp) (by simp)
  have h5 : l.extract 5 13 = beBytes 8 header.originalLength :=
    extract_mid (p := beBytes 1 header.version ++ beBytes 4 header.iterations)
      (by rw [hl, List.append_assoc]) (by simp) (by simp)
  have h13 : l.extract 13 29 = header.salt :=
    extract_mid (p := beBytes 1 header.version ++ (beBytes 4 header.iterations ++
      beBytes 8 header.originalLength)) (s := header.nonce) (by simp [hl]) (by simp) (by omega)
  have h29 : l.extract 29 45 = header.nonce :=
    extract_mid (p := beBytes 1 header.version ++ (beBytes 4 header.iterations ++
      (beBytes 8 header.originalLength ++ header.salt))) (s := []) (by simp [hl]) (by simp; omega)
      (by omega)
  refine ⟨by simp [hl, hs, hn], ?_⟩
  unfold CompactHeader.unpack
  rw [h0, h1, h5, h13, h29, beNat_beBytes, beNat_beBytes, beNat_beBytes, Nat.mod_eq_of_lt (by omega),
    Nat.mod_eq_of_lt (by omega), Nat.mod_eq_of_lt (by omega)]

/-- The header of a run, and its fields. -/
theorem unpackHeader_packHeader {iterations : Int} {length : Nat} {salt nonce header : Bytes}
    (h : packHeader iterations length salt nonce = .ok header) :
    unpackHeader header = .ok ⟨4, iterations.toNat, length, salt, nonce⟩ := by
  simp only [packHeader, bind_eq_ok, rejectIf_eq_ok, saltBytes, nonceBytes, maxIterations] at h
  obtain ⟨_, hlengths, _, hrange, _, -, hpack⟩ := h
  obtain ⟨hlen, hunpack⟩ := unpack_pack (by dsimp only; omega) (by dsimp only; omega) hpack
  unfold unpackHeader
  rw [rejectIf_false (not_not.mpr hlen), ok_bind, hunpack, Int.toNat_natCast]
  dsimp only [compactVersion]
  rw [rejectIf_false (by decide), ok_bind, rejectIf_false (by simp only [maxIterations]; omega), ok_bind,
    rejectIf_false (by simp only [saltBytes, nonceBytes]; omega), ok_bind]

theorem packHeader_returns {iterations : Int} {length : Nat} {salt nonce : Bytes}
    (hi : 1 ≤ iterations ∧ iterations ≤ 1000000) (hl : length < 2 ^ 64) (hs : salt.length = 16)
    (hn : nonce.length = 16) : ∃ header, packHeader iterations length salt nonce = .ok header := by
  unfold packHeader CompactHeader.pack
  rw [rejectIf_false (by simp only [saltBytes, nonceBytes]; omega), ok_bind,
    rejectIf_false (by simp only [maxIterations]; omega), ok_bind, rejectIf_false (by omega), ok_bind,
    rejectIf_false (by dsimp only [compactVersion]; omega), ok_bind]
  exact ⟨_, rfl⟩

/-! ## Acceptance -/

/-- The parts of a written container are found at their places. -/
theorem compact_parts (ciphertext : Bytes) {header tag : Bytes} (hh : header.length = 45)
    (ht : tag.length = 32) :
    let blob := compactMagic ++ header ++ ciphertext ++ tag
    blob.extract 8 53 = header ∧ (dropLast blob 32).drop 53 = ciphertext ∧ sliceLast blob 32 = tag := by
  have hfront : (compactMagic ++ header).length = 53 := by simp [hh]
  refine ⟨extract_mid (p := compactMagic) (s := ciphertext ++ tag) (by simp) (by simp) (by omega),
    ?_, sliceLast_append ht (by decide)⟩
  rw [← hfront, List.append_assoc (compactMagic ++ header)]
  exact drop_dropLast ht (by decide)

theorem length_of_unpackHeader {header : Bytes} {fields : CompactHeader}
    (h : unpackHeader header = .ok fields) : header.length = 45 := by
  obtain ⟨_, hreject, -⟩ := bind_eq_ok.mp h
  exact not_not.mp (rejectIf_eq_ok.mp hreject)

theorem authenticatedMessage_written {header ciphertext authKey : Bytes} {fields : CompactHeader}
    (h : unpackHeader header = .ok fields) :
    authenticatedMessage (compactMagic ++ header ++ ciphertext ++ makeTag E authKey header ciphertext) =
      header ++ ciphertext := by
  obtain ⟨h8, h53, -⟩ := compact_parts ciphertext (length_of_unpackHeader h)
    (length_makeTag (E := E) authKey header ciphertext)
  unfold authenticatedMessage
  rw [h8, h53]

/-- **What `decrypt_bytes_compact` accepts**: the magic, a header that unpacks, and a ciphertext and
its tag under the keys of the header. -/
theorem decryptBytesCompact_eq_ok {blob : Bytes} :
    decryptBytesCompact E native blob password = .ok data ↔
      ∃ header fields ciphertext encKey authKey, unpackHeader header = .ok fields ∧
        deriveKeys E password fields.salt fields.iterations = .ok (encKey, authKey) ∧
        blob = compactMagic ++ header ++ ciphertext ++ makeTag E authKey header ciphertext ∧
        decryptBlocks E native ciphertext encKey fields.nonce fields.version = .ok (pad data) ∧
        data.length = fields.originalLength := by
  refine ⟨fun h => ?_, ?_⟩
  · simp only [decryptBytesCompact, bind_eq_ok, rejectIf_eq_ok, not_not, ok.injEq, Prod.exists,
      length_compactMagic, compactHeaderBytes, tagBytes, Nat.reduceAdd] at h
    obtain ⟨_, hmin, _, hmagic, fields, hfields, encKey, authKey, hk, _, htag, padded, hd, plain, hp, _,
      hlen, rfl⟩ := h
    refine ⟨_, fields, _, encKey, authKey, hfields, hk, ?_, unpad_eq_ok.mp hp ▸ hd, hlen⟩
    have h0 : blob.extract 0 8 = compactMagic := extract_of_isPrefixOf hmagic
    have hfront : blob.take 53 = compactMagic ++ blob.extract 8 53 := by
      rw [← h0, extract_append_extract (by omega) (by omega)]
      rfl
    have hsplit := split_tag (l := blob) (a := 53) (n := 32) (by decide) (by omega)
    rw [hfront, htag] at hsplit
    simpa only [List.append_assoc] using hsplit
  · rintro ⟨header, fields, ciphertext, encKey, authKey, hfields, hk, rfl, hd, hlen⟩
    have hheader := length_of_unpackHeader hfields
    obtain ⟨h8, h53, htag⟩ := compact_parts ciphertext hheader
      (length_makeTag (E := E) authKey header ciphertext)
    simp only [decryptBytesCompact, bind_eq_ok, rejectIf_eq_ok, not_not, ok.injEq, Prod.exists,
      length_compactMagic, compactHeaderBytes, tagBytes, Nat.reduceAdd]
    rw [h8, h53, htag]
    refine ⟨(), ?_, (), ?_, fields, hfields, encKey, authKey, hk, (), rfl, _, hd, data,
      unpad_eq_ok.mpr rfl, (), hlen, rfl⟩
    · rw [List.length_append, List.length_append, List.length_append, length_compactMagic, hheader,
        length_makeTag]
      omega
    · rw [List.append_assoc, List.append_assoc]
      exact List.isPrefixOf_iff_prefix.mpr ⟨_, rfl⟩

/-! ## The codec -/

/-- Whole blocks encrypt, and decrypt to themselves by either body. -/
theorem encryptBlocks_opens {p : Hash → Table 256} {q : Hash → Table 32} (hS : SharedTables E p q)
    (native native' : Bool) (version : Int) (encKey : EncKey) (nonce : Nonce) {x : Bytes}
    (hx : x.length ≤ 2 ^ 69) (hmod : x.length % 32 = 0) : ∃ y,
      encryptBlocks E native x encKey.key.toList nonce.toList version = .ok y ∧
        decryptBlocks E native' y encKey.key.toList nonce.toList version = .ok x := by
  obtain ⟨xs, hxs⟩ := exists_joinBlocks hmod
  have hencrypt (native : Bool) := (encryptBlocks_returns_iff hS native version encKey nonce hx).mpr
    ⟨xs, hxs, rfl⟩
  refine ⟨_, hencrypt native, (decryptBlocks_iff hS native' version encKey nonce ?_).mpr
    (hencrypt native')⟩
  rw [length_joinBlocks, Layers.length_encryptBlocks, ← length_joinBlocks, ← hxs]
  exact hx

theorem compact_roundtrip {p : Hash → Table 256} {q : Hash → Table 32} (hS : SharedTables E p q)
    (native native' : Bool) {iterations : Int} {salt nonce : Bytes} (hdata : data.length < 2 ^ 64)
    (hpassword : password ≠ []) (htaken : E.Takes password)
    (hi : 1 ≤ iterations ∧ iterations ≤ 1000000) (hs : salt.length = 16) (hn : nonce.length = 16) :
    ∃ container,
      encryptBytesCompact E native data password iterations salt nonce = .ok container ∧
        decryptBytesCompact E native' container password = .ok data := by
  obtain ⟨hword, hadmitted⟩ := iterations_word hi
  rw [not_or, gt_iff_lt, UInt32.not_lt] at hadmitted
  obtain ⟨⟨enc, auth⟩, hcore⟩ := deriveKeys_ok (E := E) hpassword hs hadmitted.1 hadmitted.2
  have hk : deriveKeys E password salt iterations = .ok (enc.key.toList, auth.key.toList) :=
    deriveKeys_eq_ok.mpr ⟨htaken, hi, enc, auth, hcore, rfl, rfl⟩
  obtain ⟨header, hheader⟩ := packHeader_returns hi hdata hs hn
  have hsize : (pad data).length ≤ 2 ^ 69 := by
    rw [pad_agrees, length_pad]
    omega
  obtain ⟨y, hy, hopen⟩ := encryptBlocks_opens hS native native' compactVersion enc
    (arrOfList nonce hn) hsize (pad_agrees data ▸ length_pad_mod data)
  rw [toList_arrOfList] at hy hopen
  refine ⟨compactMagic ++ header ++ y ++ makeTag E auth.key.toList header y, ?_,
    decryptBytesCompact_eq_ok.mpr ⟨header, _, y, _, _, unpackHeader_packHeader hheader, ?_, rfl, hopen,
      rfl⟩⟩
  · unfold encryptBytesCompact
    rw [rejectIf_false (by simp only [saltBytes, nonceBytes]; omega), ok_bind, hk, ok_bind]
    dsimp only
    rw [hheader, ok_bind, hy, ok_bind]
  · have hcast : ((iterations.toNat : Nat) : Int) = iterations := by omega
    dsimp only
    rw [hcast]
    exact hk

theorem compact_canonical {native native' : Bool} {blob blob' data' : Bytes}
    (h : decryptBytesCompact E native blob password = .ok data)
    (h' : decryptBytesCompact E native' blob' password = .ok data')
    (hmessage : authenticatedMessage blob = authenticatedMessage blob') : blob = blob' := by
  obtain ⟨header, fields, ciphertext, encKey, authKey, hf, hk, rfl, -⟩ := decryptBytesCompact_eq_ok.mp h
  obtain ⟨header', fields', ciphertext', encKey', authKey', hf', hk', rfl, -⟩ :=
    decryptBytesCompact_eq_ok.mp h'
  have hmsg : header ++ ciphertext = header' ++ ciphertext' := by
    rw [← authenticatedMessage_written hf, hmessage, authenticatedMessage_written hf']
  obtain ⟨rfl, rfl⟩ := List.append_inj hmsg ((length_of_unpackHeader hf).trans
    (length_of_unpackHeader hf').symm)
  obtain rfl := ok.inj (hf.symm.trans hf')
  obtain ⟨rfl, rfl⟩ := Prod.mk.inj (ok.inj (hk.symm.trans hk'))
  rfl

/-- **The compact codec**: what is written under a password `hashlib` takes opens again, by either
body of the block engine, and two accepted containers with one authenticated message are the same. -/
theorem compact_codec (E : Env) (hT : SamplingTerminates E) :
    ∃ n, ∀ m, n ≤ m → ∀ (native native' : Bool) (password : Bytes),
      (∀ (data : Bytes) (iterations : Int) (salt nonce : Bytes), data.length < 2 ^ 64 →
        password ≠ [] → E.Takes password → 1 ≤ iterations → iterations ≤ 1000000 →
        salt.length = 16 → nonce.length = 16 → ∃ container,
          encryptBytesCompact (E.withFuel m) native data password iterations salt nonce =
              .ok container ∧
            decryptBytesCompact (E.withFuel m) native' container password = .ok data) ∧
      ∀ c₁ c₂ p₁ p₂, decryptBytesCompact (E.withFuel m) native c₁ password = .ok p₁ →
        decryptBytesCompact (E.withFuel m) native' c₂ password = .ok p₂ →
          authenticatedMessage c₁ = authenticatedMessage c₂ → c₁ = c₂ := by
  obtain ⟨n, hn⟩ := hT.fuel
  refine ⟨n, fun m hm native native' password => ⟨?_, ?_⟩⟩
  · intro data iterations salt nonce hdata hpassword htaken h1 hmax hs hnonce
    obtain ⟨p, q, hS⟩ := (hn m hm).sharedTables
    exact compact_roundtrip hS native native' hdata hpassword htaken ⟨h1, hmax⟩ hs hnonce
  · intro c₁ c₂ p₁ p₂ h₁ h₂ hmessage
    exact compact_canonical h₁ h₂ hmessage

theorem compact_codec_small : ∃ m container,
    encryptBytesCompact (Env.zero.withFuel m) false [7] [1] 1 (List.replicate 16 2)
        (List.replicate 16 3) = .ok container ∧
      decryptBytesCompact (Env.zero.withFuel m) true container [1] = .ok [7] ∧
      ∀ c, decryptBytesCompact (Env.zero.withFuel m) true c [1] = .ok [7] →
        authenticatedMessage container = authenticatedMessage c → container = c := by
  obtain ⟨n, hn⟩ := compact_codec Env.zero (samplingTerminates_of_zero fun _ _ => rfl)
  obtain ⟨container, hwrite, hopen⟩ := (hn n le_rfl false true [1]).1 [7] 1 (List.replicate 16 2)
    (List.replicate 16 3) (by decide) (by decide) (by decide) (by decide) (by decide) rfl rfl
  exact ⟨n, container, hwrite, hopen, fun c hc =>
    (hn n le_rfl true true [1]).2 container c [7] [7] hopen hc⟩

end Krcm.Py
