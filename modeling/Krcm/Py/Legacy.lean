import Krcm.V4.Acceptance
import Krcm.Py.Container

/-!
# Legacy containers

Both v4 readers take the header versions 2, 3 and 4. The reference opens a
container of version 3 with the affine transformation; `decrypt_v4` opens
every version with the tables. On a container with a printed header they agree
unless the two transformations tell its ciphertext apart, or `hashlib` does not
take the password (`readers_agree_iff`).
-/

namespace Krcm.Py

open Base Outcome

/-! ## serde_json on a printed header -/

/-- The value of a printed scalar: a string as it is, an integer exactly where it is a `u64` and no
`u64` otherwise. -/
def ReadsScalar : PyScalar → Json → Prop
  | .int n, v => (0 ≤ n ∧ n < 2 ^ 64 → v = .number (.posInt (.ofNat n.toNat))) ∧
      (¬ (0 ≤ n ∧ n < 2 ^ 64) → v.asU64 = none)
  | .str s, v => v = .string (s.map UInt8.ofNat)

def ReadsMember (member : Str × PyScalar) (read : Bytes × Json) : Prop :=
  read.1 = member.1.map UInt8.ofNat ∧ ReadsScalar member.2 read.2

/-- `serde_json` and base64 on the printed header: the text is read as the object that was printed,
or refused for an integer that is no `u64`. -/
structure ReadsPrinted (E : Env) (header : Header) (data : Bytes) : Prop where
  salt : E.base64Decode (base64 header.salt) = some header.salt
  nonce : E.base64Decode (base64 header.nonce) = some header.nonce
  members : ∀ v, E.jsonFromSlice data = some v →
    ∃ ms, v = .object ms ∧ List.Forall₂ ReadsMember (sortItems header.payload) ms
  words : 0 ≤ header.iterations ∧ header.iterations < 2 ^ 64 →
    0 ≤ header.originalLength ∧ header.originalLength < 2 ^ 64 → ∃ v, E.jsonFromSlice data = some v

variable {E : Env} {I : Interp}

theorem ReadsPrinted.withFuel {header : Header} {data : Bytes} (h : ReadsPrinted E header data)
    (m : Nat) : ReadsPrinted (E.withFuel m) header data := ⟨h.salt, h.nonce, h.members, h.words⟩

theorem readsScalar_word {w : UInt64} {v : Json} :
    ReadsScalar (.int w.toNat) v ↔ v = .number (.posInt w) := by
  have hw := w.toNat_lt
  have hrange : 0 ≤ (w.toNat : Int) ∧ (w.toNat : Int) < 2 ^ 64 := by omega
  have hword : UInt64.ofNat (w.toNat : Int).toNat = w := by
    rw [Int.toNat_natCast, UInt64.ofNat_toNat]
  refine ⟨fun h => ?_, fun h => ⟨fun _ => ?_, fun hn => absurd hrange hn⟩⟩
  · rw [h.1 hrange, hword]
  · rw [h, hword]

/-- An integer that is read as a word is that word. -/
theorem readsScalar_posInt {n : Int} {w : UInt64} (h : ReadsScalar (.int n) (.number (.posInt w))) :
    n = w.toNat := by
  by_cases hrange : 0 ≤ n ∧ n < 2 ^ 64
  · have hw := JsonNumber.posInt.inj (Json.number.inj (h.1 hrange))
    rw [hw, UInt64.toNat_ofNat', Nat.mod_eq_of_lt (by omega)]
    omega
  · cases h.2 hrange

/-- A member of the template is read back as it was printed. -/
theorem Matches.readsMember {member : Str × PyScalar} {printed : Bytes × Scalar}
    (h : Matches member printed) : ReadsMember member (printed.1, printed.2.json) := by
  cases h with
  | @int key hkey w => exact ⟨(map_str key).symm, readsScalar_word.mpr rfl⟩
  | @text key hkey s hs => exact ⟨(map_str key).symm, rfl⟩

/-- Where a v4 header reads back, it reads as it was printed. -/
theorem readsPrinted_of_reads {header : HeaderV4} (hr : E.Reads header)
    (hs : E.base64Encode header.salt.toList = base64 header.salt.toList)
    (hn : E.base64Encode header.nonce.toList = base64 header.nonce.toList) :
    ReadsPrinted E (.ofV4 header) (header.toJsonBytes E) := by
  have hobject : E.jsonFromSlice (header.toJsonBytes E) = some (header.object E) := by
    rw [toJsonBytes_eq]
    exact hr.object
  refine ⟨hs ▸ hr.salt.decode, hn ▸ hr.nonce.decode, fun v hv => ?_, fun _ _ => ⟨_, hobject⟩⟩
  obtain rfl := Option.some.inj (hobject.symm.trans hv)
  exact ⟨_, rfl, List.forall₂_map_right_iff.mpr
    ((matches_members hs hn).imp fun _ _ h => h.readsMember)⟩

/-- The member of a key. -/
theorem get_of_members {members : List (Str × PyScalar)} {ms : List (Bytes × Json)}
    (h : List.Forall₂ ReadsMember members ms) {key : Bytes} {member : Str × PyScalar}
    (hfind : (members.find? fun member => member.1.map UInt8.ofNat == key) = some member) :
    ∃ v, (Json.object ms).get key = some v ∧ ReadsScalar member.2 v := by
  induction h with
  | nil => cases hfind
  | @cons m r members ms hread _ ih =>
    unfold Json.get at ih ⊢
    dsimp only at ih ⊢
    rw [List.find?_cons] at hfind ⊢
    rw [← hread.1] at hfind
    by_cases hkey : (r.1 == key) = true
    · rw [hkey] at hfind ⊢
      obtain rfl := Option.some.inj hfind
      exact ⟨r.2, rfl, hread.2⟩
    · rw [Bool.not_eq_true] at hkey
      rw [hkey] at hfind ⊢
      exact ih hfind

section
variable {members : List (Str × PyScalar)} {ms : List (Bytes × Json)}
  (h : List.Forall₂ ReadsMember members ms) {key : Bytes} {k : Str}
include h

theorem get_word {n : Int} {w : UInt64} (hn : n = w.toNat)
    (hfind : (members.find? fun member => member.1.map UInt8.ofNat == key) = some (k, .int n)) :
    (Json.object ms).get key = some (.number (.posInt w)) := by
  obtain ⟨v, hget, hread⟩ := get_of_members h hfind
  subst hn
  rw [hget, readsScalar_word.mp hread]

theorem word_of_get {n : Int} {w : UInt64}
    (hget : (Json.object ms).get key = some (.number (.posInt w)))
    (hfind : (members.find? fun member => member.1.map UInt8.ofNat == key) = some (k, .int n)) :
    n = w.toNat := by
  obtain ⟨v, hv, hread⟩ := get_of_members h hfind
  obtain rfl := Option.some.inj (hget.symm.trans hv)
  exact readsScalar_posInt hread

theorem get_text {s : Str}
    (hfind : (members.find? fun member => member.1.map UInt8.ofNat == key) = some (k, .str s)) :
    (Json.object ms).get key = some (.string (s.map UInt8.ofNat)) := by
  obtain ⟨v, hget, hread⟩ := get_of_members h hfind
  rw [hget]
  exact congrArg some hread

/-- Bytes that base64 decodes to what it encoded are read as they were printed. -/
theorem bytes_of_get {bytes value : Bytes} (hdecode : E.base64Decode (base64 bytes) = some bytes)
    (hget : ∃ text, (Json.object ms).get key = some (.string text) ∧ E.base64Decode text = some value)
    (hfind : (members.find? fun member => member.1.map UInt8.ofNat == key) =
      some (k, .str (b64encode bytes))) : bytes = value := by
  obtain ⟨text, hget, hvalue⟩ := hget
  rw [get_text h hfind, Option.some.injEq, Json.string.injEq, map_b64encode] at hget
  exact Option.some.inj (hdecode.symm.trans (hget ▸ hvalue))

end

/-- **A printed header reads back in Rust iff its fields are in range**, the length among them. -/
theorem fromJsonBytes_printed_core {header : Header} {data : Bytes} (hr : ReadsPrinted E header data)
    (hv : header.version ∈ supportedVersions) {header' : HeaderV4} :
    HeaderV4.fromJsonBytes E data = .ok header' ↔ header.Valid ∧ header = Header.ofV4 header' := by
  rw [mem_supportedVersions] at hv
  constructor
  · intro h
    obtain ⟨members, hdata⟩ := fromJsonBytes_object h
    obtain ⟨ms, hms, hread⟩ := hr.members _ hdata
    rw [hms] at hdata
    obtain ⟨hrest, version, hversion, hlow, hrange⟩ := (Krcm.fromJsonBytes_eq_ok hdata).mp h
    rw [Header.sort_payload] at hread
    have hversion' := word_of_get hread hversion rfl
    have hiterations := word_of_get hread hrest.iterations rfl
    have hlength := word_of_get hread hrest.originalLength rfl
    have hsalt := bytes_of_get hread hr.salt hrest.salt rfl
    have hnonce := bytes_of_get hread hr.nonce hrest.nonce rfl
    have hnarrow : header'.version.toNat = version.toNat := by
      rw [hlow]
      show version.toNat % 256 = version.toNat
      omega
    have hbounds := hrest.iterations_range
    rw [UInt32.toNat_toUInt64] at hiterations
    refine ⟨⟨hv, by omega, by rw [hsalt, Vector.length_toList], by rw [hnonce, Vector.length_toList],
      by omega⟩, ?_⟩
    unfold Header.ofV4
    rw [hnarrow, ← hversion', ← hiterations, ← hlength, ← hsalt, ← hnonce]
  · rintro ⟨hvalid, heq⟩
    subst heq
    have hiterations := header'.iterations.toNat_lt
    have hlength := header'.originalLength.toNat_lt
    have hwide : header'.iterations.toUInt64.toNat = header'.iterations.toNat :=
      UInt32.toNat_toUInt64 _
    have hversion : header'.version.toUInt64.toNat = header'.version.toNat := UInt8.toNat_toUInt64 _
    obtain ⟨v, hdata⟩ := hr.words (by dsimp only [Header.ofV4]; omega)
      (by dsimp only [Header.ofV4]; omega)
    obtain ⟨ms, rfl, hread⟩ := hr.members v hdata
    rw [Header.sort_payload] at hread
    have hbounds := hvalid.iterations
    have hmagic : (Json.object ms).get (ascii "magic") = some (.string (ascii "AMPCRYPT")) := by
      rw [get_text hread rfl, map_str]
    refine (Krcm.fromJsonBytes_eq_ok hdata).mpr ⟨⟨⟨ms, rfl⟩, hmagic,
      get_word hread (by decide) rfl, get_word hread (by decide) rfl,
      get_word hread (by rw [hwide]; rfl) rfl,
      ?_, get_word hread rfl rfl, ⟨_, get_text hread rfl, ?_⟩, ⟨_, get_text hread rfl, ?_⟩⟩, _,
      get_word hread (by rw [hversion]; rfl) rfl, (UInt8.toUInt8_toUInt64 _).symm, ?_⟩
    · dsimp only [Header.ofV4] at hbounds
      omega
    · rw [map_b64encode]
      exact hr.salt
    · rw [map_b64encode]
      exact hr.nonce
    · dsimp only [Header.ofV4] at hv
      simp only [← UInt8.toNat_inj, UInt8.reduceToNat]
      omega

/-! ## Containers of a printed header -/

/-- A container of given header bytes. -/
def containerWith (headerBytes body : Bytes) : Bytes :=
  magicV4 ++ (beBytes 4 headerBytes.length ++ (headerBytes ++ body))

/-- The frames of a container of given header bytes. -/
theorem containerWith_eq_iff {headerBytes body : Bytes} (hlen : headerBytes.length < 2 ^ 32)
    {frame : FrameV4} (hmax : frame.headerBytes.length ≤ maxHeaderBytes) :
    containerWith headerBytes body = frame.bytes ↔
      frame.headerBytes = headerBytes ∧ body = frame.ciphertext ++ frame.tag := by
  constructor
  · intro h
    unfold containerWith FrameV4.bytes at h
    dsimp only [maxHeaderBytes] at hmax
    obtain ⟨hn, hrest⟩ := List.append_inj (List.append_cancel_left h) (by simp)
    have hlength := beBytes_inj (by omega) (by omega) hn
    obtain ⟨hheader, hbody⟩ := List.append_inj hrest hlength
    exact ⟨hheader.symm, hbody⟩
  · rintro ⟨hheader, hbody⟩
    unfold containerWith FrameV4.bytes
    rw [hheader, hbody]

/-- A body that authenticates under the password: a ciphertext and its tag, and the key of the
ciphertext. -/
structure Authentic (E : Env) (password : Bytes) (header : Header) (headerBytes body : Bytes)
    (ciphertext : Bytes) (encKey : EncKey) : Prop where
  valid : header.Valid
  size : headerBytes ≠ [] ∧ headerBytes.length ≤ maxHeaderBytes
  keys : ∃ authKey,
    Krcm.deriveKeys E password header.salt (.ofNat header.iterations.toNat) = .ok (encKey, authKey) ∧
      body = ciphertext ++ (Krcm.makeTag E authKey headerBytes ciphertext).toList

theorem Authentic.unique {password : Bytes} {header : Header} {headerBytes body c₁ c₂ : Bytes}
    {k₁ k₂ : EncKey} (h₁ : Authentic E password header headerBytes body c₁ k₁)
    (h₂ : Authentic E password header headerBytes body c₂ k₂) : c₁ = c₂ ∧ k₁ = k₂ := by
  obtain ⟨_, hk₁, hb₁⟩ := h₁.keys
  obtain ⟨_, hk₂, hb₂⟩ := h₂.keys
  obtain ⟨rfl, rfl⟩ := Prod.mk.inj (ok.inj (hk₁.symm.trans hk₂))
  rw [hb₁] at hb₂
  exact ⟨(List.append_inj' hb₂ (by simp)).1, rfl⟩

theorem length_containerWith (headerBytes body : Bytes) :
    (containerWith headerBytes body).length = 12 + headerBytes.length + body.length := by
  unfold containerWith
  simp only [List.length_append, length_magicV4, length_beBytes]
  omega

theorem length_ciphertext_lt {headerBytes body ciphertext tag : Bytes}
    (hsize : (containerWith headerBytes body).length < 2 ^ 64) (h : body = ciphertext ++ tag) :
    ciphertext.length < 2 ^ 64 := by
  rw [length_containerWith, h, List.length_append] at hsize
  omega

/-- The bound of the block index. -/
theorem length_ciphertext_le {headerBytes body ciphertext tag : Bytes}
    (hsize : (containerWith headerBytes body).length < 2 ^ 64) (h : body = ciphertext ++ tag) :
    ciphertext.length ≤ 2 ^ 69 :=
  (length_ciphertext_lt hsize h).le.trans (by decide)

theorem ofNat_iterations (header : HeaderV4) :
    UInt32.ofNat (Header.ofV4 header).iterations.toNat = header.iterations := UInt32.ofNat_toNat

/-- The fields of a `HeaderV4` cover every valid header whose length is a word. -/
theorem exists_ofV4 {header : Header} (hvalid : header.Valid)
    (hlength : header.originalLength < 2 ^ 64) :
    ∃ header', header = Header.ofV4 header' := by
  have hversion := hvalid.version
  have hiterations := hvalid.iterations
  have hpos := hvalid.originalLength
  refine ⟨⟨.ofNat header.version.toNat, .ofNat header.iterations.toNat, arrOfList _ hvalid.salt,
    arrOfList _ hvalid.nonce, .ofNat header.originalLength.toNat⟩, ?_⟩
  unfold Header.ofV4
  rw [UInt8.toNat_ofNat', UInt32.toNat_ofNat', UInt64.toNat_ofNat', Nat.mod_eq_of_lt (by omega),
    Nat.mod_eq_of_lt (by omega), Nat.mod_eq_of_lt (by omega), toList_arrOfList, toList_arrOfList,
    Int.toNat_of_nonneg (by omega), Int.toNat_of_nonneg (by omega), Int.toNat_of_nonneg (by omega)]

/-- An authentic body of which the data is the plaintext under the transformation of a version. -/
def OpensAs (E : Env) (password : Bytes) (header : Header) (headerBytes body : Bytes) (version : Int)
    (data : Bytes) : Prop :=
  ∃ ciphertext encKey, Authentic E password header headerBytes body ciphertext encKey ∧
    (data.length : Int) = header.originalLength ∧
    pureEncryptBlocks E (pad data) encKey.key.toList header.nonce version = .ok ciphertext

section
variable {p : Hash → Table 256} {q : Hash → Table 32} (hS : SharedTables E p q)
  {native native' : Bool} {x y nonce : Bytes} {encKey : EncKey} (hnonce : nonce.length = 16) (hy : y.length ≤ 2 ^ 69)
include hS hnonce hy

theorem decryptBlocks_iff_of_length {version : Int} :
    decryptBlocks E native y encKey.key.toList nonce version = .ok x ↔
      encryptBlocks E native x encKey.key.toList nonce version = .ok y := by
  have hiff := @decryptBlocks_iff _ _ _ hS native version encKey (arrOfList nonce hnonce) x y hy
  rwa [toList_arrOfList] at hiff

/-- The extension, and every version but the third, encrypt alike. -/
theorem encryptBlocks_iff_of_ne {version version' : Int} (h : version = 3 ↔ version' = 3) :
    encryptBlocks E native x encKey.key.toList nonce version = .ok y ↔
      encryptBlocks E native' x encKey.key.toList nonce version' = .ok y := by
  obtain ⟨v, rfl⟩ : ∃ v : Nonce, nonce = v.toList :=
    ⟨arrOfList nonce hnonce, (toList_arrOfList _ _).symm⟩
  have hlayers : layersOf E p q version = layersOf E p q version' := by
    unfold layersOf
    simp only [h]
  constructor
  · intro he
    have hx := encryptBlocks_bound he hy
    rw [encryptBlocks_returns_iff hS _ _ _ _ hx] at he ⊢
    rwa [← hlayers]
  · intro he
    have hx := encryptBlocks_bound he hy
    rw [encryptBlocks_returns_iff hS _ _ _ _ hx] at he ⊢
    rwa [hlayers]

end

theorem encryptBlocks_false (x encKey nonce : Bytes) (version : Int) :
    encryptBlocks E false x encKey nonce version = pureEncryptBlocks E x encKey nonce version :=
  if_neg (by simp)

section
variable {p : Hash → Table 256} {q : Hash → Table 32} (hS : SharedTables E p q) {native : Bool}
  {password data headerBytes body : Bytes} {header : Header}
  (hprint : header.toJsonBytes I = .ok headerBytes)
  (hsize : (containerWith headerBytes body).length < 2 ^ 64) (hlen : headerBytes.length < 2 ^ 32)
include hS hprint hsize hlen

/-- **What the reference opens**, by either body of the block engine: the data of the header's
version, under the passwords `hashlib` takes. -/
theorem decryptBytes_printed :
    decryptBytes E I native (containerWith headerBytes body) password = .ok data ↔
      E.Takes password ∧ OpensAs E password header headerBytes body header.version data := by
  rw [decryptBytes_eq_ok]
  refine ⟨?_, ?_⟩
  · rintro ⟨frame, header', hc, hne, hmax, hread, hh⟩
    obtain ⟨hheader, hbody⟩ := (containerWith_eq_iff hlen hmax).mp hc
    rw [hheader] at hread hne hmax
    obtain ⟨hvalid, rfl⟩ := (fromJsonBytes_printed hprint).mp hread
    obtain ⟨encKey, authKey, hk, ht, hd⟩ := hh.keys
    obtain ⟨htaken, -, enc, auth, hcore, rfl, rfl⟩ := deriveKeys_eq_ok.mp hk
    rw [ht, hheader] at hbody
    refine ⟨htaken, frame.ciphertext, enc, ⟨hvalid, ⟨hne, hmax⟩, auth, hcore, hbody⟩, hh.length, ?_⟩
    have hct := length_ciphertext_le hsize hbody
    have he := (decryptBlocks_iff_of_length hS hvalid.nonce hct).mp hd
    rw [← encryptBlocks_false]
    exact (encryptBlocks_iff_of_ne hS hvalid.nonce hct Iff.rfl).mp he
  · rintro ⟨htaken, ciphertext, encKey, hauth, hlength, he⟩
    obtain ⟨authKey, hk, hbody⟩ := hauth.keys
    have hct := length_ciphertext_le hsize hbody
    rw [← encryptBlocks_false] at he
    refine ⟨⟨headerBytes, ciphertext, (Krcm.makeTag E authKey headerBytes ciphertext).toList⟩, header,
      (containerWith_eq_iff hlen hauth.size.2).mpr ⟨rfl, hbody⟩, hauth.size.1, hauth.size.2,
      (fromJsonBytes_printed hprint).mpr ⟨hauth.valid, rfl⟩, ⟨_, _, deriveKeys_eq_ok.mpr
        ⟨htaken, hauth.valid.iterations, encKey, authKey, hk, rfl, rfl⟩, rfl, ?_⟩, hlength⟩
    exact (decryptBlocks_iff_of_length hS hauth.valid.nonce hct).mpr
      ((encryptBlocks_iff_of_ne hS hauth.valid.nonce hct Iff.rfl).mp he)

omit hprint in
/-- **What `decrypt_v4` opens**: the data of version 4, whatever the header's version. -/
theorem decryptV4_printed (hr : ReadsPrinted E header headerBytes)
    (hv : header.version ∈ supportedVersions) :
    decryptV4 E (containerWith headerBytes body) password = .ok data ↔
      OpensAs E password header headerBytes body 4 data := by
  rw [decryptV4_eq_ok]
  refine ⟨?_, ?_⟩
  · rintro ⟨frame, header', hc, hne, hmax, hread, hh⟩
    obtain ⟨hheader, hbody⟩ := (containerWith_eq_iff hlen hmax).mp hc
    rw [hheader] at hread hne hmax
    obtain ⟨hvalid, rfl⟩ := (fromJsonBytes_printed_core hr hv).mp hread
    obtain ⟨encKey, authKey, hk, he, ht⟩ := hh.keys
    rw [ht, hheader] at hbody
    have hct := length_ciphertext_lt hsize hbody
    have hpad : (pad data).length = frame.ciphertext.length := (encryptBlocks_length he).1.symm
    have hdata : data.length < 2 ^ 64 := by
      rw [pad_agrees, length_pad] at hpad
      omega
    refine ⟨frame.ciphertext, encKey, ⟨hvalid, ⟨hne, hmax⟩, authKey, ?_, hbody⟩, ?_, ?_⟩
    · rw [ofNat_iterations]
      exact hk
    · show (data.length : Int) = header'.originalLength.toNat
      rw [hh.length, UInt64.toNat_ofNat', Nat.mod_eq_of_lt hdata]
    · rw [← encryptBlocks_false]
      exact (encryptBlocks_eq_core hS false encKey header'.nonce (by omega)).mpr he
  · rintro ⟨ciphertext, encKey, hauth, hlength, he⟩
    obtain ⟨authKey, hk, hbody⟩ := hauth.keys
    have hct := length_ciphertext_lt hsize hbody
    obtain ⟨nonce, hn⟩ : ∃ nonce : Nonce, header.nonce = nonce.toList :=
      ⟨arrOfList _ hauth.valid.nonce, (toList_arrOfList _ _).symm⟩
    rw [hn, ← encryptBlocks_false] at he
    have hcore := (encryptBlocks_eq_core hS false encKey nonce
      (encryptBlocks_bound he (by omega))).mp he
    have hdata : data.length < 2 ^ 64 := by
      have hpad := (encryptBlocks_length hcore).1
      rw [pad_agrees, length_pad] at hpad
      omega
    obtain ⟨header', rfl⟩ := exists_ofV4 hauth.valid (by omega)
    obtain rfl := Vector.toList_inj.mp hn
    rw [ofNat_iterations] at hk
    refine ⟨⟨headerBytes, ciphertext, (Krcm.makeTag E authKey headerBytes ciphertext).toList⟩,
      header', (containerWith_eq_iff hlen hauth.size.2).mpr ⟨rfl, hbody⟩, hauth.size.1,
      hauth.size.2, (fromJsonBytes_printed_core hr hv).mpr ⟨hauth.valid, rfl⟩,
      ⟨encKey, authKey, hk, hcore, rfl⟩, ?_⟩
    have hlength' : data.length = header'.originalLength.toNat := Int.ofNat_inj.mp hlength
    rw [hlength', UInt64.ofNat_toNat]

end

/-- The bodies that only one of the readers decrypts, all of which authenticate: in a container of
version 3, those that one of the two transformations, but not the other, makes of a plaintext of the
stated length; and where `hashlib` does not take the password, those that the tables make of one. -/
inductive Diverges (E : Env) (password : Bytes) (header : Header) (headerBytes body : Bytes) :
    Prop where
  | version (hversion : header.version = 3) (htaken : E.Takes password)
    {ciphertext : Bytes} {encKey : EncKey} {data : Bytes}
    (hauth : Authentic E password header headerBytes body ciphertext encKey)
    (hlength : (data.length : Int) = header.originalLength)
    (hdiffer : ¬ (pureEncryptBlocks E (pad data) encKey.key.toList header.nonce 3 = .ok ciphertext ↔
      pureEncryptBlocks E (pad data) encKey.key.toList header.nonce 4 = .ok ciphertext))
  | password (hlong : ¬ E.Takes password) {data : Bytes}
    (hopens : OpensAs E password header headerBytes body 4 data)

/-- **When the two readers agree**: on every container with a printed header of a supported version
but for the version 3 containers that only one of the two transformations decrypts, and those that
`decrypt_v4` opens under a password over the bound of `hashlib`. -/
theorem readers_agree_iff (E : Env) (I : Interp) (hT : SamplingTerminates E) :
    ∃ n, ∀ m, n ≤ m → ∀ (native : Bool) (header : Header) (headerBytes body password : Bytes),
      header.version ∈ supportedVersions → header.toJsonBytes I = .ok headerBytes →
      headerBytes.length < 2 ^ 32 → ReadsPrinted E header headerBytes →
      (containerWith headerBytes body).length < 2 ^ 64 →
        ((∀ data, decryptBytes (E.withFuel m) I native (containerWith headerBytes body) password =
              .ok data ↔
            decryptV4 (E.withFuel m) (containerWith headerBytes body) password = .ok data) ↔
          ¬ Diverges (E.withFuel m) password header headerBytes body) := by
  obtain ⟨n, hn⟩ := hT.fuel
  refine ⟨n, fun m hm native header headerBytes body password hv hprint hlen hr hsize => ?_⟩
  obtain ⟨p, q, hS⟩ := (hn m hm).sharedTables
  simp only [decryptBytes_printed hS hprint hsize hlen,
    decryptV4_printed hS hsize hlen (hr.withFuel m) hv]
  refine ⟨?_, ?_⟩
  · intro hagree hdiverges
    cases hdiverges with
    | @version h3 htaken ciphertext encKey data hauth hlength hdiffer =>
      rw [h3] at hagree
      refine hdiffer ⟨fun he => ?_, fun he => ?_⟩
      · obtain ⟨_, _, hauth', -, he'⟩ :=
          (hagree data).mp ⟨htaken, ciphertext, encKey, hauth, hlength, he⟩
        obtain ⟨rfl, rfl⟩ := hauth.unique hauth'
        exact he'
      · obtain ⟨-, _, _, hauth', -, he'⟩ := (hagree data).mpr ⟨ciphertext, encKey, hauth, hlength, he⟩
        obtain ⟨rfl, rfl⟩ := hauth.unique hauth'
        exact he'
    | @password hlong data hopens => exact hlong ((hagree data).mpr hopens).1
  · intro hsame data
    by_cases htaken : (E.withFuel m).Takes password
    · rw [and_iff_right htaken]
      refine exists_congr fun ciphertext => exists_congr fun encKey => and_congr_right fun hauth =>
        and_congr_right fun hlength => ?_
      by_cases h3 : header.version = 3
      · rw [h3]
        by_contra hdiffer
        exact hsame (.version h3 htaken hauth hlength hdiffer)
      · obtain ⟨_, -, hbody⟩ := hauth.keys
        have hct := length_ciphertext_le hsize hbody
        rw [← encryptBlocks_false, ← encryptBlocks_false]
        exact encryptBlocks_iff_of_ne hS hauth.valid.nonce hct
          ⟨fun h => absurd h h3, fun h => absurd h (by decide)⟩
    · exact iff_of_false (fun h => htaken h.1) fun hopens => hsame (.password htaken hopens)

/-! ## A container -/

/-- One iteration, a zero salt and nonce, and no data. -/
def emptyHeader (version : UInt8) : HeaderV4 where
  version := version
  iterations := 1
  salt := Vector.replicate 16 0
  nonce := Vector.replicate 16 0
  originalLength := 0

/-- The environment of an empty header. -/
def emptyEnv (version : UInt8) : Env := Env.ofHeader (emptyHeader version)

def emptyHeaderBytes (version : UInt8) : Bytes := (emptyHeader version).toJsonBytes (emptyEnv version)

theorem emptyEnv_reads (version : UInt8) : (emptyEnv version).Reads (emptyHeader version) := by
  have hzero : (emptyEnv version).Encodes (List.replicate 16 0) := ⟨rfl, rfl⟩
  exact ⟨hzero, hzero, jsonOfText_self _ _⟩

theorem emptyEnv_encodes (version : UInt8) :
    (emptyEnv version).base64Encode (List.replicate 16 0) = base64 (List.replicate 16 0) := by
  show ascii "AAAAAAAAAAAAAAAAAAAAAA==" = _
  decide

theorem emptyHeaderBytes_printed (version : UInt8) (I : Interp) :
    (Header.ofV4 (emptyHeader version)).toJsonBytes I = .ok (emptyHeaderBytes version) :=
  toJsonBytes_agrees (emptyEnv_encodes version) (emptyEnv_encodes version) I

theorem emptyHeaderBytes_reads (version : UInt8) :
    ReadsPrinted (emptyEnv version) (.ofV4 (emptyHeader version)) (emptyHeaderBytes version) :=
  readsPrinted_of_reads (emptyEnv_reads version) (emptyEnv_encodes version) (emptyEnv_encodes version)

theorem length_emptyHeaderBytes (version : UInt8) : emptyHeaderBytes version ≠ [] ∧
    (emptyHeaderBytes version).length ≤ maxHeaderBytes := by
  obtain ⟨hpos, hmax⟩ := (emptyEnv_reads version).length_toJsonBytes
  exact ⟨List.ne_nil_of_length_pos hpos, hmax⟩

theorem emptyEnv_terminates (version : UInt8) : SamplingTerminates (emptyEnv version) :=
  samplingTerminates_of_zero fun _ _ => rfl

theorem emptyEnv_takes (version : UInt8) : (emptyEnv version).Takes [1] := by
  rintro _ ⟨⟩
  decide

theorem readers_agree_version4 : ∃ m, ∀ data,
    decryptBytes ((emptyEnv 4).withFuel m) .default true
        (containerWith (emptyHeaderBytes 4) (List.replicate 64 0)) [1] = .ok data ↔
      decryptV4 ((emptyEnv 4).withFuel m)
        (containerWith (emptyHeaderBytes 4) (List.replicate 64 0)) [1] = .ok data := by
  obtain ⟨n, hn⟩ := readers_agree_iff (emptyEnv 4) .default (emptyEnv_terminates 4)
  have hmax := (length_emptyHeaderBytes 4).2
  dsimp only [maxHeaderBytes] at hmax
  have hsize : (containerWith (emptyHeaderBytes 4) (List.replicate 64 0)).length < 2 ^ 64 := by
    rw [length_containerWith, List.length_replicate]
    omega
  refine ⟨n, (hn n le_rfl true (.ofV4 (emptyHeader 4)) (emptyHeaderBytes 4) (List.replicate 64 0) [1]
    (by decide) (emptyHeaderBytes_printed 4 _) (by omega) (emptyHeaderBytes_reads 4) hsize).mpr
    fun hdiverges => ?_⟩
  cases hdiverges with
  | version h3 => exact absurd h3 (by decide)
  | password hlong => exact hlong (Env.takes_withFuel.mpr (emptyEnv_takes 4))

/-! ## Rounds under zero hashes -/

theorem get_positionTable_zero (i : Fin 32) : (positionTable (Vector.replicate 32 0)).get i = i := by
  refine Fin.ext ((get_affineTable (positionMultiplier_odd _) i).trans ?_)
  have hbyte (j : Nat) (hj : j < 32) : (Vector.replicate 32 (0 : UInt8))[j] = 0 :=
    Vector.getElem_replicate hj
  rw [hbyte, hbyte]
  show (1 * i.val + 0) % 32 = i.val
  omega

section
variable (hz : ∀ k d, E.hmacSha256 k d = Vector.replicate 32 0)
include hz

theorem substituteV3_zero (s : Block) :
    (affineLayers E).substitute (Vector.replicate 32 0) s = s := by
  have hmultiplier : byteMultiplier (Vector.replicate 32 0) = 1 := by
    unfold byteMultiplier
    rw [Vector.getElem_replicate]
    decide
  unfold affineLayers
  dsimp only
  rw [hmultiplier, hkdfExpandLike_zero hz, Vector.getElem_replicate]
  apply Vector.ext
  intro i hi
  rw [getElem_substituteV3, Vector.getElem_replicate, UInt8.one_mul, UInt8.add_zero, UInt8.add_zero]

theorem encryptRound_affine_zero (seed : Bytes) (s : Block) (r : Nat) :
    (affineLayers E).encryptRound E seed s r = spread s := by
  have hseed : Krcm.roundSeed E seed r = Vector.replicate 32 0 := hz _ _
  unfold Layers.encryptRound
  dsimp only
  rw [hseed, mixBlock_zero hz, diffuseBytes_zero hz, substituteV3_zero hz]
  refine (Table.gather_of_get get_positionTable_zero _).trans ?_
  exact Vector.ext fun i hi => Vector.getElem_ofFn hi

end

/-- The padding of no data under the affine layers. -/
def affineBlock : Block :=
  #v[128, 128, 64, 192, 192, 64, 0, 0, 0, 0, 96, 96, 160, 160, 192, 192,
    64, 64, 96, 96, 160, 160, 0, 0, 0, 0, 0, 128, 0, 128, 0, 0]

theorem affineBlock_eq :
    (List.range rounds).foldl (fun s _ => spread s) (Vector.replicate 32 32) = affineBlock := by
  decide +kernel

theorem affineBlock_ne :
    (List.range rounds).foldl (fun s _ => turn s) (Vector.replicate 32 32) ≠ affineBlock := by
  decide +kernel

/-- Its ciphertext and the tag. -/
def affineBody : Bytes := affineBlock.toList ++ List.replicate 32 0

theorem affineBody_authentic (m : Nat) : Authentic ((emptyEnv 3).withFuel m) [1]
    (.ofV4 (emptyHeader 3)) (emptyHeaderBytes 3) affineBody affineBlock.toList
    ⟨Vector.replicate 32 0⟩ where
  valid := ⟨by decide, by decide, by decide, by decide, by decide⟩
  size := length_emptyHeaderBytes 3
  keys := by
    refine ⟨⟨Vector.replicate 32 0⟩, ?_, ?_⟩
    · unfold Krcm.deriveKeys
      rw [rejectIf_false (by decide), ok_bind, rejectIf_false (by decide), ok_bind]
      rfl
    · unfold affineBody Krcm.makeTag
      rfl

/-- **The two readers differ on version 3**: the reference opens this container, to no data, and
`decrypt_v4` opens it to other data or refuses it. -/
theorem readers_disagree_version3 :
    (Header.ofV4 (emptyHeader 3)).toJsonBytes .default = .ok (emptyHeaderBytes 3) ∧
      ∃ n, ∀ m, n ≤ m → ∀ native,
        decryptBytes ((emptyEnv 3).withFuel m) .default native
            (containerWith (emptyHeaderBytes 3) affineBody) [1] = .ok [] ∧
          decryptV4 ((emptyEnv 3).withFuel m) (containerWith (emptyHeaderBytes 3) affineBody) [1] ≠
            .ok [] := by
  obtain ⟨n, hn⟩ := (emptyEnv_terminates 3).fuel
  refine ⟨emptyHeaderBytes_printed 3 .default, n + 1, fun m hm native => ?_⟩
  obtain ⟨p, q, hS⟩ := (hn m (by omega)).sharedTables
  have hz (k d : Bytes) : ((emptyEnv 3).withFuel m).hmacSha256 k d = Vector.replicate 32 0 := rfl
  have hfuel : 0 < ((emptyEnv 3).withFuel m).fuel := by
    show 0 < m
    omega
  obtain ⟨hp, hq⟩ := hS.derives.get_zero hz hfuel
  have hmax := (length_emptyHeaderBytes 3).2
  dsimp only [maxHeaderBytes] at hmax
  have hsize : (containerWith (emptyHeaderBytes 3) affineBody).length < 2 ^ 64 := by
    rw [length_containerWith, show affineBody.length = 64 by decide]
    omega
  have htaken : ((emptyEnv 3).withFuel m).Takes [1] := Env.takes_withFuel.mpr (emptyEnv_takes 3)
  have hauth := affineBody_authentic m
  have hpad : pad [] = joinBlocks [Vector.replicate 32 32] := by decide
  have hruns (version : Int) := @pureEncryptBlocks_agrees _ _ _ hS version
    ⟨Vector.replicate 32 0⟩ (Vector.replicate 16 0) [Vector.replicate 32 32] (by decide)
  rw [Ne, decryptBytes_printed hS (emptyHeaderBytes_printed 3 .default) hsize (by omega),
    decryptV4_printed hS hsize (by omega) ((emptyHeaderBytes_reads 3).withFuel m) (by decide)]
  refine ⟨⟨htaken, _, _, hauth, rfl, ?_⟩, ?_⟩
  · rw [hpad]
    refine (hruns 3).trans ?_
    rw [layersOf_three, Layers.encryptBlocks_alike (encryptRound_affine_zero hz), affineBlock_eq]
    exact congrArg Outcome.ok (List.append_nil _)
  · rintro ⟨_, _, hauth', -, he⟩
    obtain ⟨rfl, rfl⟩ := hauth.unique hauth'
    rw [hpad] at he
    have hjoin := ok.inj ((hruns 4).symm.trans he)
    rw [layersOf_ne (by decide),
      Layers.encryptBlocks_alike (encryptRound_tables_zero hz hp hq)] at hjoin
    exact affineBlock_ne (List.cons.inj (joinBlocks_injective
      (hjoin.trans (List.append_nil affineBlock.toList).symm : _ = joinBlocks [affineBlock]))).1

end Krcm.Py
