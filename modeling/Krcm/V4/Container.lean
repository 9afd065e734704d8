import Krcm.Blocks
import Krcm.Padding
import Krcm.V4.Header

/-!
# The v4 container

`format_v4.rs`. A `FrameV4` is the three variable parts of a container;
`parseContainerV4` is `decrypt_v4` up to the key derivation, and
`decryptV4_eq_ok` is the exact acceptance of `decrypt_v4`.
-/

namespace Krcm

open Base Outcome

structure EncryptV4Options where
  iterations : UInt32
  salt : Option Salt
  nonce : Option Nonce

/-- What `OsRng` gives a run of `encrypt_v4`. -/
structure CoinsV4 where
  salt : Salt
  nonce : Nonce

structure FrameV4 where
  headerBytes : Bytes
  ciphertext : Bytes
  tag : Bytes

/-- The container, as `encrypt_v4` writes it. -/
def FrameV4.bytes (frame : FrameV4) : Bytes :=
  magicV4 ++ (beBytes 4 frame.headerBytes.length ++ (frame.headerBytes ++
    (frame.ciphertext ++ frame.tag)))

/-- The header of a run. -/
def EncryptV4Options.header (opts : EncryptV4Options) (coins : CoinsV4) (data : Bytes) : HeaderV4 :=
  .new opts.iterations (opts.salt.getD coins.salt) (opts.nonce.getD coins.nonce) (.ofNat data.length)

/-- `a.checked_add(b)` in `usize`. -/
def checkedAddUsize (a b : Nat) : Option Nat := if a + b < 2 ^ 64 then some (a + b) else none

section model

variable (E : Env)

/-- `encrypt_v4` up to the writing of the container. -/
def sealV4 (data password : Bytes) (opts : EncryptV4Options) (coins : CoinsV4) : Run FrameV4 := do
  rejectIf (opts.iterations = 0 ∨ opts.iterations > maxPbkdf2Iterations) .invalidParameter
  let header := opts.header coins data
  let (encKey, authKey) ← deriveKeys E password header.salt.toList opts.iterations
  let ciphertext ← encryptBlocks E (pad data) encKey header.nonce.toList
  let headerBytes := header.toJsonBytes E
  let tag := makeTag E authKey headerBytes ciphertext
  .ok ⟨headerBytes, ciphertext, tag.toList⟩

def encryptV4 (data password : Bytes) (opts : EncryptV4Options) (coins : CoinsV4) : Run Bytes := do
  let frame ← sealV4 E data password opts coins
  .ok frame.bytes

/-- `decrypt_v4` up to the derivation of the keys. -/
def parseContainerV4 (container : Bytes) : Run (FrameV4 × HeaderV4) := do
  rejectIf (container.length < magicV4.length + 4 + tagBytes) .format
  let magic ← slice container 0 magicV4.length
  rejectIf (magic ≠ magicV4) .format
  let lenBytes ← slice container magicV4.length (magicV4.length + 4)
  let headerLen := beNat lenBytes
  let start := magicV4.length + 4
  let headerEnd ← okOr (checkedAddUsize start headerLen) .format
  rejectIf (headerLen = 0 ∨ headerLen > maxHeaderBytes) .format
  let limit ← E.add headerEnd tagBytes
  rejectIf (limit > container.length) .format
  let headerBytes ← slice container start headerEnd
  let header ← HeaderV4.fromJsonBytes E headerBytes
  let ciphertext ← slice container headerEnd (container.length - tagBytes)
  let tag ← slice container (container.length - tagBytes) container.length
  .ok (⟨headerBytes, ciphertext, tag⟩, header)

/-- `decrypt_v4` from the derivation of the keys on. -/
def openFrameV4 (password : Bytes) (frame : FrameV4) (header : HeaderV4) : Run Bytes := do
  let (encKey, authKey) ← deriveKeys E password header.salt.toList header.iterations
  let expected := makeTag E authKey frame.headerBytes frame.ciphertext
  rejectIf (frame.tag ≠ expected.toList) .authentication
  let padded ← decryptBlocks E frame.ciphertext encKey header.nonce.toList
  let plain ← unpad padded
  rejectIf (.ofNat plain.length ≠ header.originalLength) .authentication
  .ok plain

def decryptV4 (container password : Bytes) : Run Bytes := do
  let (frame, header) ← parseContainerV4 E container
  openFrameV4 E password frame header

end model

/-! ## Framing -/

variable {E : Env}

theorem checkedAddUsize_ok {a b : Nat} (h : a + b < 2 ^ 64) : checkedAddUsize a b = some (a + b) := if_pos h

/-- The container is a written frame iff each field is found at its place. -/
theorem slice_frameV4 {container : Bytes} {frame : FrameV4} :
    slice container 0 container.length = (.ok frame.bytes : Run Bytes) ↔
      let e := 12 + frame.headerBytes.length
      let t := e + frame.ciphertext.length
      slice container 0 8 = (.ok magicV4 : Run Bytes) ∧
        slice container 8 12 = (.ok (beBytes 4 frame.headerBytes.length) : Run Bytes) ∧
        slice container 12 e = (.ok frame.headerBytes : Run Bytes) ∧
        slice container e t = (.ok frame.ciphertext : Run Bytes) ∧
        slice container t container.length = (.ok frame.tag : Run Bytes) := by
  simp only [FrameV4.bytes, slice_append_iff, length_magicV4, length_beBytes, Nat.zero_add,
    Nat.reduceAdd]

/-- **What the framing accepts**: written frames with a short header that parses and a tag of 32
bytes. -/
theorem parseContainerV4_eq_ok {container : Bytes} {frame : FrameV4} {header : HeaderV4} :
    parseContainerV4 E container = .ok (frame, header) ↔
      container = frame.bytes ∧ frame.headerBytes ≠ [] ∧
        frame.headerBytes.length ≤ maxHeaderBytes ∧ frame.tag.length = 32 ∧
        HeaderV4.fromJsonBytes E frame.headerBytes = .ok header := by
  constructor
  · intro h
    simp only [parseContainerV4, bind_eq_ok, rejectIf_eq_ok, okOr_eq_ok, not_not] at h
    simp only [length_magicV4] at h
    obtain ⟨_, hmin, _, h0, _, rfl, lenBytes, h8, headerEnd, hend, _, hrange, limit, hlimit, _, hle,
      headerBytes, h12, header', hp, ciphertext, hct, tag, htag, h⟩ := h
    cases h
    rw [not_or, not_lt] at hrange
    dsimp only [tagBytes, maxHeaderBytes] at hmin hrange hlimit hle hct htag
    rw [checkedAddUsize_ok (by omega)] at hend
    obtain rfl := Option.some.inj hend
    rw [Env.add_ok (by omega)] at hlimit
    obtain rfl := ok.inj hlimit
    have hheader := (slice_bounds h12).2.2
    have hciphertext := (slice_bounds hct).2.2
    have hlen : beNat lenBytes = headerBytes.length := by omega
    have hfield : slice container 8 12 = (.ok (beBytes 4 headerBytes.length) : Run Bytes) :=
      (slice_beNat (n := 4) rfl (by omega)).mp ⟨_, h8, hlen⟩
    rw [hlen] at h12 hct hle hrange hciphertext
    obtain ⟨-, -, htag'⟩ := slice_bounds htag
    have ht : container.length - 32 = 12 + headerBytes.length + ciphertext.length := by omega
    rw [ht] at hct htag
    have hslice : slice container 0 container.length =
        (.ok (FrameV4.bytes ⟨headerBytes, ciphertext, tag⟩) : Run Bytes) :=
      slice_frameV4.mpr ⟨h0, hfield, h12, hct, htag⟩
    exact ⟨(slice_all hslice rfl).symm, List.ne_nil_of_length_pos (by dsimp only; omega), hrange.2,
      by dsimp only; omega, hp⟩
  · rintro ⟨hc, hne, hmax, ht, hp⟩
    have hslice : slice container 0 container.length = (.ok frame.bytes : Run Bytes) :=
      slice_zero_iff.mpr ⟨by rw [hc], [], by rw [hc, List.append_nil]⟩
    obtain ⟨h0, h8, h12, hct, htag⟩ := slice_frameV4.mp hslice
    obtain ⟨-, -, hlen⟩ := slice_bounds htag
    have hle := (slice_bounds hct).2.1
    have hpos := List.length_pos_iff.mpr hne
    have hlt : 12 + frame.headerBytes.length + frame.ciphertext.length = container.length - 32 := by
      omega
    rw [hlt] at hct htag
    have hnat : beNat (beBytes 4 frame.headerBytes.length) = frame.headerBytes.length := by
      rw [beNat_beBytes, Nat.mod_eq_of_lt (by dsimp only [maxHeaderBytes] at hmax; omega)]
    simp only [parseContainerV4, bind_eq_ok, rejectIf_eq_ok, okOr_eq_ok, not_not]
    simp only [length_magicV4]
    dsimp only [maxHeaderBytes] at hmax
    refine ⟨(), by dsimp only [tagBytes]; omega, _, h0, (), rfl, _, h8, _,
      checkedAddUsize_ok (by omega), (), by rw [hnat, not_or, not_lt]; exact ⟨by omega, hmax⟩, _,
      Env.add_ok (by dsimp only [tagBytes]; omega), (), by dsimp only [tagBytes]; omega, _,
      by rw [hnat]; exact h12, header, hp, _, by rw [hnat]; exact hct, _, htag, rfl⟩

/-! ## Acceptance -/

variable {password data : Bytes}

/-- A frame of which decryption under the password returns the data: the tag and the ciphertext
are those of the padded data, and the header states its length. -/
structure HoldsV4 (E : Env) (password data : Bytes) (frame : FrameV4) (header : HeaderV4) :
    Prop where
  keys : ∃ encKey authKey,
    deriveKeys E password header.salt.toList header.iterations = .ok (encKey, authKey) ∧
      encryptBlocks E (pad data) encKey header.nonce.toList = .ok frame.ciphertext ∧
      frame.tag = (makeTag E authKey frame.headerBytes frame.ciphertext).toList
  length : header.originalLength = .ofNat data.length

theorem openFrameV4_eq_ok {frame : FrameV4} {header : HeaderV4} :
    openFrameV4 E password frame header = .ok data ↔ HoldsV4 E password data frame header := by
  simp only [openFrameV4, bind_eq_ok, rejectIf_eq_ok, not_not, ok.injEq, Prod.exists]
  constructor
  · rintro ⟨encKey, authKey, hk, _, ht, padded, hd, plain, hp, _, hl, heq⟩
    subst heq
    rw [unpad_eq_ok.mp hp] at hd
    exact ⟨⟨encKey, authKey, hk, (encryptBlocks_iff _ _).mpr hd, ht⟩, hl.symm⟩
  · rintro ⟨⟨encKey, authKey, hk, hc, ht⟩, hl⟩
    exact ⟨encKey, authKey, hk, (), ht, _, (encryptBlocks_iff _ _).mp hc, data, unpad_pad data, (),
      hl.symm, rfl⟩

/-- **What `decrypt_v4` accepts.** -/
theorem decryptV4_eq_ok {container : Bytes} : decryptV4 E container password = .ok data ↔
    ∃ frame header, container = frame.bytes ∧ frame.headerBytes ≠ [] ∧
      frame.headerBytes.length ≤ maxHeaderBytes ∧
      HeaderV4.fromJsonBytes E frame.headerBytes = .ok header ∧
      HoldsV4 E password data frame header := by
  simp only [decryptV4, bind_eq_ok, Prod.exists, parseContainerV4_eq_ok, openFrameV4_eq_ok]
  refine ⟨fun ⟨frame, header, ⟨hc, hne, hmax, _, hp⟩, hh⟩ => ⟨frame, header, hc, hne, hmax, hp, hh⟩,
    fun ⟨frame, header, hc, hne, hmax, hp, hh⟩ => ?_⟩
  obtain ⟨encKey, authKey, -, -, ht⟩ := hh.keys
  exact ⟨frame, header, ⟨hc, hne, hmax, by rw [ht, Vector.length_toList], hp⟩, hh⟩

/-! ## Runs of encryption -/

variable {opts : EncryptV4Options} {coins : CoinsV4}

/-- A run writes the printed header and a frame that holds the data. -/
theorem sealV4_holds {frame : FrameV4} (h : sealV4 E data password opts coins = .ok frame) :
    (opts.iterations ≠ 0 ∧ opts.iterations ≤ maxPbkdf2Iterations) ∧
      frame.headerBytes = (opts.header coins data).toJsonBytes E ∧
      HoldsV4 E password data frame (opts.header coins data) := by
  simp only [sealV4, bind_eq_ok, rejectIf_eq_ok, ok.injEq, Prod.exists] at h
  obtain ⟨_, hrange, encKey, authKey, hk, ciphertext, hc, hframe⟩ := h
  subst hframe
  rw [not_or, gt_iff_lt, UInt32.not_lt] at hrange
  exact ⟨hrange, rfl, ⟨encKey, authKey, hk, hc, rfl⟩, rfl⟩

theorem sealV4_returns (hE : E.ShufflesReturn) (hpw : password ≠ []) (h0 : opts.iterations ≠ 0)
    (hm : opts.iterations ≤ maxPbkdf2Iterations) :
    ∃ frame, sealV4 E data password opts coins = .ok frame := by
  let header := opts.header coins data
  obtain ⟨⟨encKey, authKey⟩, hk⟩ := deriveKeys_ok (E := E) hpw
    (show header.salt.toList.length = saltBytes from Vector.length_toList) h0 hm
  obtain ⟨ciphertext, hc⟩ := encryptBlocks_returns hE encKey header.nonce.toList
    (length_pad_mod data)
  unfold sealV4
  rw [rejectIf_false (by simp [h0, hm]), ok_bind]
  dsimp only
  rw [hk, ok_bind]
  dsimp only
  rw [hc, ok_bind]
  exact ⟨_, rfl⟩

/-- **What a run wrote opens again**, where its header reads back. -/
theorem sealV4_decrypts (hr : E.Reads (opts.header coins data)) {frame : FrameV4}
    (h : sealV4 E data password opts coins = .ok frame) :
    HeaderV4.fromJsonBytes E frame.headerBytes = .ok (opts.header coins data) ∧
      decryptV4 E frame.bytes password = .ok data := by
  obtain ⟨⟨h0, hm⟩, hheader, hh⟩ := sealV4_holds h
  have hread : HeaderV4.fromJsonBytes E frame.headerBytes = .ok (opts.header coins data) := by
    rw [hheader]
    exact hr.fromJsonBytes_toJsonBytes
      ⟨show 2 ≤ versionV4 by decide, show versionV4 ≤ 4 by decide⟩ h0 hm
  obtain ⟨hpos, hmax⟩ := hr.length_toJsonBytes
  rw [← hheader] at hpos hmax
  exact ⟨hread, decryptV4_eq_ok.mpr
    ⟨frame, _, rfl, List.ne_nil_of_length_pos hpos, hmax, hread, hh⟩⟩

/-! ## Small runs -/

/-- Zero hashes, and base64 on sixteen zero bytes. -/
def Env.zeroBase64 : Env := { Env.zero with
  base64Encode := fun bytes =>
    if bytes = List.replicate 16 0 then ascii "AAAAAAAAAAAAAAAAAAAAAA==" else []
  base64Decode := fun text =>
    if text = ascii "AAAAAAAAAAAAAAAAAAAAAA==" then some (List.replicate 16 0) else none }

/-- A parser of one text and the whitespace behind it. -/
def jsonOfText (text : Bytes) (value : Json) (bytes : Bytes) : Option Json :=
  if bytes.take text.length = text ∧ (bytes.drop text.length).all isJsonWhitespace then some value
  else none

def Env.ofHeader (header : HeaderV4) : Env := { Env.zeroBase64 with
  jsonFromSlice := jsonOfText (printObject (header.members Env.zeroBase64))
    (header.object Env.zeroBase64) }

theorem jsonOfText_self (text : Bytes) (value : Json) : jsonOfText text value text = some value := by
  unfold jsonOfText
  rw [List.take_length, List.drop_length, if_pos ⟨rfl, rfl⟩]

theorem jsonOfText_append {text bytes rest : Bytes} {value v w : Json}
    (h : jsonOfText text value bytes = some v) (h' : jsonOfText text value (bytes ++ rest) = some w) :
    (∀ b ∈ rest, isJsonWhitespace b) ∧ v = w := by
  unfold jsonOfText at h h'
  split at h
  · next hc =>
    split at h'
    · next hc' =>
      have hle : text.length ≤ bytes.length := by
        rw [← hc.1, List.length_take]
        exact Nat.min_le_right _ _
      rw [List.drop_append_of_le_length hle, List.all_append, Bool.and_eq_true] at hc'
      exact ⟨List.all_eq_true.mp hc'.2.2, Option.some.inj (h.symm.trans h')⟩
    · cases h'
  · cases h

def CoinsV4.zero : CoinsV4 where
  salt := Vector.replicate 16 0
  nonce := Vector.replicate 16 0

/-- One PBKDF2 iteration, and a drawn salt and nonce. -/
def EncryptV4Options.small : EncryptV4Options where
  iterations := 1
  salt := none
  nonce := none

theorem EncryptV4Options.small_iterations : EncryptV4Options.small.iterations ≠ 0 ∧
    EncryptV4Options.small.iterations ≤ maxPbkdf2Iterations := by
  decide

/-- The header of a small run reads back. -/
theorem ofHeader_reads (data : Bytes) :
    (Env.ofHeader (EncryptV4Options.small.header .zero data)).Reads
      (EncryptV4Options.small.header .zero data) := by
  have hzero : (Env.ofHeader (EncryptV4Options.small.header .zero data)).Encodes
      (List.replicate 16 0) := ⟨rfl, rfl⟩
  exact ⟨hzero, hzero, jsonOfText_self _ _⟩

theorem ofHeader_objects (header : HeaderV4) : (Env.ofHeader header).ObjectsEndInWhitespace := by
  intro text rest members members' h h'
  obtain ⟨hrest, heq⟩ := jsonOfText_append h h'
  exact ⟨hrest, Json.object.inj heq⟩

theorem ofHeader_shufflesTerminate (header : HeaderV4) : (Env.ofHeader header).ShufflesTerminate :=
  shufflesTerminate_of_zero fun _ _ => rfl

/-- A small run returns and its container opens. -/
theorem small_opens (data : Bytes) : ∃ n frame,
    decryptV4 ((Env.ofHeader (EncryptV4Options.small.header .zero data)).withFuel n)
      (FrameV4.bytes frame) [1] = .ok data := by
  obtain ⟨h0, hm⟩ := EncryptV4Options.small_iterations
  obtain ⟨n, hn⟩ := (ofHeader_shufflesTerminate (EncryptV4Options.small.header .zero data)).fuel
  obtain ⟨frame, hf⟩ :=
    @sealV4_returns _ [1] data .small .zero (hn n le_rfl) (List.cons_ne_nil _ _) h0 hm
  exact ⟨n, frame, (sealV4_decrypts ((ofHeader_reads data).withFuel n) hf).2⟩

end Krcm
