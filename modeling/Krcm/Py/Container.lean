import Krcm.V4.Container
import Krcm.Py.Blocks
import Krcm.Py.Header

/-!
# The container of the Python reference

`encrypt_bytes` and `decrypt_bytes` of `core.py`, on the frames of the v4
container. `decryptBytes_eq_ok` is the exact acceptance of the reader, and
the two writers return the same bytes (`writers_agree`).
-/

namespace Krcm.Py

open Base Outcome

/-! ## Padding -/

def pad (data : Bytes) : Bytes :=
  let padLen := blockBytes - data.length % blockBytes
  let padLen := if padLen = 0 then blockBytes else padLen
  data ++ List.replicate padLen (UInt8.ofNat padLen)

def unpad (data : Bytes) : PyRun Bytes := do
  rejectIf (data = [] ∨ data.length % blockBytes ≠ 0) .formatError
  let last ← okOr data.getLast? .indexError
  let padLen := last.toNat
  rejectIf (padLen < 1 ∨ padLen > blockBytes) .authenticationError
  rejectIf (sliceLast data padLen ≠ List.replicate padLen (UInt8.ofNat padLen)) .authenticationError
  .ok (dropLast data padLen)

theorem pad_agrees (data : Bytes) : pad data = Krcm.pad data := rfl

section
variable {α : Type} {l m : List α} {n : Nat}

theorem sliceLast_append (h : m.length = n) (hn : n ≠ 0) : sliceLast (l ++ m) n = m := by
  have hdrop : (l ++ m).length - n = l.length := by
    rw [List.length_append]
    omega
  unfold sliceLast
  rw [if_neg hn, hdrop, List.drop_left]

theorem dropLast_append (h : m.length = n) (hn : n ≠ 0) : dropLast (l ++ m) n = l := by
  have htake : (l ++ m).length - n = l.length := by
    rw [List.length_append]
    omega
  unfold dropLast
  rw [if_neg hn, htake, List.take_left]

theorem dropLast_append_sliceLast (hn : n ≠ 0) : dropLast l n ++ sliceLast l n = l := by
  unfold dropLast sliceLast
  rw [if_neg hn, if_neg hn, List.take_append_drop]

end

/-- **`_unpad` accepts exactly the images of `_pad`.** -/
theorem unpad_eq_ok {x y : Bytes} : unpad x = .ok y ↔ x = pad y := by
  rw [pad_agrees]
  refine ⟨?_, ?_⟩
  · intro h
    simp only [unpad, blockBytes, bind_eq_ok, rejectIf_eq_ok, okOr_eq_ok, not_not, ok.injEq] at h
    obtain ⟨_, hx, last, -, _, hrange, _, hpadding, rfl⟩ := h
    rw [not_or, not_not] at hx
    have hne : last.toNat ≠ 0 := by omega
    have hjoin := dropLast_append_sliceLast (l := x) hne
    rw [hpadding] at hjoin
    have hlen := congrArg List.length hjoin
    rw [List.length_append, List.length_replicate] at hlen
    have hpad : padLength (dropLast x last.toNat) = last.toNat := by
      unfold padLength
      omega
    rw [pad_eq, hpad, hjoin]
  · intro h
    subst h
    have hb := padLength_bounds y
    have hne : padLength y ≠ 0 := by omega
    have hsplit := pad_eq y
    have hrep : (List.replicate (padLength y) (UInt8.ofNat (padLength y))).length = padLength y :=
      List.length_replicate
    unfold unpad
    rw [rejectIf_false (by simp [pad_ne_nil, length_pad_mod]), ok_bind, getLast_pad]
    dsimp only [okOr, ok_bind]
    rw [toNat_padLength, rejectIf_false (by simp only [blockBytes]; omega), ok_bind, hsplit,
      rejectIf_false (not_not.mpr (sliceLast_append hrep hne)), ok_bind, dropLast_append hrep hne]

/-- What is left is rejected with an error of the package; the last byte is never missing. -/
theorem unpad_rejects {x : Bytes} (h : ∀ y, x ≠ pad y) :
    unpad x = .err .formatError ∨ unpad x = .err .authenticationError := by
  by_cases hshape : x = [] ∨ x.length % blockBytes ≠ 0
  · left
    unfold unpad
    rw [rejectIf_true hshape, err_bind]
  have hne : x ≠ [] := fun hnil => hshape (.inl hnil)
  have hlast : x.getLast? = some (x.getLast hne) := List.getLast?_eq_some_getLast hne
  right
  by_cases hrange : (x.getLast hne).toNat < 1 ∨ (x.getLast hne).toNat > blockBytes
  · unfold unpad
    rw [rejectIf_false hshape, ok_bind, hlast]
    dsimp only [okOr, ok_bind]
    rw [rejectIf_true hrange, err_bind]
  by_cases hbytes : sliceLast x (x.getLast hne).toNat ≠
      List.replicate (x.getLast hne).toNat (UInt8.ofNat (x.getLast hne).toNat)
  · unfold unpad
    rw [rejectIf_false hshape, ok_bind, hlast]
    dsimp only [okOr, ok_bind]
    rw [rejectIf_false hrange, ok_bind, rejectIf_true hbytes, err_bind]
  · have hok : unpad x = .ok (dropLast x (x.getLast hne).toNat) := by
      unfold unpad
      rw [rejectIf_false hshape, ok_bind, hlast]
      dsimp only [okOr, ok_bind]
      rw [rejectIf_false hrange, ok_bind, rejectIf_false hbytes, ok_bind]
    exact absurd (unpad_eq_ok.mp hok) (h _)

/-- **Padding is an exact codec**, in both languages: `unpad` returns `y` on `pad y` alone and
rejects what is no image of `pad`, and `pad y` is a shortest longer string of whole blocks. -/
theorem padding_codec (x y : Bytes) :
    (Krcm.unpad x = .ok y ↔ x = Krcm.pad y) ∧ (unpad x = .ok y ↔ x = pad y) ∧
      ((∀ z, x ≠ Krcm.pad z) → ∃ e, Krcm.unpad x = .err e) ∧
      ((∀ z, x ≠ pad z) →
        unpad x = .err .formatError ∨ unpad x = .err .authenticationError) ∧
      pad y = Krcm.pad y ∧ y <+: pad y ∧
      (pad y).length % 32 = 0 ∧ y.length < (pad y).length ∧
      ∀ z : Bytes, z.length % 32 = 0 → y.length < z.length → (pad y).length ≤ z.length := by
  refine ⟨Krcm.unpad_eq_ok, unpad_eq_ok, Krcm.unpad_rejects, unpad_rejects, pad_agrees y, ?_, ?_, ?_, ?_⟩
  · exact ⟨_, rfl⟩
  · exact length_pad_mod y
  · exact length_lt_pad y
  · intro z hz hlt
    exact length_pad_le hz hlt

/-! ## Keys -/

def ensurePassword (password : Bytes) : PyRun Bytes := do
  rejectIf (password = []) .valueError
  .ok password

section model
variable (E : Env)

/-- `hashlib.pbkdf2_hmac` with SHA-256, which bounds the length of a password. -/
def hashlibPbkdf2Hmac (password salt : Bytes) (iterations dklen : Nat) : PyRun Bytes := do
  rejectIf (¬ E.Takes password) .overflowError
  .ok (E.pbkdf2Hmac password salt (.ofNat iterations) dklen).toList

def deriveKeys (password salt : Bytes) (iterations : Int) : PyRun (Bytes × Bytes) := do
  let passwordBytes ← ensurePassword password
  rejectIf (salt.length ≠ saltBytes) .valueError
  rejectIf (iterations < 1 ∨ iterations > maxIterations) .valueError
  let root ← hashlibPbkdf2Hmac E passwordBytes salt iterations.toNat 64
  let encKey := (E.hmacSha256 (root.take 32) (ascii "AMPC-ENC")).toList
  let authKey := (E.hmacSha256 (root.drop 32) (ascii "AMPC-AUTH")).toList
  .ok (encKey, authKey)

def makeTag (authKey headerBytes ciphertext : Bytes) : Bytes :=
  (E.hmacSha256 authKey (headerBytes ++ ciphertext)).toList

/-! ## Containers -/

/-- `struct.pack(">I", n)`. -/
def packU32 (n : Nat) : PyRun Bytes := do
  rejectIf (2 ^ 32 ≤ n) .structError
  .ok (beBytes 4 n)

variable (I : Interp) (native : Bool)

/-- `encrypt_bytes`, where the generator returns the salt and then the nonce. -/
def encryptBytes (data password : Bytes) (iterations : Int) (salt nonce : Bytes) : PyRun Bytes := do
  rejectIf (iterations < 1) .valueError
  rejectIf (salt.length ≠ saltBytes ∨ nonce.length ≠ nonceBytes) .valueError
  let header : Header := ⟨4, iterations, salt, nonce, data.length⟩
  let (encKey, authKey) ← deriveKeys E password salt iterations
  let padded := pad data
  let ciphertext ← encryptBlocks E native padded encKey nonce 4
  let headerBytes ← header.toJsonBytes I
  let tag := makeTag E authKey headerBytes ciphertext
  let lenBytes ← packU32 headerBytes.length
  .ok (magicV4 ++ lenBytes ++ headerBytes ++ ciphertext ++ tag)

/-- `decrypt_bytes` up to the derivation of the keys. -/
def parseContainer (blob : Bytes) : PyRun (FrameV4 × Header) := do
  rejectIf (blob.length < magicV4.length + 4 + tagBytes) .formatError
  rejectIf (¬ magicV4.isPrefixOf blob) .formatError
  let headerLen := beNat (blob.extract magicV4.length (magicV4.length + 4))
  let start := magicV4.length + 4
  let headerEnd := start + headerLen
  rejectIf (headerLen ≤ 0 ∨ headerLen > maxHeaderBytes ∨ headerEnd + tagBytes > blob.length)
    .formatError
  let headerBytes := blob.extract start headerEnd
  let header ← fromJsonBytes I headerBytes
  let ciphertext := (dropLast blob tagBytes).drop headerEnd
  let tag := sliceLast blob tagBytes
  .ok (⟨headerBytes, ciphertext, tag⟩, header)

/-- `decrypt_bytes` from the derivation of the keys on. -/
def openFrame (password : Bytes) (frame : FrameV4) (header : Header) : PyRun Bytes := do
  let (encKey, authKey) ← deriveKeys E password header.salt header.iterations
  let expected := makeTag E authKey frame.headerBytes frame.ciphertext
  rejectIf (frame.tag ≠ expected) .authenticationError
  let padded ← decryptBlocks E native frame.ciphertext encKey header.nonce header.version
  let plain ← unpad padded
  rejectIf ((plain.length : Int) ≠ header.originalLength) .authenticationError
  .ok plain

def decryptBytes (container password : Bytes) : PyRun Bytes := do
  let (frame, header) ← parseContainer I container
  openFrame E native password frame header

end model

variable {E : Env} {I : Interp}

/-! ## The two key derivations -/

/-- The bound on the iterations as `kdf.rs` checks it. -/
theorem iterations_admitted {n : UInt32} :
    ¬ (n = 0 ∨ n > maxPbkdf2Iterations) ↔ 1 ≤ n.toNat ∧ n.toNat ≤ 1000000 := by
  rw [← UInt32.toNat_inj, gt_iff_lt, UInt32.lt_iff_toNat_lt]
  show ¬ (n.toNat = 0 ∨ 1000000 < n.toNat) ↔ _
  omega

theorem iterations_word {iterations : Int} (h : 1 ≤ iterations ∧ iterations ≤ 1000000) :
    (UInt32.ofNat iterations.toNat).toNat = iterations.toNat ∧
      ¬ (UInt32.ofNat iterations.toNat = 0 ∨ UInt32.ofNat iterations.toNat > maxPbkdf2Iterations) := by
  have hnat : (UInt32.ofNat iterations.toNat).toNat = iterations.toNat := by
    rw [UInt32.toNat_ofNat', Nat.mod_eq_of_lt (by omega)]
  exact ⟨hnat, iterations_admitted.mpr (by omega)⟩

theorem hashlibPbkdf2Hmac_eq_ok {password salt root : Bytes} {iterations dklen : Nat} :
    hashlibPbkdf2Hmac E password salt iterations dklen = .ok root ↔
      E.Takes password ∧ root = (E.pbkdf2Hmac password salt (.ofNat iterations) dklen).toList := by
  simp only [hashlibPbkdf2Hmac, bind_eq_ok, rejectIf_eq_ok, not_not, exists_const, ok.injEq]
  exact and_congr_right fun _ => eq_comm

theorem hashlibPbkdf2Hmac_overflow {password salt : Bytes} {iterations dklen : Nat}
    (h : ¬ E.Takes password) :
    hashlibPbkdf2Hmac E password salt iterations dklen = .err .overflowError := by
  unfold hashlibPbkdf2Hmac
  rw [rejectIf_true h, err_bind]

/-- **The keys are those of `kdf.rs`**, on the iterations both admit, of a password that `hashlib`
takes. -/
theorem deriveKeys_eq_ok {password salt encKey authKey : Bytes} {iterations : Int} :
    deriveKeys E password salt iterations = .ok (encKey, authKey) ↔
      E.Takes password ∧ (1 ≤ iterations ∧ iterations ≤ 1000000) ∧ ∃ enc auth,
        Krcm.deriveKeys E password salt (.ofNat iterations.toNat) = .ok (enc, auth) ∧
          encKey = enc.key.toList ∧ authKey = auth.key.toList := by
  have htake (root : Arr 64) : root.toList.extract 0 32 = root.toList.take 32 := by simp
  have hdrop (root : Arr 64) : root.toList.extract 32 64 = root.toList.drop 32 := by
    rw [List.extract_eq_take_drop, List.take_of_length_le (by simp)]
  simp only [deriveKeys, ensurePassword, Krcm.deriveKeys, bind_eq_ok, rejectIf_eq_ok, ok.injEq,
    Prod.mk.injEq, htake, hdrop, maxIterations, hashlibPbkdf2Hmac_eq_ok]
  refine ⟨?_, ?_⟩
  · rintro ⟨_, ⟨_, hpassword, rfl⟩, _, hsalt, _, hrange, _, ⟨htaken, rfl⟩, rfl, rfl⟩
    have hword := @iterations_word iterations (by omega)
    refine ⟨htaken, by omega, _, _, ⟨(), hpassword, (), ?_, rfl, rfl⟩, rfl, rfl⟩
    rw [not_or]
    exact ⟨hsalt, hword.2⟩
  · rintro ⟨htaken, hrange, enc, auth, ⟨_, hpassword, _, hsalt, rfl, rfl⟩, rfl, rfl⟩
    rw [not_or] at hsalt
    exact ⟨_, ⟨(), hpassword, rfl⟩, (), hsalt.1, (), by omega, _, ⟨htaken, rfl⟩, rfl, rfl⟩

/-- A password that `hashlib` does not take is the last that `_derive_keys` objects to. -/
theorem deriveKeys_overflow {password salt : Bytes} {iterations : Int} (hpassword : password ≠ [])
    (hsalt : salt.length = 16) (hrange : 1 ≤ iterations ∧ iterations ≤ 1000000)
    (h : ¬ E.Takes password) : deriveKeys E password salt iterations = .err .overflowError := by
  unfold deriveKeys ensurePassword
  rw [rejectIf_false hpassword, ok_bind, ok_bind, rejectIf_false (not_not.mpr hsalt), ok_bind,
    rejectIf_false (by simp only [maxIterations]; omega), ok_bind, hashlibPbkdf2Hmac_overflow h,
    err_bind]

/-! ## Acceptance -/

/-- What stands before a tag of `n` bytes, from an offset on, and the tag. -/
theorem split_tag {l : Bytes} {a n : Nat} (hn : n ≠ 0) (h : a + n ≤ l.length) :
    l = l.take a ++ ((dropLast l n).drop a ++ sliceLast l n) := by
  have hfront : (dropLast l n).take a = l.take a := by
    unfold dropLast
    rw [if_neg hn, List.take_take, Nat.min_eq_left (by omega)]
  rw [← hfront, ← List.append_assoc, List.take_append_drop, dropLast_append_sliceLast hn]

theorem drop_dropLast {p c t : Bytes} {n : Nat} (ht : t.length = n) (hn : n ≠ 0) :
    (dropLast (p ++ (c ++ t)) n).drop p.length = c := by
  rw [← List.append_assoc, dropLast_append ht hn, List.drop_left]

theorem extract_beNat {l : Bytes} {a : Nat} (h : a + 4 ≤ l.length) :
    l.extract a (a + 4) = beBytes 4 (beNat (l.extract a (a + 4))) := by
  refine (beBytes_of_length ?_).symm
  rw [List.extract_eq_take_drop, List.length_take, List.length_drop]
  omega

theorem extract_of_isPrefixOf {m l : Bytes} (h : m.isPrefixOf l) : l.extract 0 m.length = m := by
  obtain ⟨t, rfl⟩ := List.isPrefixOf_iff_prefix.mp h
  exact extract_mid (p := []) rfl rfl (Nat.zero_add _).symm

/-- The parts `decrypt_bytes` cuts a container into make it up. -/
theorem frameV4_of_parts {container : Bytes} {n : Nat} (hmagic : magicV4.isPrefixOf container)
    (hn : beNat (container.extract 8 (8 + 4)) = n) (hle : 12 + n + 32 ≤ container.length) :
    container = FrameV4.bytes ⟨container.extract 12 (12 + n), (dropLast container 32).drop (12 + n),
      sliceLast container 32⟩ ∧ (container.extract 12 (12 + n)).length = n ∧
        (sliceLast container 32).length = 32 := by
  have hlen : (container.extract 12 (12 + n)).length = n := by
    rw [List.extract_eq_take_drop, List.length_take, List.length_drop]
    omega
  have htag : (sliceLast container 32).length = 32 := by
    unfold sliceLast
    rw [if_neg (by decide), List.length_drop]
    omega
  have h0 : container.extract 0 8 = magicV4 := extract_of_isPrefixOf hmagic
  have h8 := extract_beNat (l := container) (a := 8) (by omega)
  rw [hn] at h8
  have hfront : container.take (12 + n) =
      magicV4 ++ (beBytes 4 n ++ container.extract 12 (12 + n)) := by
    rw [← h0, ← h8, extract_append_extract (by omega) (by omega),
      extract_append_extract (by omega) (by omega)]
    rfl
  have hsplit := split_tag (l := container) (a := 12 + n) (n := 32) (by decide) (by omega)
  refine ⟨?_, hlen, htag⟩
  unfold FrameV4.bytes
  dsimp only
  rw [hlen]
  rw [hfront] at hsplit
  simpa only [List.append_assoc] using hsplit

/-- The parts of a written container are found at their places. -/
theorem parts_of_frameV4 {frame : FrameV4} (ht : frame.tag.length = 32) :
    frame.bytes.extract 8 (8 + 4) = beBytes 4 frame.headerBytes.length ∧
      frame.bytes.extract 12 (12 + frame.headerBytes.length) = frame.headerBytes ∧
      (dropLast frame.bytes 32).drop (12 + frame.headerBytes.length) = frame.ciphertext ∧
      sliceLast frame.bytes 32 = frame.tag ∧
      frame.bytes.length = 12 + frame.headerBytes.length + (frame.ciphertext.length + 32) := by
  obtain ⟨p, hp⟩ : ∃ p, p = magicV4 ++ (beBytes 4 frame.headerBytes.length ++ frame.headerBytes) :=
    ⟨_, rfl⟩
  have hplen : p.length = 12 + frame.headerBytes.length := by
    rw [hp]
    simp only [List.length_append, length_magicV4, length_beBytes]
    omega
  have hbytes : frame.bytes = p ++ (frame.ciphertext ++ frame.tag) := by
    rw [hp]
    simp [FrameV4.bytes]
  have hct := drop_dropLast (p := p) (c := frame.ciphertext) ht (by decide)
  have htag := sliceLast_append (l := p ++ frame.ciphertext) ht (by decide)
  rw [List.append_assoc, ← hbytes] at htag
  rw [← hbytes, hplen] at hct
  refine ⟨?_, ?_, hct, htag, ?_⟩
  · exact extract_mid (p := magicV4) rfl length_magicV4 (by rw [length_beBytes])
  · exact extract_mid (p := magicV4 ++ beBytes 4 frame.headerBytes.length)
      (s := frame.ciphertext ++ frame.tag) (by simp [FrameV4.bytes]) (by simp) rfl
  · rw [hbytes, List.length_append, List.length_append, hplen, ht]

/-- The container is that of the frame, and the framing lets it through. -/
structure Framed (container : Bytes) (frame : FrameV4) : Prop where
  bytes : container = frame.bytes
  headerBytes : frame.headerBytes ≠ []
  headerLen : frame.headerBytes.length ≤ maxHeaderBytes
  tag : frame.tag.length = tagBytes

theorem Framed.length_le {container : Bytes} {frame : FrameV4} (h : Framed container frame) :
    frame.ciphertext.length ≤ container.length := by
  have hlen := (parts_of_frameV4 h.tag).2.2.2.2
  rw [← h.bytes] at hlen
  omega

/-- A framed container is left to `from_json_bytes`. -/
theorem parseContainer_framed {container : Bytes} {frame : FrameV4} (h : Framed container frame) :
    parseContainer I container = (do
      let header ← fromJsonBytes I frame.headerBytes
      .ok (frame, header)) := by
  obtain ⟨rfl, hne, hmax, ht⟩ := h
  obtain ⟨h8, h12, hct, htag, hlen⟩ := parts_of_frameV4 ht
  have hpos := List.length_pos_iff.mpr hne
  have hmagic : magicV4.isPrefixOf frame.bytes := List.isPrefixOf_iff_prefix.mpr ⟨_, rfl⟩
  dsimp only [maxHeaderBytes] at hmax
  have hn : beNat (beBytes 4 frame.headerBytes.length) = frame.headerBytes.length := by
    rw [beNat_beBytes, Nat.mod_eq_of_lt (by omega)]
  unfold parseContainer
  simp only [length_magicV4, tagBytes, maxHeaderBytes, h8, hn, h12, hct, htag]
  rw [rejectIf_false (by omega), ok_bind, rejectIf_false (not_not.mpr hmagic), ok_bind,
    rejectIf_false (by omega), ok_bind]

/-- Any other byte string is rejected. -/
theorem parseContainer_unframed {container : Bytes} (h : ∀ frame, ¬ Framed container frame) :
    parseContainer I container = .err .formatError := by
  unfold parseContainer
  simp only [length_magicV4, tagBytes, maxHeaderBytes]
  by_cases hmin : container.length < 8 + 4 + 32
  · rw [rejectIf_true hmin, err_bind]
  by_cases hmagic : magicV4.isPrefixOf container
  · rw [rejectIf_false hmin, ok_bind, rejectIf_false (not_not.mpr hmagic), ok_bind]
    by_cases hrange : beNat (container.extract 8 (8 + 4)) ≤ 0 ∨
        beNat (container.extract 8 (8 + 4)) > 4096 ∨
        8 + 4 + beNat (container.extract 8 (8 + 4)) + 32 > container.length
    · rw [rejectIf_true hrange, err_bind]
    · obtain ⟨hbytes, hlen, htag⟩ := frameV4_of_parts hmagic rfl (by omega)
      refine absurd ⟨hbytes, ?_, ?_, htag⟩ (h _)
      · refine List.ne_nil_of_length_pos ?_
        show 0 < (container.extract 12 (12 + _)).length
        rw [hlen]
        omega
      · show (container.extract 12 (12 + _)).length ≤ 4096
        rw [hlen]
        omega
  · rw [rejectIf_false hmin, ok_bind, rejectIf_true hmagic, err_bind]

theorem Framed.unique {container : Bytes} {frame frame' : FrameV4} (h : Framed container frame)
    (h' : Framed container frame') : frame = frame' := by
  obtain ⟨h8, h12, hct, htag, -⟩ := parts_of_frameV4 h.tag
  obtain ⟨h8', h12', hct', htag', -⟩ := parts_of_frameV4 h'.tag
  have hbytes : frame.bytes = frame'.bytes := h.bytes.symm.trans h'.bytes
  have hmax := h.headerLen
  have hmax' := h'.headerLen
  dsimp only [maxHeaderBytes] at hmax hmax'
  have hlen : frame.headerBytes.length = frame'.headerBytes.length := by
    have hfour := congrArg beNat (h8.symm.trans (hbytes ▸ h8'))
    rw [beNat_beBytes, beNat_beBytes, Nat.mod_eq_of_lt (by omega), Nat.mod_eq_of_lt (by omega)] at hfour
    exact hfour
  rw [hbytes] at h12 hct htag
  rw [hlen] at h12 hct
  cases frame
  cases frame'
  simp only [FrameV4.mk.injEq]
  exact ⟨h12.symm.trans h12', hct.symm.trans hct', htag.symm.trans htag'⟩

/-- **What the framing accepts**: written frames with a short header that reads and a tag of 32
bytes. -/
theorem parseContainer_eq_ok {container : Bytes} {frame : FrameV4} {header : Header} :
    parseContainer I container = .ok (frame, header) ↔
      container = frame.bytes ∧ frame.headerBytes ≠ [] ∧
        frame.headerBytes.length ≤ maxHeaderBytes ∧ frame.tag.length = 32 ∧
        fromJsonBytes I frame.headerBytes = .ok header := by
  refine ⟨?_, ?_⟩
  · intro h
    by_cases hframed : ∃ frame', Framed container frame'
    · obtain ⟨frame', hframe⟩ := hframed
      rw [parseContainer_framed hframe, bind_eq_ok] at h
      obtain ⟨header', hheader, heq⟩ := h
      cases heq
      exact ⟨hframe.bytes, hframe.headerBytes, hframe.headerLen, hframe.tag, hheader⟩
    · rw [parseContainer_unframed (not_exists.mp hframed)] at h
      cases h
  · rintro ⟨hbytes, hne, hmax, ht, hheader⟩
    rw [parseContainer_framed ⟨hbytes, hne, hmax, ht⟩, hheader, ok_bind]

section
variable {native : Bool} {password data : Bytes}

/-- A frame of which decryption under the password returns the data. -/
structure Holds (E : Env) (native : Bool) (password data : Bytes) (frame : FrameV4)
    (header : Header) : Prop where
  keys : ∃ encKey authKey,
    deriveKeys E password header.salt header.iterations = .ok (encKey, authKey) ∧
      frame.tag = makeTag E authKey frame.headerBytes frame.ciphertext ∧
      decryptBlocks E native frame.ciphertext encKey header.nonce header.version = .ok (pad data)
  length : (data.length : Int) = header.originalLength

theorem openFrame_eq_ok {frame : FrameV4} {header : Header} :
    openFrame E native password frame header = .ok data ↔
      Holds E native password data frame header := by
  simp only [openFrame, bind_eq_ok, rejectIf_eq_ok, not_not, ok.injEq, Prod.exists]
  refine ⟨?_, ?_⟩
  · rintro ⟨encKey, authKey, hk, _, ht, padded, hd, plain, hp, _, hl, heq⟩
    subst heq
    rw [unpad_eq_ok.mp hp] at hd
    exact ⟨⟨encKey, authKey, hk, ht, hd⟩, hl⟩
  · rintro ⟨⟨encKey, authKey, hk, ht, hd⟩, hl⟩
    exact ⟨encKey, authKey, hk, (), ht, _, hd, data, unpad_eq_ok.mpr rfl, (), hl, rfl⟩

theorem length_makeTag (authKey headerBytes ciphertext : Bytes) :
    (makeTag E authKey headerBytes ciphertext).length = 32 := Vector.length_toList

/-- **What `decrypt_bytes` accepts.** -/
theorem decryptBytes_eq_ok {container : Bytes} :
    decryptBytes E I native container password = .ok data ↔
      ∃ frame header, container = FrameV4.bytes frame ∧ frame.headerBytes ≠ [] ∧
        frame.headerBytes.length ≤ maxHeaderBytes ∧
        fromJsonBytes I frame.headerBytes = .ok header ∧
        Holds E native password data frame header := by
  simp only [decryptBytes, bind_eq_ok, Prod.exists, parseContainer_eq_ok, openFrame_eq_ok]
  refine ⟨fun ⟨frame, header, ⟨hc, hne, hmax, _, hp⟩, hh⟩ => ⟨frame, header, hc, hne, hmax, hp, hh⟩,
    fun ⟨frame, header, hc, hne, hmax, hp, hh⟩ => ?_⟩
  obtain ⟨_, _, -, ht, -⟩ := hh.keys
  exact ⟨frame, header, ⟨hc, hne, hmax, by rw [ht, length_makeTag], hp⟩, hh⟩

end

/-! ## The writers -/

/-- In version 4 the reference encrypts what `krcm-core` encrypts. -/
theorem encryptBlocks_eq_core {p : Hash → Table 256} {q : Hash → Table 32} (hS : SharedTables E p q)
    (native : Bool) (encKey : EncKey) (nonce : Nonce) {x y : Bytes} (hx : x.length ≤ 2 ^ 69) :
    encryptBlocks E native x encKey.key.toList nonce.toList 4 = .ok y ↔
      Krcm.encryptBlocks E x encKey nonce.toList = .ok y := by
  have hnative : encryptBlocks E true x encKey.key.toList nonce.toList 4 =
      pyError (Krcm.encryptBlocks E x encKey nonce.toList) := nativeEncryptBlocks_eq x encKey nonce
  rw [← pyError_eq_ok, ← hnative, encryptBlocks_returns_iff hS native 4 encKey nonce hx,
    encryptBlocks_returns_iff hS true 4 encKey nonce hx]

theorem makeTag_agrees (authKey : AuthKey) (headerBytes ciphertext : Bytes) :
    makeTag E authKey.key.toList headerBytes ciphertext =
      (Krcm.makeTag E authKey headerBytes ciphertext).toList := rfl

/-- What `encrypt_v4` writes with a given salt and nonce. -/
theorem encryptV4_eq_ok {data password container : Bytes} {iterations : UInt32} {salt : Salt}
    {nonce : Nonce} {coins : CoinsV4} :
    encryptV4 E data password ⟨iterations, some salt, some nonce⟩ coins = .ok container ↔
      ¬ (iterations = 0 ∨ iterations > maxPbkdf2Iterations) ∧ ∃ encKey authKey ciphertext,
        Krcm.deriveKeys E password salt.toList iterations = .ok (encKey, authKey) ∧
        Krcm.encryptBlocks E (Krcm.pad data) encKey nonce.toList = .ok ciphertext ∧
        let headerBytes := (HeaderV4.new iterations salt nonce (.ofNat data.length)).toJsonBytes E
        container = FrameV4.bytes
          ⟨headerBytes, ciphertext, (Krcm.makeTag E authKey headerBytes ciphertext).toList⟩ := by
  simp only [encryptV4, sealV4, bind_eq_ok, rejectIf_eq_ok, ok.injEq, Prod.exists]
  refine ⟨?_, ?_⟩
  · rintro ⟨frame, ⟨_, hrange, encKey, authKey, hk, ciphertext, hc, rfl⟩, rfl⟩
    exact ⟨hrange, encKey, authKey, ciphertext, hk, hc, rfl⟩
  · rintro ⟨hrange, encKey, authKey, ciphertext, hk, hc, rfl⟩
    exact ⟨_, ⟨(), hrange, encKey, authKey, hk, ciphertext, hc, rfl⟩, rfl⟩

theorem packU32_eq_ok {n : Nat} {bytes : Bytes} :
    packU32 n = .ok bytes ↔ n < 2 ^ 32 ∧ bytes = beBytes 4 n := by
  simp only [packU32, bind_eq_ok, rejectIf_eq_ok, Nat.not_le, exists_const, ok.injEq]
  exact and_congr_right fun _ => eq_comm

/-- The header the reference prints is that of `encrypt_v4`. -/
theorem toJsonBytes_new (h64 : E.base64Encode = base64) (I : Interp) (iterations : UInt32) (salt : Salt)
    (nonce : Nonce) {data : Bytes} (hdata : data.length < 2 ^ 64) :
    Header.toJsonBytes I ⟨4, iterations.toNat, salt.toList, nonce.toList, data.length⟩ =
      .ok ((HeaderV4.new iterations salt nonce (.ofNat data.length)).toJsonBytes E) := by
  rw [← toJsonBytes_agrees (h64 ▸ rfl) (h64 ▸ rfl) I]
  unfold Header.ofV4 HeaderV4.new
  rw [UInt64.toNat_ofNat', Nat.mod_eq_of_lt hdata]
  rfl

/-- **The two v4 writers agree byte for byte** on the passwords `hashlib` takes: with enough fuel for
the rejection loops, either returns a container iff the other returns the same. -/
theorem writers_agree (E : Env) (I : Interp) (h64 : E.base64Encode = base64)
    (hT : SamplingTerminates E) :
    ∃ n, ∀ m, n ≤ m → ∀ (data password : Bytes) (iterations : UInt32) (salt : Salt) (nonce : Nonce)
      (coins : CoinsV4), E.Takes password → data.length < 2 ^ 64 → ∀ container,
        encryptV4 (E.withFuel m) data password ⟨iterations, some salt, some nonce⟩ coins =
            .ok container ↔
          encryptBytes (E.withFuel m) I false data password iterations.toNat salt.toList
            nonce.toList = .ok container := by
  obtain ⟨n, hn⟩ := hT.fuel
  refine ⟨n, fun m hm data password iterations salt nonce coins htaken hdata container => ?_⟩
  obtain ⟨p, q, hS⟩ := (hn m hm).sharedTables
  have hprint := toJsonBytes_new (E := E.withFuel m) h64 I iterations salt nonce hdata
  have hsize : (pad data).length ≤ 2 ^ 69 := by
    rw [pad_agrees, length_pad]
    omega
  have hbound := (@length_toJsonBytes_of (E.withFuel m)
    (.new iterations salt nonce (.ofNat data.length)) (h64 ▸ length_base64 _)
    (h64 ▸ length_base64 _)).2
  have hword : UInt32.ofNat (iterations.toNat : Int).toNat = iterations := by
    rw [Int.toNat_natCast, UInt32.ofNat_toNat]
  rw [encryptV4_eq_ok]
  simp only [encryptBytes, bind_eq_ok, rejectIf_eq_ok, Prod.exists, deriveKeys_eq_ok, hword, hprint,
    packU32_eq_ok, ok.injEq]
  refine ⟨?_, ?_⟩
  · rintro ⟨hrange, encKey, authKey, ciphertext, hk, hc, rfl⟩
    have hiterations := iterations_admitted.mp hrange
    refine ⟨(), by omega, (), by simp, _, _, ⟨htaken, by omega, encKey, authKey, hk, rfl, rfl⟩, ciphertext,
      (encryptBlocks_eq_core hS false encKey nonce hsize).mpr hc, _, rfl, _, ⟨?_, rfl⟩, ?_⟩
    · dsimp only [maxHeaderBytes] at hbound
      omega
    · simp [FrameV4.bytes, makeTag_agrees]
  · rintro ⟨_, -, _, -, _, _, ⟨-, hrange, encKey, authKey, hk, rfl, rfl⟩, ciphertext, hc, _, rfl, _,
      ⟨-, rfl⟩, rfl⟩
    have hiterations := (iterations_word hrange).2
    rw [hword] at hiterations
    refine ⟨hiterations, encKey, authKey, ciphertext, hk,
      (encryptBlocks_eq_core hS false encKey nonce hsize).mp hc, ?_⟩
    simp [FrameV4.bytes, makeTag_agrees]

/-- Zero hashes, and base64. -/
def base64Env : Env := { Env.zero with base64Encode := Base.base64 }

/-- An interpreter with the default limits. -/
def Interp.default : Interp where
  maxStrDigits := some 4300
  recursionLimit := 900
  intOfStr _ := none
  truncate _ := none
  maxStrDigits_ge := by simp
  recursionLimit_pos := by decide

theorem writers_agree_small : ∃ m container,
    encryptV4 (base64Env.withFuel m) [7] [1] ⟨1000, some (Vector.replicate 16 0),
        some (Vector.replicate 16 1)⟩ .zero = .ok container ∧
      encryptBytes (base64Env.withFuel m) .default false [7] [1] (1000 : UInt32).toNat
        (Vector.replicate 16 0).toList (Vector.replicate 16 1).toList = .ok container := by
  have hT : SamplingTerminates base64Env := samplingTerminates_of_zero fun _ _ => rfl
  obtain ⟨n, hn⟩ := writers_agree base64Env .default rfl hT
  obtain ⟨n', hn'⟩ := hT.fuel
  obtain ⟨frame, hf⟩ := @sealV4_returns _ [1] [7] ⟨1000, some (Vector.replicate 16 0),
    some (Vector.replicate 16 1)⟩ .zero (hn' (max n n') (le_max_right _ _)).shufflesReturn
    (List.cons_ne_nil _ _) (by decide) (by decide)
  have hwrite : encryptV4 (base64Env.withFuel (max n n')) [7] [1] ⟨1000, some (Vector.replicate 16 0),
      some (Vector.replicate 16 1)⟩ .zero = .ok frame.bytes := by
    unfold encryptV4
    rw [hf, ok_bind]
  exact ⟨max n n', frame.bytes, hwrite, (hn _ (le_max_left _ _) [7] [1] 1000 (Vector.replicate 16 0)
    (Vector.replicate 16 1) .zero (by decide) (by decide) _).mp hwrite⟩

end Krcm.Py
