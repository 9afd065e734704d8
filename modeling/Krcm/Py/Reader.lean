import Krcm.Py.Errors

/-!
# The callers of the Python reader

`decrypt_bytes` with a password of either type, `decrypt_text`,
`decrypt_process` and the `decrypt` command. Each handles the errors of the
package; `Escapes` says on which containers and passwords `decrypt_bytes`
raises something else, and `Uncaught` on which of them the exception gets past
the callers.
-/

namespace Krcm.Py

open Base Outcome

/-! ## Passwords -/

/-- `password: str | bytes`. -/
inductive Password where
  | text (s : Str)
  | bytes (b : Bytes)

namespace Password

/-- The `bytes` of a password in `_ensure_password`. -/
def encode : Password → PyRun Bytes
  | text s => encodeUtf8 s
  | bytes b => .ok b

def NonEmpty : Password → Prop
  | text s => s ≠ []
  | bytes b => b ≠ []

/-- UTF-8 has bytes for all of it. -/
def Encodable : Password → Prop
  | text s => ∀ c ∈ s, ¬ isSurrogate c
  | bytes _ => True

end Password

section model
variable (E : Env) (I : Interp) (native : Bool)

/-- `decrypt_bytes` with a password of either type. -/
def decryptBytesWith (container : Bytes) (password : Password) : PyRun Bytes := do
  let (frame, header) ← parseContainer I container
  let passwordBytes ← password.encode
  openFrame E native passwordBytes frame header

def decryptText (container : Bytes) (password : Password) : PyRun Str := do
  let plain ← decryptBytesWith E I native container password
  decodeUtf8 plain

/-! ## Commands -/

/-- The exceptions of the callers: those of the package, and `OSError`. -/
inductive Raised where
  | osError
  | package (e : PyError)
  deriving DecidableEq

abbrev Command (α : Type) := Outcome Raised α

def ofPackage {α : Type} : PyRun α → Command α
  | .ok a => .ok a
  | .err e => .err (.package e)
  | .panic => .panic
  | .timeout => .timeout

/-- `except (AMPCError, OSError, ValueError)`. -/
def handled : Raised → Bool
  | .osError => true
  | .package e => e ∈ [.formatError, .authenticationError, .valueError]

/-- `try: body; except …: return default`. -/
def tryExcept {α : Type} (body : Command α) (default : α) : Command α :=
  match body with
  | .err e => if handled e then .ok default else .err e
  | run => run

/-- The code points `str.strip` takes off. -/
def whitespace : List Nat :=
  [9, 10, 11, 12, 13, 28, 29, 30, 31, 32, 0x85, 0xA0, 0x1680, 0x2000, 0x2001, 0x2002, 0x2003, 0x2004,
    0x2005, 0x2006, 0x2007, 0x2008, 0x2009, 0x200A, 0x2028, 0x2029, 0x202F, 0x205F, 0x3000]

/-- `s.strip()`. -/
def strip (s : Str) : Str := trim (· ∈ whitespace) s

/-- The parts of a POSIX path: what stands between its slashes, but `.` and the empty ones. -/
def pathParts (name : Str) : List Str :=
  (if name.head? = some 47 then [str "/"] else []) ++
    (name.splitOn 47).filter fun part => part ≠ [] ∧ part ≠ str "."

/-- `path.name`. -/
def pathName (name : Str) : Str :=
  match (pathParts name).getLast? with
  | some part => if part = str "/" then [] else part
  | none => []

def safeName (name : Str) : PyRun Str := do
  rejectIf (name = [] ∨ strip name ≠ name) .valueError
  rejectIf (pathName name ≠ name ∨ (pathParts name).any (· ∈ [[], str ".", str ".."])) .valueError
  rejectIf ((str "/\\:\x00").any (· ∈ name)) .valueError
  .ok name

/-- `decrypt_process`, where `readBytes` reads a file of the directory. -/
def decryptProcess (readBytes : Str → Command Bytes) (keyWord fileName : Str) :
    Command (Option Str) :=
  tryExcept (do
    let safe ← ofPackage (safeName fileName)
    let blob ← readBytes safe
    let text ← ofPackage (decryptText E I native blob (.text keyWord))
    .ok (some text)) none

/-- `main` for `decrypt`: its exit code, where `source` is the input file and `atomicWrite` writes
the output. -/
def cliDecrypt (outputExists force : Bool) (password : Str) (source : Command Bytes)
    (atomicWrite : Bytes → Command Unit) : Command Nat :=
  tryExcept (do
    rejectIf (outputExists ∧ ¬ force) .osError
    let source ← source
    let result ← ofPackage (decryptBytesWith E I native source (.text password))
    atomicWrite result
    .ok 0) 1

end model

/-! ## What decrypt_bytes lets through -/

/-- The errors of the package. -/
def IsAMPCError (e : PyError) : Prop := e = .formatError ∨ e = .authenticationError

/-- The framing rejects with `FormatError`, and leaves the rest to `from_json_bytes`. -/
theorem post_parseContainer {S : PyError → Prop} (hS : S .formatError) {I : Interp}
    {Q : FrameV4 × Header → Prop} {container : Bytes} :
    Post S Q (parseContainer I container) ↔ ∀ frame, Framed container frame →
      Post S (fun header => Q (frame, header)) (fromJsonBytes I frame.headerBytes) := by
  by_cases hframed : ∃ frame, Framed container frame
  · obtain ⟨frame, hframe⟩ := hframed
    rw [parseContainer_framed hframe, post_bind]
    refine ⟨fun h frame' hframe' => hframe.unique hframe' ▸ h, fun h => h frame hframe⟩
  · rw [parseContainer_unframed (not_exists.mp hframed)]
    exact iff_of_true hS fun frame hframe => absurd ⟨frame, hframe⟩ hframed

theorem readHeader_valid {I : Interp} {data : Bytes} {header : Header}
    (h : fromJsonBytes I data = .ok header) : header.Valid := by
  rw [fromJsonBytes_eq_ok] at h
  simp only [readHeader, bind_eq_ok, rejectIf_eq_ok, not_not, ok.injEq] at h
  obtain ⟨_, -, _, -, _, -, _, -, _, -, _, -, _, hversion, _, -, _, -, _, -, _, -, _, -, _, -, _, -, _,
    -, _, -, _, hlengths, _, -, _, -, _, -, _, -, _, hrange, rfl⟩ := h
  simp only [not_or, not_not] at hlengths hrange
  obtain ⟨hlength, hmin, hmax⟩ := hrange
  exact ⟨by simpa [supportedVersions] using hversion, ⟨not_lt.mp hmin, not_lt.mp hmax⟩, hlengths.1,
    hlengths.2, not_lt.mp hlength⟩

/-- The password and the tag are right, and the native extension is given a ciphertext that is not
whole blocks. -/
structure Unaligned (E : Env) (native : Bool) (passwordBytes : Bytes) (frame : FrameV4)
    (header : Header) : Prop where
  native : native = true
  version : header.version = 4
  tag : ∃ encKey authKey, deriveKeys E passwordBytes header.salt header.iterations =
    .ok (encKey, authKey) ∧ frame.tag = makeTag E authKey frame.headerBytes frame.ciphertext
  ciphertext : frame.ciphertext.length % blockBytes ≠ 0

section
variable {E : Env} {p : Hash → Table 256} {q : Hash → Table 32} (hS : SharedTables E p q)
  {native : Bool} {version : Int} {encKey : EncKey} {nonce : Nonce} {y : Bytes}

include hS in
theorem decryptBlocks_aligned (hy : y.length ≤ 2 ^ 69) (haligned : y.length % blockBytes = 0) :
    ∃ x, decryptBlocks E native y encKey.key.toList nonce.toList version = .ok x := by
  obtain ⟨ys, hys⟩ := exists_joinBlocks haligned
  exact ⟨_, (decryptBlocks_returns_iff hS native version encKey nonce hy).mpr ⟨ys, hys, rfl⟩⟩

theorem decryptBlocks_unaligned (hy : y.length % blockBytes ≠ 0) :
    decryptBlocks E native y encKey.key.toList nonce.toList version =
      .err (if native ∧ version = 4 then .valueError else .formatError) := by
  unfold decryptBlocks
  by_cases hnative : native ∧ version = 4
  · rw [if_pos hnative, if_pos hnative, nativeDecryptBlocks_eq]
    unfold Krcm.decryptBlocks
    rw [rejectIf_true hy, err_bind]
    rfl
  · rw [if_neg hnative, if_neg hnative]
    unfold pureDecryptBlocks
    rw [rejectIf_true hy, err_bind]

theorem deriveKeys_valid {passwordBytes : Bytes} {header : Header} (hpassword : passwordBytes ≠ [])
    (htaken : E.Takes passwordBytes) (hvalid : header.Valid) : ∃ enc : EncKey, ∃ authKey,
      deriveKeys E passwordBytes header.salt header.iterations = .ok (enc.key.toList, authKey) := by
  obtain ⟨hword, hadmitted⟩ := iterations_word hvalid.iterations
  rw [not_or, UInt32.not_lt] at hadmitted
  obtain ⟨⟨enc, auth⟩, hkeys⟩ := @Krcm.deriveKeys_ok E _ header.salt _ hpassword hvalid.salt
    hadmitted.1 hadmitted.2
  exact ⟨enc, _, deriveKeys_eq_ok.mpr ⟨htaken, hvalid.iterations, enc, auth, hkeys, rfl, rfl⟩⟩

/-- `_unpad` and the check of the length raise errors of the package. -/
theorem post_unpad {S : PyError → Prop} (hS' : Handles S) (padded : Bytes) {length : Int} :
    Post S (fun _ => True) (do
      let plain ← unpad padded
      rejectIf ((plain.length : Int) ≠ length) .authenticationError
      .ok plain) := by
  by_cases himage : ∃ plain, padded = pad plain
  · obtain ⟨plain, rfl⟩ := himage
    rw [unpad_eq_ok.mpr rfl, ok_bind, post_bind, post_rejectIf]
    exact ⟨fun _ => hS'.authenticationError, fun _ => trivial⟩
  · rcases unpad_rejects (not_exists.mp himage) with hraises | hraises
    · rw [hraises]
      exact hS'.formatError
    · rw [hraises]
      exact hS'.authenticationError

/-- A password that `hashlib` does not take. -/
theorem openFrame_overflow {passwordBytes : Bytes} {frame : FrameV4} {header : Header}
    (hpassword : passwordBytes ≠ []) (hvalid : header.Valid) (h : ¬ E.Takes passwordBytes) :
    openFrame E native passwordBytes frame header = .err .overflowError := by
  unfold openFrame
  rw [deriveKeys_overflow hpassword hvalid.salt hvalid.iterations h, err_bind]

/-- **What opening a frame raises** under a header that was read: errors of the package, `ValueError`
from the extension, and `OverflowError` from `hashlib`. -/
theorem post_openFrame {S : PyError → Prop} (hS' : Handles S) {passwordBytes : Bytes}
    {frame : FrameV4} {header : Header} (hS : SharedTables E p q) (hpassword : passwordBytes ≠ [])
    (hvalid : header.Valid) (hsize : frame.ciphertext.length ≤ 2 ^ 69) :
    Post S (fun _ => True) (openFrame E native passwordBytes frame header) ↔
      E.Takes passwordBytes ∧ (Unaligned E native passwordBytes frame header → S .valueError) := by
  by_cases htaken : E.Takes passwordBytes
  swap
  · rw [openFrame_overflow hpassword hvalid htaken]
    exact iff_of_false hS'.overflowError fun h => htaken h.1
  rw [and_iff_right htaken]
  obtain ⟨enc, authKey, hkeys⟩ := deriveKeys_valid hpassword htaken hvalid
  obtain ⟨nonce, hnonce⟩ : ∃ nonce : Nonce, header.nonce = nonce.toList :=
    ⟨arrOfList _ hvalid.nonce, (toList_arrOfList _ _).symm⟩
  unfold openFrame
  rw [hkeys, ok_bind, post_bind, post_rejectIf, and_iff_right fun _ => hS'.authenticationError,
    not_not, hnonce]
  by_cases htag : frame.tag = makeTag E authKey frame.headerBytes frame.ciphertext
  · rw [imp_iff_right htag, post_bind]
    by_cases haligned : frame.ciphertext.length % blockBytes = 0
    · have hdecrypted : ∃ padded, decryptBlocks E native frame.ciphertext enc.key.toList
          nonce.toList header.version = .ok padded := decryptBlocks_aligned hS hsize haligned
      obtain ⟨padded, hpadded⟩ := hdecrypted
      rw [hpadded, post_ok]
      exact iff_of_true (post_unpad hS' padded) fun h => absurd haligned h.ciphertext
    · rw [decryptBlocks_unaligned haligned, post_err]
      by_cases hnative : native ∧ header.version = 4
      · have hunaligned : Unaligned E native passwordBytes frame header :=
          ⟨hnative.1, hnative.2, ⟨_, _, hkeys, htag⟩, haligned⟩
        rw [if_pos hnative, imp_iff_right hunaligned]
      · rw [if_neg hnative]
        exact iff_of_true hS'.formatError fun h => absurd ⟨h.native, h.version⟩ hnative
  · refine iff_of_true (fun h => absurd h htag) ?_
    rintro ⟨-, -, ⟨encKey, authKey', hkeys', htag'⟩, -⟩
    cases hkeys.symm.trans hkeys'
    exact absurd htag' htag

end

theorem encodePoint_of_not_surrogate {c : Nat} (h : ¬ isSurrogate c) :
    ∃ b, encodePoint c = .ok b ∧ b ≠ [] := by
  unfold encodePoint
  rw [if_neg h]
  split_ifs <;> exact ⟨_, rfl, List.cons_ne_nil _ _⟩

theorem encodePoint_surrogate {c : Nat} (h : isSurrogate c) : encodePoint c = .err .valueError := by
  have hrange : 0xD800 ≤ c ∧ c < 0xE000 := of_decide_eq_true h
  unfold encodePoint
  rw [if_neg (by omega), if_neg (by omega), if_pos h]

theorem encodeUtf8_ok {s : Str} (h : ∀ c ∈ s, ¬ isSurrogate c) :
    ∃ b, encodeUtf8 s = .ok b ∧ (s ≠ [] → b ≠ []) := by
  induction s with
  | nil => exact ⟨[], rfl, fun hne => absurd rfl hne⟩
  | cons c s ih =>
    obtain ⟨hc, hs⟩ := List.forall_mem_cons.mp h
    obtain ⟨point, hpoint, hne⟩ := encodePoint_of_not_surrogate hc
    obtain ⟨rest, hrest, -⟩ := ih hs
    refine ⟨point ++ rest, ?_, fun _ => List.append_ne_nil_of_left_ne_nil hne rest⟩
    unfold encodeUtf8
    rw [hpoint, ok_bind, hrest, ok_bind]

/-- The first lone surrogate ends the encoding. -/
theorem encodeUtf8_surrogate {s : Str} (h : ∃ c ∈ s, isSurrogate c) :
    encodeUtf8 s = .err .valueError := by
  induction s with
  | nil =>
    obtain ⟨c, hc, -⟩ := h
    cases hc
  | cons c s ih =>
    unfold encodeUtf8
    by_cases hc : isSurrogate c
    · rw [encodePoint_surrogate hc, err_bind]
    · obtain ⟨point, hpoint, -⟩ := encodePoint_of_not_surrogate hc
      obtain ⟨c', hmem, hc'⟩ := h
      rcases List.mem_cons.mp hmem with rfl | hmem
      · exact absurd hc' hc
      · rw [hpoint, ok_bind, ih ⟨c', hmem, hc'⟩, err_bind]

namespace Password

theorem encode_ok {password : Password} (h : password.Encodable) :
    ∃ b, password.encode = .ok b ∧ (password.NonEmpty → b ≠ []) := by
  cases password with
  | text s => exact encodeUtf8_ok h
  | bytes b => exact ⟨b, rfl, id⟩

theorem encode_err {password : Password} (h : ¬ password.Encodable) :
    password.encode = .err .valueError := by
  cases password with
  | text s =>
    obtain ⟨c, hc⟩ := not_forall.mp h
    rw [Classical.not_imp, not_not] at hc
    exact encodeUtf8_surrogate ⟨c, hc⟩
  | bytes b => exact absurd trivial h

theorem ne_nil_of_encode {password : Password} {b : Bytes} (h : password.encode = .ok b)
    (hne : password.NonEmpty) : b ≠ [] := by
  by_cases hencodable : password.Encodable
  · obtain ⟨b', hb', hb⟩ := encode_ok hencodable
    cases h.symm.trans hb'
    exact hb hne
  · rw [encode_err hencodable] at h
    cases h

end Password

/-- The containers and passwords on which `decrypt_bytes` raises what no caller handles: a header
that escapes, and a password over the bound of `hashlib`. -/
inductive Uncaught (E : Env) (I : Interp) (container : Bytes) (password : Password) : Prop where
  | header {frame : FrameV4} (hframe : Framed container frame)
    (hheader : HeaderEscapes I frame.headerBytes)
  | tooLong {frame : FrameV4} {header : Header} {passwordBytes : Bytes}
    (hframe : Framed container frame) (hheader : fromJsonBytes I frame.headerBytes = .ok header)
    (hpassword : password.encode = .ok passwordBytes) (hlong : ¬ E.Takes passwordBytes)

/-- The containers and passwords on which `decrypt_bytes` raises no error of the package. -/
inductive Escapes (E : Env) (I : Interp) (native : Bool) (container : Bytes) (password : Password) :
    Prop where
  | uncaught (h : Uncaught E I container password)
  | password {frame : FrameV4} {header : Header} (hframe : Framed container frame)
    (hheader : fromJsonBytes I frame.headerBytes = .ok header) (hpassword : ¬ password.Encodable)
  | unaligned {frame : FrameV4} {header : Header} {passwordBytes : Bytes}
    (hframe : Framed container frame) (hheader : fromJsonBytes I frame.headerBytes = .ok header)
    (hpassword : password.encode = .ok passwordBytes)
    (hunaligned : Unaligned E native passwordBytes frame header)

theorem openFrame_empty (E : Env) (native : Bool) (frame : FrameV4) (header : Header) :
    openFrame E native [] frame header = .err .valueError := rfl

section
variable {E : Env} {p : Hash → Table 256} {q : Hash → Table 32} {S : PyError → Prop}
  {I : Interp} {native : Bool} {container : Bytes} {password : Password}

/-- The parts of `decrypt_bytes`, one after the other. -/
theorem Handles.post_decryptBytesWith (h : Handles S) :
    Post S (fun _ => True) (decryptBytesWith E I native container password) ↔
      ∀ frame, Framed container frame → ¬ HeaderEscapes I frame.headerBytes ∧
        ∀ header, fromJsonBytes I frame.headerBytes = .ok header →
          Post S (fun passwordBytes => Post S (fun _ => True)
            (openFrame E native passwordBytes frame header)) password.encode := by
  unfold decryptBytesWith
  rw [post_bind, post_parseContainer h.formatError]
  refine forall_congr' fun frame => forall_congr' fun _ => ?_
  rw [post_iff, h.post_fromJsonBytes]
  simp only [post_bind]

variable (hS : SharedTables E p q) (h : Handles S)
include hS h

/-- `ValueError` is not handled: the escapes of `decrypt_bytes`. -/
theorem Handles.post_decryptBytesWith_iff (hvalue : ¬ S .valueError) (hne : password.NonEmpty)
    (hsize : container.length ≤ 2 ^ 69) :
    Post S (fun _ => True) (decryptBytesWith E I native container password) ↔
      ¬ Escapes E I native container password := by
  rw [h.post_decryptBytesWith]
  have hopens {frame : FrameV4} {header : Header} {b : Bytes} (hframe : Framed container frame)
      (hheader : fromJsonBytes I frame.headerBytes = .ok header) (hb : password.encode = .ok b) :
      Post S (fun _ => True) (openFrame E native b frame header) ↔
        E.Takes b ∧ (Unaligned E native b frame header → S .valueError) :=
    post_openFrame h hS (Password.ne_nil_of_encode hb hne) (readHeader_valid hheader)
      (hframe.length_le.trans hsize)
  refine ⟨?_, ?_⟩
  · intro hall hescapes
    cases hescapes with
    | uncaught huncaught =>
      cases huncaught with
      | header hframe hheader => exact (hall _ hframe).1 hheader
      | tooLong hframe hheader hpassword hlong =>
        have hopen := (hall _ hframe).2 _ hheader
        rw [hpassword, post_ok, hopens hframe hheader hpassword] at hopen
        exact hlong hopen.1
    | password hframe hheader hpassword =>
      have hencode := (hall _ hframe).2 _ hheader
      rw [Password.encode_err hpassword] at hencode
      exact hvalue hencode
    | unaligned hframe hheader hpassword hunaligned =>
      have hopen := (hall _ hframe).2 _ hheader
      rw [hpassword, post_ok, hopens hframe hheader hpassword] at hopen
      exact hvalue (hopen.2 hunaligned)
  · intro hno frame hframe
    refine ⟨fun hheader => hno (.uncaught (.header hframe hheader)), fun header hheader => ?_⟩
    have hencodable : password.Encodable := by
      by_contra hpassword
      exact hno (.password hframe hheader hpassword)
    obtain ⟨b, hb, -⟩ := Password.encode_ok hencodable
    rw [hb, post_ok, hopens hframe hheader hb]
    refine ⟨?_, fun hunaligned => absurd (.unaligned hframe hheader hb hunaligned) hno⟩
    by_contra hlong
    exact hno (.uncaught (.tooLong hframe hheader hb hlong))

/-- `ValueError` is handled: the headers and the passwords of `Uncaught` alone escape. -/
theorem Handles.post_decryptBytesWith_handled (hvalue : S .valueError)
    (hsize : container.length ≤ 2 ^ 69) :
    Post S (fun _ => True) (decryptBytesWith E I native container password) ↔
      ¬ Uncaught E I container password := by
  rw [h.post_decryptBytesWith]
  have hopens {frame : FrameV4} {header : Header} {b : Bytes} (hframe : Framed container frame)
      (hheader : fromJsonBytes I frame.headerBytes = .ok header) :
      Post S (fun _ => True) (openFrame E native b frame header) ↔ E.Takes b := by
    by_cases hempty : b = []
    · rw [hempty, openFrame_empty]
      exact iff_of_true hvalue E.takes_nil
    · rw [post_openFrame h hS hempty (readHeader_valid hheader) (hframe.length_le.trans hsize)]
      exact and_iff_left fun _ => hvalue
  refine ⟨?_, ?_⟩
  · intro hall huncaught
    cases huncaught with
    | header hframe hheader => exact (hall _ hframe).1 hheader
    | tooLong hframe hheader hpassword hlong =>
      have hopen := (hall _ hframe).2 _ hheader
      rw [hpassword, post_ok, hopens hframe hheader] at hopen
      exact hlong hopen
  · intro hno frame hframe
    refine ⟨fun hheader => hno (.header hframe hheader), fun header hheader => ?_⟩
    by_cases hencodable : password.Encodable
    · obtain ⟨b, hb, -⟩ := Password.encode_ok hencodable
      rw [hb, post_ok, hopens hframe hheader]
      by_contra hlong
      exact hno (.tooLong hframe hheader hb hlong)
    · rw [Password.encode_err hencodable]
      exact hvalue

end

/-! ## The callers -/

theorem post_ofPackage {α : Type} {S : Raised → Prop} {Q : α → Prop} {run : PyRun α} :
    Post S Q (ofPackage run) ↔ Post (fun e => S (.package e)) Q run := by
  cases run <;> rfl

/-- A `try` that lets nothing through. -/
theorem post_tryExcept {α : Type} {Q : α → Prop} {body : Command α} {default : α} :
    Post (fun _ => False) Q (tryExcept body default) ↔
      Post (fun e => handled e ∧ Q default) Q body := by
  unfold tryExcept
  cases body with
  | err e => cases he : handled e <;> simp [he]
  | _ => rfl

theorem handles_handled : Handles fun e => handled (.package e) := by
  refine ⟨?_, ?_, ?_, ?_, ?_⟩ <;> decide

theorem handles_isAMPCError : Handles IsAMPCError := by
  refine ⟨?_, ?_, ?_, ?_, ?_⟩ <;> simp [IsAMPCError]

theorem separates_formatError :
    Separates fun e => (if caught e then .formatError else e) = .formatError := by
  refine ⟨rfl, fun e he => if_pos he, ?_, ?_, ?_⟩ <;> decide

theorem safeName_eq_ok {name safe : Str} (h : safeName name = .ok safe) : safe = name := by
  simp only [safeName, bind_eq_ok, ok.injEq] at h
  obtain ⟨-, -, -, -, -, -, h⟩ := h
  exact h.symm

theorem safeName_valueOnly (name : Str) : ValueOnly (safeName name) := by
  unfold safeName
  refine post_bind.mpr (post_rejectIf.mpr ⟨fun _ => rfl, fun _ => ?_⟩)
  refine post_bind.mpr (post_rejectIf.mpr ⟨fun _ => rfl, fun _ => ?_⟩)
  exact post_bind.mpr (post_rejectIf.mpr ⟨fun _ => rfl, fun _ => trivial⟩)

/-- Reading a file raises what the callers handle, and gives at most `2 ^ 69` bytes. -/
abbrev Reads (read : Command Bytes) : Prop :=
  Post (fun e => handled e) (fun blob => blob.length ≤ 2 ^ 69) read

section
variable {E : Env} {p : Hash → Table 256} {q : Hash → Table 32} (hS : SharedTables E p q)
  {I : Interp} {native : Bool}
include hS

/-- Decoding the text adds a `ValueError`. -/
theorem post_decryptText {blob : Bytes} {password : Password} (hsize : blob.length ≤ 2 ^ 69) :
    Post (fun e => handled (.package e)) (fun _ => True) (decryptText E I native blob password) ↔
      ¬ Uncaught E I blob password := by
  have hdecode (plain : Bytes) : Post (fun e => handled (.package e)) (fun _ => True)
      (decodeUtf8 plain) :=
    (decodeUtf8_valueOnly plain).mono (fun e he => by rw [he]; rfl) fun _ ht => ht
  have hbytes : Post _ (fun _ => True) (decryptBytesWith E I native blob password) ↔ _ :=
    handles_handled.post_decryptBytesWith_handled hS rfl hsize
  rw [← hbytes]
  unfold decryptText
  rw [post_bind]
  exact ⟨fun h => h.mono (fun _ he => he) fun _ _ => trivial,
    fun h => h.mono (fun _ he => he) fun plain _ => hdecode plain⟩

/-- **`decrypt_process` returns** the text, or `None`, but for what is uncaught. -/
theorem post_decryptProcess {readBytes : Str → Command Bytes}
    (hread : ∀ name, Reads (readBytes name)) (keyWord fileName : Str) :
    Post (fun _ => False) (fun result => ∀ text, result = some text → ∃ blob,
        readBytes fileName = .ok blob ∧ decryptText E I native blob (.text keyWord) = .ok text)
      (decryptProcess E I native readBytes keyWord fileName) ↔
    ∀ blob, safeName fileName = .ok fileName → readBytes fileName = .ok blob →
      ¬ Uncaught E I blob (.text keyWord) := by
  unfold decryptProcess
  rw [post_tryExcept]
  have hnone {e : Raised} {P : Str → Prop} :
      (handled e ∧ ∀ text, (none : Option Str) = some text → P text) ↔ handled e :=
    and_iff_left fun text htext => by cases htext
  simp only [hnone]
  rcases (safeName_valueOnly fileName).ends with ⟨safe, hsafe, -⟩ | ⟨e, hsafe, rfl⟩
  · cases safeName_eq_ok hsafe
    rw [hsafe]
    show Post _ _ (readBytes fileName >>= _) ↔ _
    rcases (hread fileName).ends with ⟨blob, hfile, hsize⟩ | ⟨e, hfile, hraised⟩
    · rw [hfile, ok_bind, post_bind, post_ofPackage, post_iff, post_decryptText hS hsize]
      refine ⟨?_, ?_⟩
      · rintro ⟨hheaders, -⟩ blob' - hblob'
        cases hblob'
        exact hheaders
      · intro hheaders
        refine ⟨hheaders blob rfl rfl, fun text htext text' htext' => ?_⟩
        cases htext'
        exact ⟨blob, rfl, htext⟩
    · rw [hfile]
      refine iff_of_true hraised fun blob _ hok => ?_
      cases hok
  · rw [hsafe]
    have hraised : handled (.package .valueError) := rfl
    refine iff_of_true hraised fun blob hok => ?_
    cases hok

/-- **The `decrypt` command returns** an exit code, and 0 only with the plaintext written, but for
what is uncaught. -/
theorem post_cliDecrypt {source : Command Bytes} (hsource : Reads source)
    {atomicWrite : Bytes → Command Unit}
    (hwrite : ∀ data, Post (fun e => handled e) (fun _ => True) (atomicWrite data))
    (outputExists force : Bool) (password : Str) :
    Post (fun _ => False) (fun code => code = 1 ∨ code = 0 ∧ ∃ blob plain, source = .ok blob ∧
        decryptBytesWith E I native blob (.text password) = .ok plain ∧ atomicWrite plain = .ok ())
      (cliDecrypt E I native outputExists force password source atomicWrite) ↔
    ∀ blob, ¬ (outputExists ∧ ¬ force) → source = .ok blob →
      ¬ Uncaught E I blob (.text password) := by
  unfold cliDecrypt
  rw [post_tryExcept]
  simp only [true_or, and_true]
  by_cases hoverwrite : outputExists ∧ ¬ force
  · rw [rejectIf_true hoverwrite, err_bind]
    exact iff_of_true rfl fun _ hno => absurd hoverwrite hno
  rw [rejectIf_false hoverwrite, ok_bind]
  rcases hsource.ends with ⟨blob, hfile, hsize⟩ | ⟨e, hfile, hraised⟩
  · rw [hfile, ok_bind, post_bind, post_ofPackage, post_iff,
      handles_handled.post_decryptBytesWith_handled hS rfl hsize]
    refine ⟨?_, ?_⟩
    · rintro ⟨hheaders, -⟩ blob' - hblob'
      cases hblob'
      exact hheaders
    · intro hheaders
      refine ⟨hheaders blob hoverwrite rfl, fun plain hplain => ?_⟩
      rw [post_bind, post_iff]
      exact ⟨hwrite plain, fun _ hdone => .inr ⟨rfl, blob, plain, rfl, hplain, hdone⟩⟩
  · rw [hfile]
    refine iff_of_true hraised fun blob _ hok => ?_
    cases hok

end

/-- **The Python reader fails with its own errors exactly off the escapes.** `from_json_bytes` ends
with a header or `FormatError` unless the header escapes; `decrypt_bytes` ends with bytes or an error
of the package unless the container and the password escape; and `decrypt_process` and the command
return unless a header that escapes stands in the container they read, or it has a header that reads
and `hashlib` does not take the password. -/
theorem reader_errors (E : Env) (I : Interp) (hT : SamplingTerminates E) :
    (∀ data, Post (fun e => e = .formatError) (fun _ => True) (fromJsonBytes I data) ↔
      ¬ HeaderEscapes I data) ∧
    ∃ n, ∀ m, n ≤ m → ∀ native : Bool,
      (∀ (container : Bytes) (password : Password), password.NonEmpty → container.length ≤ 2 ^ 69 →
        (Post IsAMPCError (fun _ => True)
            (decryptBytesWith (E.withFuel m) I native container password) ↔
          ¬ Escapes (E.withFuel m) I native container password)) ∧
      (∀ readBytes : Str → Command Bytes, (∀ name, Reads (readBytes name)) →
        ∀ keyWord fileName : Str,
        (Post (fun _ => False) (fun result => ∀ text, result = some text → ∃ blob,
              readBytes fileName = .ok blob ∧
                decryptText (E.withFuel m) I native blob (.text keyWord) = .ok text)
            (decryptProcess (E.withFuel m) I native readBytes keyWord fileName) ↔
          ∀ blob, safeName fileName = .ok fileName → readBytes fileName = .ok blob →
            ¬ Uncaught (E.withFuel m) I blob (.text keyWord))) ∧
      ∀ source : Command Bytes, Reads source → ∀ atomicWrite : Bytes → Command Unit,
        (∀ data, Post (fun e => handled e) (fun _ => True) (atomicWrite data)) →
        ∀ (outputExists force : Bool) (password : Str),
        (Post (fun _ => False) (fun code => code = 1 ∨ code = 0 ∧ ∃ blob plain,
              source = .ok blob ∧
                decryptBytesWith (E.withFuel m) I native blob (.text password) = .ok plain ∧
                atomicWrite plain = .ok ())
            (cliDecrypt (E.withFuel m) I native outputExists force password source atomicWrite) ↔
          ∀ blob, ¬ (outputExists ∧ ¬ force) → source = .ok blob →
            ¬ Uncaught (E.withFuel m) I blob (.text password)) := by
  obtain ⟨n, hn⟩ := hT.fuel
  refine ⟨fun data => ?_, n, fun m hm native => ?_⟩
  · exact post_fromJsonBytes.trans separates_formatError.post_readHeader
  obtain ⟨p, q, hS⟩ := (hn m hm).sharedTables
  refine ⟨fun container password hne hsize => ?_, fun readBytes hread keyWord fileName => ?_,
    fun source hsource atomicWrite hwrite outputExists force password => ?_⟩
  · exact handles_isAMPCError.post_decryptBytesWith_iff hS (by simp [IsAMPCError]) hne hsize
  · exact post_decryptProcess hS hread keyWord fileName
  · exact post_cliDecrypt hS hsource hwrite outputExists force password

/-- A printed header over a block and a tag of zeros. -/
def zeroFrame : FrameV4 where
  headerBytes := (HeaderV4.new 1000 (Vector.replicate 16 0) (Vector.replicate 16 0) 0).toJsonBytes
    base64Env
  ciphertext := List.replicate 32 0
  tag := List.replicate 32 0

theorem framed_zeroFrame : Framed zeroFrame.bytes zeroFrame := by
  obtain ⟨hpos, hmax⟩ := (@length_toJsonBytes_of base64Env
    (.new 1000 (Vector.replicate 16 0) (Vector.replicate 16 0) 0) (length_base64 _) (length_base64 _))
  exact ⟨rfl, List.ne_nil_of_length_pos hpos, hmax, rfl⟩

theorem fromJsonBytes_zeroFrame : fromJsonBytes .default zeroFrame.headerBytes =
    .ok ⟨4, 1000, List.replicate 16 0, List.replicate 16 0, 0⟩ := by
  have hprint := @toJsonBytes_new base64Env rfl .default 1000 (Vector.replicate 16 0)
    (Vector.replicate 16 0) [] (by decide)
  exact (fromJsonBytes_printed hprint).mpr
    ⟨⟨by decide, by decide, by decide, by decide, by decide⟩, rfl⟩

theorem not_uncaught_zeroFrame {password : Password} {b : Bytes} (hb : password.encode = .ok b)
    (hshort : b.length < 2 ^ 31) (m : Nat) :
    ¬ Uncaught (Env.zero.withFuel m) .default zeroFrame.bytes password := by
  intro huncaught
  cases huncaught with
  | header hframe hheader =>
    cases framed_zeroFrame.unique hframe
    refine handles_isAMPCError.post_fromJsonBytes.mp ?_ hheader
    rw [fromJsonBytes_zeroFrame]
    trivial
  | tooLong hframe hheader hpassword hlong =>
    cases hb.symm.trans hpassword
    exact hlong (Env.takes_withFuel.mpr (Env.takes_zero hshort))

theorem reader_errors_zeroFrame : ∃ m,
    ((∃ header, fromJsonBytes .default zeroFrame.headerBytes = .ok header) ∨
      ∃ e, fromJsonBytes .default zeroFrame.headerBytes = .err e ∧ e = .formatError) ∧
    ((∃ plain, decryptBytesWith (Env.zero.withFuel m) .default true zeroFrame.bytes (.bytes [1]) =
        .ok plain) ∨
      ∃ e, decryptBytesWith (Env.zero.withFuel m) .default true zeroFrame.bytes (.bytes [1]) =
        .err e ∧ IsAMPCError e) ∧
    (∃ result, decryptProcess (Env.zero.withFuel m) .default true (fun _ => .ok zeroFrame.bytes)
      (str "a") (str "b") = .ok result) ∧
    ∃ code, cliDecrypt (Env.zero.withFuel m) .default true false false (str "a")
      (.ok zeroFrame.bytes) (fun _ => .ok ()) = .ok code := by
  have hT : SamplingTerminates Env.zero := samplingTerminates_of_zero fun _ _ => rfl
  obtain ⟨hheader, n, hn⟩ := reader_errors Env.zero .default hT
  obtain ⟨hdecrypt, hprocess, hcli⟩ := hn n le_rfl true
  have hsize : zeroFrame.bytes.length ≤ 2 ^ 69 := by
    rw [(parts_of_frameV4 framed_zeroFrame.tag).2.2.2.2]
    have hmax := framed_zeroFrame.headerLen
    have hciphertext : zeroFrame.ciphertext.length = 32 := rfl
    simp only [maxHeaderBytes] at hmax
    omega
  have hbytes : ¬ Uncaught (Env.zero.withFuel n) .default zeroFrame.bytes (.bytes [1]) :=
    @not_uncaught_zeroFrame (.bytes [1]) [1] rfl (by decide) n
  have htext : ¬ Uncaught (Env.zero.withFuel n) .default zeroFrame.bytes (.text (str "a")) :=
    @not_uncaught_zeroFrame (.text (str "a")) (ascii "a") (by decide) (by decide) n
  have hescapes : ¬ Escapes (Env.zero.withFuel n) .default true zeroFrame.bytes (.bytes [1]) := by
    intro hescapes
    cases hescapes with
    | uncaught huncaught => exact hbytes huncaught
    | password _ _ hpassword => exact hpassword trivial
    | unaligned hframe _ _ hunaligned =>
      cases framed_zeroFrame.unique hframe
      exact hunaligned.ciphertext rfl
  -- The runs are closed: their postconditions are never looked at on their own.
  have hends {ε α : Type} {S : ε → Prop} {Q : α → Prop} {run : Outcome ε α} {P : Prop}
      (h : Post S Q run ↔ P) (hP : P) : (∃ a, run = .ok a) ∨ ∃ e, run = .err e ∧ S e :=
    (h.mpr hP).ends.imp (fun ⟨a, ha, _⟩ => ⟨a, ha⟩) id
  have hreturns {ε α : Type} {Q : α → Prop} {run : Outcome ε α} {P : Prop}
      (h : Post (fun _ => False) Q run ↔ P) (hP : P) : ∃ a, run = .ok a :=
    (hends h hP).resolve_right fun ⟨_, _, he⟩ => he
  refine ⟨n, hends (hheader _) fun hheader => hbytes (.header framed_zeroFrame hheader),
    hends (hdecrypt _ (.bytes [1]) (List.cons_ne_nil _ _) hsize) hescapes, ?_, ?_⟩
  · refine hreturns (hprocess (fun _ => .ok zeroFrame.bytes) (fun _ => hsize) (str "a") (str "b"))
      fun blob _ hblob => ?_
    exact ok.inj hblob ▸ htext
  · refine hreturns (hcli (.ok zeroFrame.bytes) hsize (fun _ => .ok ()) (fun _ => trivial) false false
      (str "a")) fun blob _ hblob => ?_
    exact ok.inj hblob ▸ htext

/-- A header that is a JSON list ends the reader, and the command, with an `AttributeError`. -/
theorem list_header_escapes :
    fromJsonBytes .default (ascii "[]") = .err .attributeError ∧
    fromJsonBytes .default (ascii "\x7b\"magic\":\"AMPCRYPT\",\"version\":Infinity\x7d") =
      .err .overflowError ∧
    decryptBytesWith Env.zero .default false
        (FrameV4.bytes ⟨ascii "[]", [], List.replicate 32 0⟩) (.bytes [1]) = .err .attributeError ∧
    decryptProcess Env.zero .default false
        (fun _ => .ok (FrameV4.bytes ⟨ascii "[]", [], List.replicate 32 0⟩)) (str "a") (str "b") =
      .err (.package .attributeError) ∧
    cliDecrypt Env.zero .default false false false (str "a")
        (.ok (FrameV4.bytes ⟨ascii "[]", [], List.replicate 32 0⟩)) (fun _ => .ok ()) =
      .err (.package .attributeError) := by
  refine ⟨?_, ?_, ?_, ?_, ?_⟩ <;> decide +kernel

end Krcm.Py
