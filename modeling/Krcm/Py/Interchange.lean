import Krcm.Auto
import Krcm.Py.Legacy
import Krcm.Py.Reader
import Krcm.Py.Compact
import Krcm.Py.Utf8

/-!
# Writers and readers

The programs that write and read containers: `krcm-core`, the Python reference
with and without the extension, `compact.py`, and the extension on its own.
Whoever wrote a container, each of them opens it if it reads the format and
takes the password, and refuses it otherwise (`interchange`). A text comes back
as it was, and the texts that cannot be written are known (`text_round_trip`).
-/

namespace Krcm

/-- `EncryptV4Options::default()`. -/
def EncryptV4Options.default : EncryptV4Options where
  iterations := 200000
  salt := none
  nonce := none

end Krcm

namespace Krcm.Py

open Base Outcome

section model
variable (E : Env) (I : Interp) (native : Bool)

/-! ## lib.rs of krcm-py -/

/-- The options `encrypt_bytes` of the extension gives `encrypt_v5`. -/
def extensionOptions : EncryptV5Options where
  kdf := .pbkdf2 200000
  paddingPolicy := .minimalBlock
  segmentSize := 4 * 1024 * 1024
  workers := 1
  salt := none
  publicNonce := none

/-- `encrypt_bytes` of the extension, with what `OsRng` gives either format. -/
def nativeEncryptBytes (data password : Bytes) (version : UInt8) (coinsV4 : CoinsV4) (coins : Coins) :
    PyRun Bytes :=
  if version = 4 then pyError (encryptV4 E data password .default coinsV4)
  else if version = 5 then pyError (encryptV5 E data password extensionOptions coins)
  else .err .valueError

/-- `decrypt_bytes` of the extension. -/
def nativeDecryptBytes (container password : Bytes) : PyRun Bytes :=
  pyError (decryptAuto E container password)

/-! ## core.py -/

/-- `encrypt_bytes` with a password of either type. What is checked before the password is encoded
raises `ValueError` too. -/
def encryptBytesWith (data : Bytes) (password : Password) (iterations : Int) (salt nonce : Bytes) :
    PyRun Bytes := do
  let passwordBytes ← password.encode
  encryptBytes E I native data passwordBytes iterations salt nonce

def encryptText (text : Str) (password : Password) (iterations : Int) (salt nonce : Bytes) :
    PyRun Bytes := do
  let data ← encodeUtf8 text
  encryptBytesWith E I native data password iterations salt nonce

end model

/-! ## Formats -/

inductive Format where
  | v4
  | v5
  | compact
  deriving DecidableEq

namespace Format

def magic : Format → Bytes
  | v4 => magicV4
  | v5 => magicV5
  | compact => compactMagic

theorem magic_unique {f g : Format} {container : Bytes} (hf : f.magic <+: container)
    (hg : g.magic <+: container) : f = g := by
  have h : f.magic <+: g.magic := by
    refine List.prefix_of_prefix_length_le hf hg ?_
    cases f <;> cases g <;> decide
  cases f <;> cases g <;> first | rfl | (revert h; decide)

end Format

/-! ## Containers of version 4 -/

variable {E : Env} {I : Interp}

/-- base64 and serde_json on a header are those of the standard. -/
structure Standard (E : Env) (header : HeaderV4) : Prop where
  reads : E.Reads header
  salt : E.base64Encode header.salt.toList = base64 header.salt.toList
  nonce : E.base64Encode header.nonce.toList = base64 header.nonce.toList

theorem Standard.withFuel {header : HeaderV4} (h : Standard E header) (n : Nat) :
    Standard (E.withFuel n) header := ⟨h.reads.withFuel n, h.salt, h.nonce⟩

/-- A container with a printed header, of which the data is the plaintext. -/
structure Seals (E : Env) (I : Interp) (password data : Bytes) (header : Header) (container : Bytes) :
    Prop where
  version : header.version = 4
  body : ∃ headerBytes body, container = containerWith headerBytes body ∧
    header.toJsonBytes I = .ok headerBytes ∧ OpensAs E password header headerBytes body 4 data

section
variable {p : Hash → Table 256} {q : Hash → Table 32} (hS : SharedTables E p q)
  {native native' : Bool} {data password container salt nonce : Bytes} {iterations : Int}

namespace Seals

variable {header : Header} (h : Seals E I password data header container)
include h

theorem magic : magicV4 <+: container := by
  obtain ⟨_, _, rfl, -⟩ := h.body
  exact ⟨_, rfl⟩

include hS

theorem length (hdata : data.length < 2 ^ 64) :
    data.length ≤ container.length ∧ container.length ≤ data.length + 4200 := by
  obtain ⟨headerBytes, body, rfl, -, ciphertext, encKey, hauth, -, he⟩ := h.body
  obtain ⟨authKey, -, rfl⟩ := hauth.keys
  obtain ⟨v, hv⟩ : ∃ v : Nonce, header.nonce = v.toList :=
    ⟨arrOfList _ hauth.valid.nonce, (toList_arrOfList _ _).symm⟩
  have hb := padLength_bounds data
  have hpad := length_pad data
  rw [hv, ← encryptBlocks_false, encryptBlocks_returns_iff hS false 4 encKey v
    (by rw [pad_agrees]; omega)] at he
  obtain ⟨xs, hxs, rfl⟩ := he
  have hlen : (pad data).length = xs.length * 32 := by rw [hxs, length_joinBlocks]
  have hmax := hauth.size.2
  rw [pad_agrees] at hlen
  dsimp only [maxHeaderBytes] at hmax
  rw [length_containerWith, List.length_append, length_joinBlocks, Layers.length_encryptBlocks,
    Vector.length_toList]
  omega

/-- The reference opens it, under a password that `hashlib` takes. -/
theorem decryptBytes (hsize : container.length < 2 ^ 64) (htaken : E.Takes password) :
    decryptBytes E I native container password = .ok data := by
  obtain ⟨headerBytes, body, rfl, hprint, hopens⟩ := h.body
  obtain ⟨_, _, hauth, -⟩ := id hopens
  have hmax := hauth.size.2
  dsimp only [maxHeaderBytes] at hmax
  exact (decryptBytes_printed hS hprint hsize (by omega)).mpr ⟨htaken, h.version ▸ hopens⟩

omit hS in
theorem decryptBytes_overflow (hlong : ¬ E.Takes password) :
    Py.decryptBytes E I native container password = .err .overflowError := by
  obtain ⟨headerBytes, body, rfl, hprint, ciphertext, encKey, hauth, -⟩ := h.body
  obtain ⟨authKey, -, hbody⟩ := hauth.keys
  let frame : FrameV4 :=
    ⟨headerBytes, ciphertext, (Krcm.makeTag E authKey headerBytes ciphertext).toList⟩
  have hparse : parseContainer I (containerWith headerBytes body) = .ok (frame, header) := by
    have hmax := hauth.size.2
    dsimp only [maxHeaderBytes] at hmax
    exact parseContainer_eq_ok.mpr ⟨(containerWith_eq_iff (by omega) hauth.size.2).mpr ⟨rfl, hbody⟩,
      hauth.size.1, hauth.size.2, Vector.length_toList,
      (fromJsonBytes_printed hprint).mpr ⟨hauth.valid, rfl⟩⟩
  have hne : password ≠ [] := by
    rintro rfl
    exact hlong E.takes_nil
  unfold Py.decryptBytes
  rw [hparse, ok_bind]
  exact openFrame_overflow hne hauth.valid hlong

end Seals

theorem Seals.decryptV4 {header : HeaderV4} (h : Seals E I password data (.ofV4 header) container)
    (hS : SharedTables E p q) (hstandard : Standard E header) (hsize : container.length < 2 ^ 64) :
    Krcm.decryptV4 E container password = .ok data := by
  obtain ⟨headerBytes, body, rfl, hprint, hopens⟩ := h.body
  obtain ⟨_, _, hauth, -⟩ := id hopens
  have hmax := hauth.size.2
  dsimp only [maxHeaderBytes] at hmax
  rw [toJsonBytes_agrees hstandard.salt hstandard.nonce] at hprint
  cases hprint
  have hversion := h.version
  exact (decryptV4_printed hS hsize (by omega)
    (readsPrinted_of_reads hstandard.reads hstandard.salt hstandard.nonce)
    (by rw [hversion]; decide)).mpr hopens

/-! ## What the two writers write -/

/-- A valid header of a length below `2 ^ 64` is printed, in at most 4096 bytes. -/
theorem exists_printed (I : Interp) {header : Header} (hvalid : header.Valid)
    (hlength : header.originalLength < 2 ^ 64) : ∃ headerBytes,
      header.toJsonBytes I = .ok headerBytes ∧ headerBytes ≠ [] ∧
        headerBytes.length ≤ maxHeaderBytes := by
  obtain ⟨header, rfl⟩ := exists_ofV4 hvalid hlength
  obtain ⟨hpos, hmax⟩ := @length_toJsonBytes_of base64Env header (length_base64 _) (length_base64 _)
  exact ⟨_, toJsonBytes_agrees (E := base64Env) rfl rfl I, List.ne_nil_of_length_pos hpos, hmax⟩

include hS

theorem encryptBytes_seals (hdata : data.length < 2 ^ 64)
    (h : encryptBytes E I native data password iterations salt nonce = .ok container) :
    Seals E I password data ⟨4, iterations, salt, nonce, data.length⟩ container := by
  simp only [encryptBytes, bind_eq_ok, rejectIf_eq_ok, Prod.exists, deriveKeys_eq_ok, ok.injEq] at h
  obtain ⟨_, -, _, hlengths, _, _, ⟨-, hrange, encKey, authKey, hk, rfl, rfl⟩, ciphertext, hc,
    headerBytes, hprint, lenBytes, hlen, rfl⟩ := h
  obtain ⟨-, rfl⟩ := packU32_eq_ok.mp hlen
  rw [not_or, not_not, not_not] at hlengths
  have hvalid : Header.Valid ⟨4, iterations, salt, nonce, data.length⟩ :=
    ⟨.inr (.inr rfl), hrange, hlengths.1, hlengths.2, Int.natCast_nonneg _⟩
  obtain ⟨printed, hprinted, hsize⟩ := exists_printed I hvalid (by dsimp only; omega)
  cases hprint.symm.trans hprinted
  obtain ⟨v, rfl⟩ : ∃ v : Nonce, nonce = v.toList :=
    ⟨arrOfList _ hlengths.2, (toList_arrOfList _ _).symm⟩
  have hpad : (pad data).length ≤ 2 ^ 69 := by
    rw [pad_agrees, length_pad]
    omega
  have hpure := (encryptBlocks_returns_iff hS native 4 encKey v hpad).mp hc
  refine ⟨rfl, headerBytes, _, ?_, hprint, ciphertext, encKey, ⟨hvalid, hsize, authKey, hk, rfl⟩, rfl, ?_⟩
  · unfold containerWith
    simp only [List.append_assoc]
    rfl
  · rw [← encryptBlocks_false]
    exact (encryptBlocks_returns_iff hS false 4 encKey v hpad).mpr hpure

omit hS in
/-- The reference writes only under a password that `hashlib` takes. -/
theorem takes_of_encryptBytes
    (h : encryptBytes E I native data password iterations salt nonce = .ok container) :
    E.Takes password := by
  simp only [encryptBytes, bind_eq_ok, Prod.exists, deriveKeys_eq_ok] at h
  obtain ⟨_, -, _, -, _, _, ⟨htaken, -⟩, -⟩ := h
  exact htaken

theorem encryptV4_seals {opts : EncryptV4Options} {coins : CoinsV4}
    (hstandard : Standard E (opts.header coins data)) (hdata : data.length < 2 ^ 64)
    (h : encryptV4 E data password opts coins = .ok container) :
    Seals E I password data (.ofV4 (opts.header coins data)) container := by
  obtain ⟨frame, hf, hcontainer⟩ := bind_eq_ok.mp h
  obtain rfl := ok.inj hcontainer
  obtain ⟨hrange, hheader, hh⟩ := sealV4_holds hf
  obtain ⟨encKey, authKey, hk, hc, ht⟩ := hh.keys
  obtain ⟨hpos, hmax⟩ := hstandard.reads.length_toJsonBytes
  have hiterations := iterations_admitted.mp (not_or.mpr ⟨hrange.1, UInt32.not_lt.mpr hrange.2⟩)
  have hpad : (pad data).length ≤ 2 ^ 69 := by
    rw [pad_agrees, length_pad]
    omega
  have hvalid : (Header.ofV4 (opts.header coins data)).Valid := by
    refine ⟨.inr (.inr rfl), ?_, Vector.length_toList, Vector.length_toList, Int.natCast_nonneg _⟩
    show 1 ≤ (opts.iterations.toNat : Int) ∧ (opts.iterations.toNat : Int) ≤ 1000000
    omega
  refine ⟨rfl, frame.headerBytes, _, rfl, ?_, frame.ciphertext, encKey, ⟨hvalid, ?_, authKey, ?_, ?_⟩,
    ?_, ?_⟩
  · rw [hheader]
    exact toJsonBytes_agrees hstandard.salt hstandard.nonce I
  · rw [hheader]
    exact ⟨List.ne_nil_of_length_pos hpos, hmax⟩
  · rw [ofNat_iterations]
    exact hk
  · rw [ht]
  · show (data.length : Int) = (UInt64.ofNat data.length).toNat
    rw [UInt64.toNat_ofNat', Nat.mod_eq_of_lt hdata]
  · rw [← encryptBlocks_false]
    exact (encryptBlocks_eq_core hS false encKey _ hpad).mpr hc

/-- `compact.py` opens what it wrote, under a password that `hashlib` took then. -/
theorem encryptBytesCompact_opens (hdata : data.length < 2 ^ 64)
    (h : encryptBytesCompact E native data password iterations salt nonce = .ok container) :
    E.Takes password ∧ decryptBytesCompact E native' container password = .ok data := by
  obtain ⟨_, hlengths, hrest⟩ := bind_eq_ok.mp h
  obtain ⟨⟨encKey, authKey⟩, hk, -⟩ := bind_eq_ok.mp hrest
  simp only [rejectIf_eq_ok, saltBytes, nonceBytes] at hlengths
  have hpassword : password ≠ [] := by
    rintro rfl
    cases hk
  obtain ⟨htaken, hrange, -⟩ := deriveKeys_eq_ok.mp hk
  obtain ⟨written, hwrite, hopen⟩ := compact_roundtrip hS native native' hdata hpassword htaken hrange
    (show salt.length = 16 by omega) (show nonce.length = 16 by omega)
  cases h.symm.trans hwrite
  exact ⟨htaken, hopen⟩

omit hS in
theorem compactMagic_encrypted
    (h : encryptBytesCompact E native data password iterations salt nonce = .ok container) :
    compactMagic <+: container := by
  simp only [encryptBytesCompact, bind_eq_ok, Prod.exists, ok.injEq] at h
  obtain ⟨_, -, _, _, -, header, -, ciphertext, -, rfl⟩ := h
  rw [List.append_assoc, List.append_assoc]
  exact ⟨_, rfl⟩

end

/-! ## Other formats -/

section
variable {native : Bool} {container password : Bytes}

theorem decryptAuto_foreign (h4 : ¬ magicV4 <+: container) (h5 : ¬ magicV5 <+: container) :
    decryptAuto E container password = .err .unsupportedVersion := by
  unfold decryptAuto
  rw [if_neg h4, if_neg h5]

theorem decryptBytes_foreign (h : ¬ magicV4 <+: container) :
    decryptBytes E I native container password = .err .formatError := by
  have hunframed (frame : FrameV4) : ¬ Framed container frame :=
    fun hframed => h (hframed.bytes ▸ magicV4_frame frame)
  unfold decryptBytes
  rw [parseContainer_unframed hunframed, err_bind]

theorem decryptBytesCompact_foreign (h : ¬ compactMagic <+: container) :
    decryptBytesCompact E native container password = .err .formatError := by
  have hmagic : ¬ compactMagic.isPrefixOf container := mt List.isPrefixOf_iff_prefix.mp h
  unfold decryptBytesCompact
  by_cases hmin : container.length < compactMagic.length + compactHeaderBytes + tagBytes
  · rw [rejectIf_true hmin, err_bind]
  · rw [rejectIf_false hmin, ok_bind, rejectIf_true hmagic, err_bind]

end

/-! ## Programs -/

/-- The errors of either language. -/
inductive Failure where
  | core (e : KrcmError)
  | python (e : PyError)

abbrev Result (α : Type) := Outcome Failure α

def ofCore {α : Type} : Run α → Result α
  | .ok a => .ok a
  | .err e => .err (.core e)
  | .panic => .panic
  | .timeout => .timeout

def ofPython {α : Type} : PyRun α → Result α
  | .ok a => .ok a
  | .err e => .err (.python e)
  | .panic => .panic
  | .timeout => .timeout

theorem ofCore_eq_ok {α : Type} {run : Run α} {a : α} : ofCore run = .ok a ↔ run = .ok a := by
  cases run <;> simp [ofCore]

theorem ofPython_eq_ok {α : Type} {run : PyRun α} {a : α} : ofPython run = .ok a ↔ run = .ok a := by
  cases run <;> simp [ofPython]

/-- The programs that write, with their parameters and what their generators return. -/
inductive Encryptor where
  | core (opts : EncryptOptions)
  | reference (native : Bool) (iterations : Int) (salt nonce : Bytes)
  | compact (native : Bool) (iterations : Int) (salt nonce : Bytes)
  | extension (version : UInt8) (coinsV4 : CoinsV4) (coins : Coins)

inductive Decryptor where
  | core
  | reference (native : Bool)
  | compact (native : Bool)
  | extension

namespace Encryptor

def encrypt (E : Env) (I : Interp) (data password : Bytes) : Encryptor → Result Bytes
  | core opts => ofCore (encryptAuto E data password opts)
  | reference native iterations salt nonce =>
    ofPython (encryptBytes E I native data password iterations salt nonce)
  | compact native iterations salt nonce =>
    ofPython (encryptBytesCompact E native data password iterations salt nonce)
  | extension version coinsV4 coins =>
    ofPython (nativeEncryptBytes E data password version coinsV4 coins)

def format : Encryptor → Format
  | core (.v4 _ _) => .v4
  | core (.v5 _ _) => .v5
  | reference _ _ _ _ => .v4
  | compact _ _ _ _ => .compact
  | extension version _ _ => if version = 4 then .v4 else .v5

/-- The header of a run that writes a container of version 4. -/
def header (data : Bytes) : Encryptor → Option Header
  | core (.v4 opts coins) => some (.ofV4 (opts.header coins data))
  | reference _ iterations salt nonce => some ⟨4, iterations, salt, nonce, data.length⟩
  | extension version coinsV4 _ =>
    if version = 4 then some (.ofV4 (EncryptV4Options.default.header coinsV4 data)) else none
  | _ => none

end Encryptor

namespace Decryptor

def decrypt (E : Env) (I : Interp) (container password : Bytes) : Decryptor → Result Bytes
  | core => ofCore (decryptAuto E container password)
  | reference native => ofPython (decryptBytes E I native container password)
  | compact native => ofPython (decryptBytesCompact E native container password)
  | extension => ofPython (nativeDecryptBytes E container password)

def formats : Decryptor → List Format
  | core => [.v4, .v5]
  | reference _ => [.v4]
  | compact _ => [.compact]
  | extension => [.v4, .v5]

/-- The passwords of a program: those in Python derive their keys through `hashlib`. -/
def Takes (E : Env) (password : Bytes) : Decryptor → Prop
  | core => True
  | reference _ => E.Takes password
  | compact _ => E.Takes password
  | extension => True

instance (E : Env) (password : Bytes) : (r : Decryptor) → Decidable (r.Takes E password)
  | core => inferInstanceAs (Decidable True)
  | reference _ => inferInstanceAs (Decidable (E.Takes password))
  | compact _ => inferInstanceAs (Decidable (E.Takes password))
  | extension => inferInstanceAs (Decidable True)

/-- What a reader says of a format it does not read. -/
def refusal : Decryptor → Failure
  | core => .core .unsupportedVersion
  | reference _ => .python .formatError
  | compact _ => .python .formatError
  | extension => .python .valueError

/-- **A container of another format is refused.** -/
theorem decrypt_refuses {r : Decryptor} {f : Format} {container password : Bytes}
    (hf : f.magic <+: container) (hr : f ∉ r.formats) :
    r.decrypt E I container password = .err r.refusal := by
  have hother (g : Format) (hg : g ∈ r.formats) : ¬ g.magic <+: container := by
    intro h
    obtain rfl := Format.magic_unique hf h
    exact hr hg
  cases r with
  | core =>
    exact congrArg ofCore (decryptAuto_foreign (hother .v4 (by decide)) (hother .v5 (by decide)))
  | extension =>
    have hauto : decryptAuto E container password = _ :=
      decryptAuto_foreign (hother .v4 (by decide)) (hother .v5 (by decide))
    exact congrArg (fun run => ofPython (pyError run)) hauto
  | reference native =>
    exact congrArg ofPython (decryptBytes_foreign (hother .v4 (by simp [formats])))
  | compact native =>
    exact congrArg ofPython (decryptBytesCompact_foreign (hother .compact (by simp [formats])))

end Decryptor

section
variable {p : Hash → Table 256} {q : Hash → Table 32} {data password container : Bytes}

/-- Where the two readers of version 4 are given a container that either writer made. -/
theorem Seals.decrypt {header : HeaderV4} (h : Seals E I password data (.ofV4 header) container)
    (hS : SharedTables E p q) (hstandard : Standard E header) (hsize : container.length < 2 ^ 64)
    {r : Decryptor} (hr : .v4 ∈ r.formats) : r.decrypt E I container password =
      if r.Takes E password then .ok data else .err (.python .overflowError) := by
  have hauto : decryptAuto E container password = .ok data :=
    (decryptAuto_v4 h.magic).trans (h.decryptV4 hS hstandard hsize)
  cases r with
  | core => exact ofCore_eq_ok.mpr hauto
  | extension => exact ofPython_eq_ok.mpr (pyError_eq_ok.mpr hauto)
  | reference native =>
    split
    · next htaken => exact ofPython_eq_ok.mpr (h.decryptBytes hS hsize htaken)
    · next hlong => exact congrArg ofPython (h.decryptBytes_overflow hlong)
  | compact native => simp [Decryptor.formats] at hr

namespace Encryptor

variable {w : Encryptor}

/-- A run that writes version 4 seals the data under its header. -/
theorem seals (hS : SharedTables E p q) (hdata : data.length < 2 ^ 64)
    (hstandard : ∀ header, w.header data = some (.ofV4 header) → Standard E header)
    (h : w.encrypt E I data password = .ok container) (hf : w.format = .v4) :
    ∃ header, Standard E header ∧ Seals E I password data (.ofV4 header) container := by
  cases w with
  | core opts =>
    cases opts with
    | v4 opts coins =>
      have hheader := hstandard _ rfl
      exact ⟨_, hheader, encryptV4_seals hS hheader hdata (ofCore_eq_ok.mp h)⟩
    | v5 opts coins => cases hf
  | reference native iterations salt nonce =>
    have hseals := encryptBytes_seals hS hdata (ofPython_eq_ok.mp h)
    obtain ⟨_, _, -, -, _, _, hauth, -⟩ := hseals.body
    obtain ⟨header, hheader⟩ := exists_ofV4 hauth.valid (by dsimp only; omega)
    exact ⟨header, hstandard header (congrArg some hheader), hheader ▸ hseals⟩
  | compact native iterations salt nonce => cases hf
  | extension version coinsV4 coins =>
    have hversion : version = 4 := by
      by_contra hne
      rw [format, if_neg hne] at hf
      cases hf
    have hheader := hstandard (EncryptV4Options.default.header coinsV4 data) (if_pos hversion)
    have hwrite := ofPython_eq_ok.mp h
    unfold nativeEncryptBytes at hwrite
    rw [if_pos hversion] at hwrite
    exact ⟨_, hheader, encryptV4_seals hS hheader hdata (pyError_eq_ok.mp hwrite)⟩

/-- What writes version 5 is `encrypt_v5`. -/
theorem encryptV5_of_encrypt (h : w.encrypt E I data password = .ok container) (hf : w.format = .v5) :
    ∃ opts coins, encryptV5 E data password opts coins = .ok container := by
  cases w with
  | core opts =>
    cases opts with
    | v4 opts coins => cases hf
    | v5 opts coins => exact ⟨opts, coins, ofCore_eq_ok.mp h⟩
  | reference native iterations salt nonce => cases hf
  | compact native iterations salt nonce => cases hf
  | extension version coinsV4 coins =>
    have hversion : version ≠ 4 := by
      rintro rfl
      cases hf
    have hwrite := ofPython_eq_ok.mp h
    unfold nativeEncryptBytes at hwrite
    rw [if_neg hversion] at hwrite
    by_cases h5 : version = 5
    · rw [if_pos h5] at hwrite
      exact ⟨_, _, pyError_eq_ok.mp hwrite⟩
    · rw [if_neg h5] at hwrite
      cases hwrite

theorem compact_of_encrypt (h : w.encrypt E I data password = .ok container) (hf : w.format = .compact) :
    ∃ native iterations salt nonce,
      encryptBytesCompact E native data password iterations salt nonce = .ok container := by
  cases w with
  | core opts => cases opts <;> cases hf
  | reference native iterations salt nonce => cases hf
  | compact native iterations salt nonce => exact ⟨_, _, _, _, ofPython_eq_ok.mp h⟩
  | extension version coinsV4 coins =>
    have hne : (if version = 4 then Format.v4 else .v5) ≠ .compact := by split <;> decide
    exact absurd hf hne

end Encryptor

end

/-- **Any reader opens what any writer of its formats wrote, and refuses the rest.** Those in Python
raise `OverflowError` for a password that `hashlib` does not take. -/
theorem interchange (E : Env) (I : Interp) (hT : SamplingTerminates E) :
    ∃ n, ∀ m, n ≤ m → ∀ (w : Encryptor) (data password container : Bytes),
      (∀ header, w.header data = some (.ofV4 header) → Standard E header) →
      data.length < 2 ^ 64 → container.length < 2 ^ 64 →
      w.encrypt (E.withFuel m) I data password = .ok container → ∀ r : Decryptor,
        r.decrypt (E.withFuel m) I container password =
          if w.format ∈ r.formats then
            if r.Takes E password then .ok data else .err (.python .overflowError)
          else .err r.refusal := by
  obtain ⟨n, hn⟩ := hT.fuel
  refine ⟨n, fun m hm w data password container hstandard hdata hsize h r => ?_⟩
  obtain ⟨p, q, hS⟩ := (hn m hm).sharedTables
  have hread : w.format.magic <+: container ∧
      (w.format ∈ r.formats → r.decrypt (E.withFuel m) I container password =
        if r.Takes (E.withFuel m) password then .ok data else .err (.python .overflowError)) := by
    cases hf : w.format with
    | v4 =>
      obtain ⟨header, hheader, hseals⟩ := Encryptor.seals hS hdata
        (fun header hheader => (hstandard header hheader).withFuel m) h hf
      exact ⟨hseals.magic, hseals.decrypt hS hheader hsize⟩
    | v5 =>
      obtain ⟨opts, coins, hwrite⟩ := Encryptor.encryptV5_of_encrypt h hf
      obtain ⟨s, -, hbytes⟩ := encryptV5_eq_ok.mp hwrite
      have hopen := @encryptAuto_opens _ _ data password (.v5 opts coins) hwrite trivial hsize
      refine ⟨hbytes ▸ magicV5_frame _, fun hr => ?_⟩
      cases r with
      | core => exact ofCore_eq_ok.mpr hopen
      | extension => exact ofPython_eq_ok.mpr (pyError_eq_ok.mpr hopen)
      | reference native => simp [Decryptor.formats] at hr
      | compact native => simp [Decryptor.formats] at hr
    | compact =>
      obtain ⟨native, iterations, salt, nonce, hwrite⟩ := Encryptor.compact_of_encrypt h hf
      refine ⟨compactMagic_encrypted hwrite, fun hr => ?_⟩
      cases r with
      | compact native' =>
        have hopens : (E.withFuel m).Takes password ∧
            decryptBytesCompact (E.withFuel m) native' container password = .ok data :=
          encryptBytesCompact_opens hS hdata hwrite
        exact (ofPython_eq_ok.mpr hopens.2).trans (if_pos hopens.1).symm
      | _ => simp [Decryptor.formats] at hr
  split
  · next hr => exact hread.2 hr
  · next hr => exact Decryptor.decrypt_refuses hread.1 hr

/-! ## When the reference writes -/

/-- What `encrypt_bytes` takes. -/
structure Accepts (password : Bytes) (iterations : Int) (salt nonce : Bytes) : Prop where
  password : password ≠ []
  iterations : 1 ≤ iterations ∧ iterations ≤ 1000000
  salt : salt.length = 16
  nonce : nonce.length = 16

section
variable {native native' : Bool} {data password container salt nonce : Bytes} {iterations : Int}

theorem encryptBytes_returns {p : Hash → Table 256} {q : Hash → Table 32} (hS : SharedTables E p q)
    (I : Interp) (native : Bool) (hdata : data.length < 2 ^ 64)
    (h : Accepts password iterations salt nonce) (htaken : E.Takes password) :
    ∃ container, encryptBytes E I native data password iterations salt nonce = .ok container := by
  have hvalid : Header.Valid ⟨4, iterations, salt, nonce, data.length⟩ :=
    ⟨.inr (.inr rfl), h.iterations, h.salt, h.nonce, Int.natCast_nonneg _⟩
  have hiterations := h.iterations
  obtain ⟨enc, authKey, hk⟩ := deriveKeys_valid h.password htaken hvalid
  obtain ⟨headerBytes, hprint, -, hmax⟩ := exists_printed I hvalid (by dsimp only; omega)
  obtain ⟨y, hy, -⟩ := encryptBlocks_opens hS native native 4 enc (arrOfList nonce h.nonce)
    (x := pad data) (by rw [pad_agrees, length_pad]; omega) (pad_agrees data ▸ length_pad_mod data)
  rw [toList_arrOfList] at hy
  dsimp only [maxHeaderBytes] at hmax
  unfold encryptBytes
  rw [rejectIf_false (by omega), ok_bind, rejectIf_false (by simp [h.salt, h.nonce]), ok_bind, hk,
    ok_bind]
  dsimp only
  rw [hy, ok_bind, hprint, ok_bind, packU32_eq_ok.mpr ⟨by omega, rfl⟩, ok_bind]
  exact ⟨_, rfl⟩

theorem encryptBytes_overflow (h : Accepts password iterations salt nonce)
    (hlong : ¬ E.Takes password) :
    encryptBytes E I native data password iterations salt nonce = .err .overflowError := by
  have hiterations := h.iterations
  unfold encryptBytes
  rw [rejectIf_false (by omega), ok_bind, rejectIf_false (by simp [h.salt, h.nonce]), ok_bind,
    deriveKeys_overflow h.password h.salt h.iterations hlong, err_bind]

theorem encryptBytes_raises (h : ¬ Accepts password iterations salt nonce) :
    encryptBytes E I native data password iterations salt nonce = .err .valueError := by
  unfold encryptBytes
  by_cases hone : iterations < 1
  · rw [rejectIf_true hone, err_bind]
  by_cases hlengths : salt.length ≠ saltBytes ∨ nonce.length ≠ nonceBytes
  · rw [rejectIf_false hone, ok_bind, rejectIf_true hlengths, err_bind]
  rw [rejectIf_false hone, ok_bind, rejectIf_false hlengths, ok_bind]
  rw [not_or, not_not, not_not] at hlengths
  have hkeys : deriveKeys E password salt iterations = .err .valueError := by
    unfold deriveKeys ensurePassword
    by_cases hpassword : password = []
    · rw [rejectIf_true hpassword, err_bind, err_bind]
    · have hmax : iterations < 1 ∨ iterations > maxIterations := by
        by_contra hrange
        simp only [maxIterations] at hrange
        exact h ⟨hpassword, by omega, hlengths.1, hlengths.2⟩
      rw [rejectIf_false hpassword, ok_bind, ok_bind, rejectIf_false (not_not.mpr hlengths.1), ok_bind,
        rejectIf_true hmax, err_bind]
  rw [hkeys, err_bind]

end

theorem ofV4_injective {header header' : HeaderV4} (h : Header.ofV4 header = .ofV4 header') :
    header = header' := by
  obtain ⟨version, iterations, salt, nonce, length⟩ := header
  obtain ⟨version', iterations', salt', nonce', length'⟩ := header'
  rw [Header.ofV4, Header.ofV4, Header.mk.injEq, Int.ofNat_inj, Int.ofNat_inj, Int.ofNat_inj,
    UInt8.toNat_inj, UInt32.toNat_inj, UInt64.toNat_inj, Vector.toList_inj, Vector.toList_inj] at h
  rwa [HeaderV4.mk.injEq]

theorem interchange_empty : ∃ m container,
    (Encryptor.reference true 1 (List.replicate 16 0) (List.replicate 16 0)).encrypt
        ((emptyEnv 4).withFuel m) .default [] [1] = .ok container ∧
      Decryptor.decrypt ((emptyEnv 4).withFuel m) .default container [1] .core = .ok [] ∧
      Decryptor.decrypt ((emptyEnv 4).withFuel m) .default container [1] (.reference true) = .ok [] ∧
      Decryptor.decrypt ((emptyEnv 4).withFuel m) .default container [1] (.compact false) =
        .err (.python .formatError) := by
  have hT := emptyEnv_terminates 4
  obtain ⟨n, hn⟩ := interchange (emptyEnv 4) .default hT
  obtain ⟨n', hn'⟩ := hT.fuel
  obtain ⟨p, q, hS⟩ := (hn' (max n n') (le_max_right _ _)).sharedTables
  have haccepts : Accepts [1] 1 (List.replicate 16 0) (List.replicate 16 0) :=
    ⟨List.cons_ne_nil _ _, by decide, List.length_replicate, List.length_replicate⟩
  obtain ⟨container, hwrite⟩ := encryptBytes_returns hS .default true
    (show ([] : Bytes).length < 2 ^ 64 by decide) haccepts
    (Env.takes_withFuel.mpr (emptyEnv_takes 4))
  have hsize : container.length < 2 ^ 64 := by
    have hlen := ((encryptBytes_seals hS (by decide) hwrite).length hS (by decide)).2
    rw [List.length_nil] at hlen
    omega
  have hstandard (header : HeaderV4) (h : (Encryptor.reference true 1 (List.replicate 16 0)
      (List.replicate 16 0)).header [] = some (.ofV4 header)) : Standard (emptyEnv 4) header := by
    obtain rfl : emptyHeader 4 = header := ofV4_injective (Option.some.inj h)
    exact ⟨emptyEnv_reads 4, emptyEnv_encodes 4, emptyEnv_encodes 4⟩
  have hread := hn _ (le_max_left n n') _ [] [1] container hstandard (by decide) hsize
    (ofPython_eq_ok.mpr hwrite)
  have hreference := (hread (.reference true)).trans (if_pos (List.mem_singleton_self _))
  exact ⟨_, container, ofPython_eq_ok.mpr hwrite, hread .core,
    hreference.trans (if_pos (emptyEnv_takes 4)), hread (.compact false)⟩

/-! ## Texts -/

/-- `Accepts`, for a password of either type. -/
structure AcceptsWith (password : Password) (iterations : Int) (salt nonce : Bytes) : Prop where
  encodable : password.Encodable
  nonEmpty : password.NonEmpty
  iterations : 1 ≤ iterations ∧ iterations ≤ 1000000
  salt : salt.length = 16
  nonce : nonce.length = 16

/-- What `encrypt_text` takes. -/
structure AcceptsText (text : Str) (password : Password) (iterations : Int) (salt nonce : Bytes) :
    Prop where
  text : ∀ c ∈ text, ¬ isSurrogate c
  rest : AcceptsWith password iterations salt nonce

/-- `hashlib` takes the bytes of the password. -/
def Password.Taken (E : Env) (password : Password) : Prop :=
  ∀ b, password.encode = .ok b → E.Takes b

theorem Password.taken_withFuel {password : Password} {n : Nat} :
    password.Taken (E.withFuel n) ↔ password.Taken E := Iff.rfl

theorem length_encodePoint {c : Nat} {point : Bytes} (h : encodePoint c = .ok point) :
    point.length ≤ 4 := by
  unfold encodePoint at h
  split_ifs at h <;> cases h <;> simp

theorem length_encodeUtf8 {text : Str} {data : Bytes} (h : encodeUtf8 text = .ok data) :
    data.length ≤ 4 * text.length := by
  induction text generalizing data with
  | nil =>
    cases h
    exact Nat.zero_le _
  | cons c text ih =>
    obtain ⟨point, rest, hpoint, hrest, rfl⟩ := encodeUtf8_cons_eq_ok.mp h
    have hlen := length_encodePoint hpoint
    have hrestlen := ih hrest
    rw [List.length_append, List.length_cons]
    omega

theorem Password.encode_nonEmpty {password : Password} {passwordBytes : Bytes}
    (h : password.encode = .ok passwordBytes) : passwordBytes ≠ [] ↔ password.NonEmpty := by
  cases password with
  | bytes b =>
    cases h
    exact Iff.rfl
  | text s =>
    cases s with
    | nil =>
      cases h
      exact iff_of_false (fun hne => hne rfl) fun hne => hne rfl
    | cons c s =>
      obtain ⟨point, rest, hpoint, -, rfl⟩ := encodeUtf8_cons_eq_ok.mp h
      refine iff_of_true (fun hnil => ?_) (List.cons_ne_nil _ _)
      obtain ⟨hnil, -⟩ := List.append_eq_nil_iff.mp hnil
      by_cases hc : isSurrogate c
      · cases (encodePoint_surrogate hc).symm.trans hpoint
      · obtain ⟨b, hb, hne⟩ := encodePoint_of_not_surrogate hc
        cases hb.symm.trans hpoint
        exact hne hnil

section
variable {native native' : Bool} {text : Str} {password : Password} {salt nonce : Bytes}
  {iterations : Int}

theorem decryptBytesWith_encoded {container passwordBytes : Bytes}
    (h : password.encode = .ok passwordBytes) :
    decryptBytesWith E I native container password =
      decryptBytes E I native container passwordBytes := by
  unfold decryptBytesWith decryptBytes
  rw [h]
  rfl

theorem encryptBytesWith_returns {p : Hash → Table 256} {q : Hash → Table 32}
    (hS : SharedTables E p q) (I : Interp) (native : Bool) {data : Bytes} (hdata : data.length < 2 ^ 62)
    (h : AcceptsWith password iterations salt nonce) (htaken : password.Taken E) :
    ∃ container passwordBytes,
      password.encode = .ok passwordBytes ∧
      encryptBytesWith E I native data password iterations salt nonce = .ok container ∧
        ∀ native', decryptBytes E I native' container passwordBytes = .ok data := by
  obtain ⟨passwordBytes, hp, hne⟩ := Password.encode_ok h.encodable
  obtain ⟨container, hwrite⟩ := encryptBytes_returns hS I native (show data.length < 2 ^ 64 by omega)
    ⟨hne h.nonEmpty, h.iterations, h.salt, h.nonce⟩ (htaken _ hp)
  have hseals := encryptBytes_seals hS (by omega) hwrite
  have hsize := (hseals.length hS (by omega)).2
  refine ⟨container, passwordBytes, hp, ?_, fun native' =>
    hseals.decryptBytes hS (by omega) (htaken _ hp)⟩
  unfold encryptBytesWith
  rw [hp, ok_bind, hwrite]

theorem encryptBytesWith_overflow {data : Bytes} (h : AcceptsWith password iterations salt nonce)
    (hlong : ¬ password.Taken E) :
    encryptBytesWith E I native data password iterations salt nonce = .err .overflowError := by
  obtain ⟨passwordBytes, hp, hne⟩ := Password.encode_ok h.encodable
  have hbytes : ¬ E.Takes passwordBytes := by
    refine fun htakes => hlong fun b hb => ?_
    cases hp.symm.trans hb
    exact htakes
  unfold encryptBytesWith
  rw [hp, ok_bind]
  exact encryptBytes_overflow ⟨hne h.nonEmpty, h.iterations, h.salt, h.nonce⟩ hbytes

theorem encryptBytesWith_raises {data : Bytes} (h : ¬ AcceptsWith password iterations salt nonce) :
    encryptBytesWith E I native data password iterations salt nonce = .err .valueError := by
  unfold encryptBytesWith
  by_cases hpassword : password.Encodable
  · obtain ⟨passwordBytes, hp, -⟩ := Password.encode_ok hpassword
    rw [hp, ok_bind]
    exact encryptBytes_raises fun haccepts => h ⟨hpassword,
      (Password.encode_nonEmpty hp).mp haccepts.password, haccepts.iterations, haccepts.salt,
      haccepts.nonce⟩
  · rw [Password.encode_err hpassword, err_bind]

theorem encryptText_returns {p : Hash → Table 256} {q : Hash → Table 32} (hS : SharedTables E p q)
    (I : Interp) (native : Bool) (hlen : text.length < 2 ^ 60)
    (h : AcceptsText text password iterations salt nonce) (htaken : password.Taken E) :
    ∃ container passwordBytes data,
      password.encode = .ok passwordBytes ∧ encodeUtf8 text = .ok data ∧
      encryptText E I native text password iterations salt nonce = .ok container ∧
        ∀ native', decryptBytes E I native' container passwordBytes = .ok data := by
  obtain ⟨data, ht, -⟩ := encodeUtf8_ok h.text
  have hle := length_encodeUtf8 ht
  obtain ⟨container, passwordBytes, hp, hwrite, hread⟩ :=
    encryptBytesWith_returns hS I native (show data.length < 2 ^ 62 by omega) h.rest htaken
  refine ⟨container, passwordBytes, data, hp, ht, ?_, hread⟩
  unfold encryptText
  rw [ht, ok_bind, hwrite]

theorem encryptText_overflow (h : AcceptsText text password iterations salt nonce)
    (hlong : ¬ password.Taken E) :
    encryptText E I native text password iterations salt nonce = .err .overflowError := by
  obtain ⟨data, ht, -⟩ := encodeUtf8_ok h.text
  unfold encryptText
  rw [ht, ok_bind]
  exact encryptBytesWith_overflow h.rest hlong

theorem encryptText_raises (h : ¬ AcceptsText text password iterations salt nonce) :
    encryptText E I native text password iterations salt nonce = .err .valueError := by
  unfold encryptText
  by_cases htext : ∀ c ∈ text, ¬ isSurrogate c
  · obtain ⟨data, ht, -⟩ := encodeUtf8_ok htext
    rw [ht, ok_bind]
    exact encryptBytesWith_raises fun hrest => h ⟨htext, hrest⟩
  · obtain ⟨c, hc⟩ := not_forall.mp htext
    rw [Classical.not_imp, not_not] at hc
    rw [encodeUtf8_surrogate ⟨c, hc⟩, err_bind]

end

/-- **A text comes back as it was**, by either body of the block engine; `encrypt_text` raises
`ValueError` on exactly the texts, passwords and parameters it does not take, and `OverflowError` where
only `hashlib` does not take the password. -/
theorem text_round_trip (E : Env) (I : Interp) (hT : SamplingTerminates E) :
    ∃ n, ∀ m, n ≤ m → ∀ (native : Bool) (text : Str) (password : Password) (iterations : Int)
      (salt nonce : Bytes), IsText text → text.length < 2 ^ 60 →
      (AcceptsText text password iterations salt nonce → password.Taken E → ∃ container,
        encryptText (E.withFuel m) I native text password iterations salt nonce = .ok container ∧
          ∀ native', decryptText (E.withFuel m) I native' container password = .ok text) ∧
      (AcceptsText text password iterations salt nonce → ¬ password.Taken E →
        encryptText (E.withFuel m) I native text password iterations salt nonce =
          .err .overflowError) ∧
      (¬ AcceptsText text password iterations salt nonce →
        encryptText (E.withFuel m) I native text password iterations salt nonce =
          .err .valueError) := by
  obtain ⟨n, hn⟩ := hT.fuel
  refine ⟨n, fun m hm native text password iterations salt nonce htext hlen => ?_⟩
  obtain ⟨p, q, hS⟩ := (hn m hm).sharedTables
  refine ⟨fun h htaken => ?_, fun h hlong => ?_, encryptText_raises⟩
  swap
  · exact encryptText_overflow h (mt Password.taken_withFuel.mp hlong)
  obtain ⟨container, passwordBytes, data, hp, ht, hwrite, hread⟩ :=
    encryptText_returns hS I native hlen h (Password.taken_withFuel.mpr htaken)
  refine ⟨container, hwrite, fun native' => ?_⟩
  unfold decryptText
  rw [decryptBytesWith_encoded hp, hread, ok_bind]
  exact decodeUtf8_iff.mpr ⟨htext, ht⟩

theorem text_round_trip_euro : ∃ m container,
    encryptText (Env.zero.withFuel m) .default true [0x20AC] (.text [0x61]) 1 (List.replicate 16 2)
        (List.replicate 16 3) = .ok container ∧
      decryptText (Env.zero.withFuel m) .default false container (.text [0x61]) = .ok [0x20AC] ∧
      encryptText (Env.zero.withFuel m) .default true [0xD800] (.text [0x61]) 1 (List.replicate 16 2)
        (List.replicate 16 3) = .err .valueError := by
  obtain ⟨n, hn⟩ := text_round_trip Env.zero .default (samplingTerminates_of_zero fun _ _ => rfl)
  have haccepts : AcceptsText [0x20AC] (.text [0x61]) 1 (List.replicate 16 2)
      (List.replicate 16 3) :=
    ⟨by decide, by simp only [Password.Encodable]; decide, List.cons_ne_nil _ _, by decide,
      List.length_replicate, List.length_replicate⟩
  have htaken : (Password.text [0x61]).Taken Env.zero := by
    rintro _ ⟨⟩
    exact Env.takes_zero (by decide)
  obtain ⟨container, hwrite, hread⟩ := (hn n le_rfl true [0x20AC] (.text [0x61]) 1
    (List.replicate 16 2) (List.replicate 16 3) (by simp [IsText]) (by decide)).1 haccepts htaken
  refine ⟨n, container, hwrite, hread false, (hn n le_rfl true [0xD800] (.text [0x61]) 1
    (List.replicate 16 2) (List.replicate 16 3) (by simp [IsText]) (by decide)).2.2 fun h => ?_⟩
  exact h.text 0xD800 (List.mem_singleton_self _) (by decide)

end Krcm.Py
