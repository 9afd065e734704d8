import Krcm.Auto
import Krcm.Cli.Arguments
import Krcm.V5.Hiding

/-!
# The commands

`run` of the `krcm` command, without its files: `Action.transform` is what
`encrypt`, `decrypt` and `migrate` make of the bytes of their input.

A migrated container holds the plaintext of its source, and the comparison with
the plaintext, like the one of `self-test`, fails with no hash and no key
derivation whatever (`migrate_keeps`, `selfTest_passes`).
-/

namespace Krcm.Cli

open Base Outcome

/-- The options of `encrypt`. -/
structure EncryptArgs where
  version : UInt8
  kdf : KdfChoice
  pbkdf2Iterations : UInt32
  scryptNLog2 : UInt8
  scryptR : UInt32
  scryptP : UInt32
  padding : PaddingChoice
  segmentSize : List Char
  workers : UInt64

/-- The defaults of `clap`. -/
def EncryptArgs.default : EncryptArgs where
  version := 4
  kdf := .pbkdf2
  pbkdf2Iterations := 200000
  scryptNLog2 := 14
  scryptR := 8
  scryptP := 1
  padding := .minimal
  segmentSize := ['4', 'M']
  workers := 1

/-- The commands that write a file. -/
inductive Action where
  | encrypt (confirmPassword : Bool) (args : EncryptArgs)
  | decrypt
  | migrate (toVersion : UInt8)

/-- What a command takes from `OsRng`, in either format. -/
structure Drawn where
  v4 : CoinsV4
  v5 : Coins

section model

variable (E : Env)

/-- `read_password`, from the answers at the two prompts. -/
def readPassword (confirm : Bool) (first second : Option Bytes) : Krcm.Run Bytes := do
  let password ← okOr first .io
  rejectIf (password = []) .invalidPassword
  if confirm then do
    let repeated ← okOr second .io
    rejectIf (password ≠ repeated) .invalidPassword
    .ok password
  else
    .ok password

/-- The options `encrypt` gives `encrypt_v5`. -/
def EncryptArgs.options (args : EncryptArgs) (segmentSize : Nat) : EncryptV5Options where
  kdf := makeKdf args.kdf args.pbkdf2Iterations args.scryptNLog2 args.scryptR args.scryptP
  paddingPolicy := makePadding args.padding
  segmentSize := .ofNat segmentSize
  workers := args.workers
  salt := none
  publicNonce := none

def encrypt (args : EncryptArgs) (data password : Bytes) (drawn : Drawn) : Krcm.Run Bytes :=
  if args.version = 4 then
    encryptV4 E data password ⟨args.pbkdf2Iterations, none, none⟩ drawn.v4
  else if args.version = 5 then do
    let segmentSize ← parseSize args.segmentSize
    encryptV5 E data password (args.options segmentSize) drawn.v5
  else
    .err .unsupportedVersion

/-- The options of a migration. -/
def migrateOptions : EncryptV5Options where
  kdf := .pbkdf2 200000
  paddingPolicy := .minimalBlock
  segmentSize := 4 * 1024 * 1024
  workers := 1
  salt := none
  publicNonce := none

def migrate (source password : Bytes) (drawn : Drawn) : Krcm.Run Bytes := do
  let plain ← decryptAuto E source password
  let migrated ← encryptV5 E plain password migrateOptions drawn.v5
  let reopened ← decryptV5 E migrated password
  rejectIf (reopened ≠ plain) .internal
  .ok migrated

/-- `info`: the line it prints. -/
def info (data : Bytes) : Krcm.Run String :=
  if magicV4 <+: data then
    .ok "format: KRCM-SPN v4 container (legacy format identifier AMPCRYPT)"
  else if magicV5 <+: data then
    .ok "format: KRCM-SPN v5 container"
  else
    .err .format

/-- The options of `self-test`. -/
def selfTestOptions : EncryptV5Options where
  kdf := .pbkdf2 1000
  paddingPolicy := .minimalBlock
  segmentSize := 128
  workers := 2
  salt := some (Vector.replicate 16 1)
  publicNonce := some (Vector.replicate 16 2)

def selfTest (drawn : Drawn) : Krcm.Run Unit := do
  let data := ascii "krcm self test"
  let password := ascii "self-test-password"
  let encrypted ← encryptV5 E data password selfTestOptions drawn.v5
  let decrypted ← decryptAuto E encrypted password
  rejectIf (decrypted ≠ data) .internal

/-- The options of `bench`. -/
def benchOptions : EncryptV5Options where
  kdf := .pbkdf2 1000
  paddingPolicy := .minimalBlock
  segmentSize := 1024
  workers := 1
  salt := some (Vector.replicate 16 7)
  publicNonce := some (Vector.replicate 16 8)

/-- `bench`, without the time it measures and prints. -/
def bench (drawn : Drawn) : Krcm.Run Unit := do
  let data := List.replicate 1024 0x42
  let password := ascii "bench-password"
  let encrypted ← encryptV5 E data password benchOptions drawn.v5
  let _ ← decryptAuto E encrypted password
  .ok ()

namespace Action

/-- What a command asks for a second time. -/
def confirms : Action → Bool
  | encrypt confirmPassword _ => confirmPassword
  | _ => false

/-- What a command checks before it asks for the password. -/
def check : Action → Krcm.Run Unit
  | migrate toVersion => rejectIf (toVersion ≠ 5) .unsupportedVersion
  | _ => .ok ()

/-- From the bytes of the input to those of the output. -/
def transform (action : Action) (source password : Bytes) (drawn : Drawn) : Krcm.Run Bytes :=
  match action with
  | encrypt _ args => Cli.encrypt E args source password drawn
  | decrypt => decryptAuto E source password
  | migrate _ => Cli.migrate E source password drawn

end Action

end model

/-! ## Encryption -/

variable {E : Env} {source data password : Bytes} {drawn : Drawn}

/-- The header a run with these options writes in format 4. -/
def EncryptArgs.headerV4 (args : EncryptArgs) (data : Bytes) (drawn : Drawn) : HeaderV4 :=
  EncryptV4Options.header ⟨args.pbkdf2Iterations, none, none⟩ drawn.v4 data

/-- **What `encrypt` wrote, `decrypt` opens**, under the same password. -/
theorem encrypt_opens {args : EncryptArgs} {out : Bytes}
    (h : encrypt E args data password drawn = .ok out) (hlen : out.length < 2 ^ 64)
    (hreads : args.version = 4 → E.Reads (args.headerV4 data drawn)) :
    decryptAuto E out password = .ok data := by
  unfold encrypt at h
  split at h
  · next h4 =>
    have hrun : encryptAuto E data password (.v4 ⟨args.pbkdf2Iterations, none, none⟩ drawn.v4) =
        .ok out := h
    exact encryptAuto_opens hrun (hreads h4) hlen
  · split at h
    · obtain ⟨segmentSize, -, h⟩ := bind_eq_ok.mp h
      have hrun : encryptAuto E data password (.v5 (args.options segmentSize) drawn.v5) = .ok out := h
      exact encryptAuto_opens hrun trivial hlen
    · cases h

/-- `info` names the format that `encrypt` wrote. -/
theorem info_encrypt {args : EncryptArgs} {out : Bytes}
    (h : encrypt E args data password drawn = .ok out) :
    info out = .ok (if args.version = 4 then
      "format: KRCM-SPN v4 container (legacy format identifier AMPCRYPT)"
    else "format: KRCM-SPN v5 container") := by
  unfold encrypt at h
  unfold info
  split at h
  · next h4 =>
    obtain ⟨frame, -, hout⟩ := bind_eq_ok.mp h
    cases hout
    rw [if_pos (magicV4_frame frame), if_pos h4]
  · next h4 =>
    split at h
    · obtain ⟨segmentSize, -, h⟩ := bind_eq_ok.mp h
      obtain ⟨s, -, rfl⟩ := encryptV5_eq_ok.mp h
      rw [if_neg (not_magicV4 (magicV5_frame _)), if_pos (magicV5_frame _), if_neg h4]
    · cases h

/-- Both choices of random padding hide the length within 480 bytes, every length equally well. -/
theorem makePadding_draws {choice : PaddingChoice} (h : choice ≠ .minimal) (k : Nat) :
    (makePadding choice).draws k = if k ≤ 15 then 16 else 0 := by
  have hpolicy : makePadding choice = .randomBlocks 15 := by
    cases choice with
    | minimal => exact absurd rfl h
    | fourK => rfl
    | sixtyFourK => rfl
  rw [hpolicy]
  rfl

/-! ## What a container says of its plaintext -/

/-- A container is longer than its plaintext, and no container opens under the empty password. -/
theorem decryptAuto_bounds {container : Bytes} (h : decryptAuto E container password = .ok data) :
    data.length < container.length ∧ password ≠ [] := by
  unfold decryptAuto at h
  split at h
  · obtain ⟨frame, header, rfl, -, -, -, hh⟩ := decryptV4_eq_ok.mp h
    obtain ⟨encKey, authKey, hk, hc, -⟩ := hh.keys
    have hlen := (encryptBlocks_length hc).1
    have hpad := length_lt_pad data
    obtain ⟨_, hpw, -⟩ := bind_eq_ok.mp hk
    refine ⟨?_, rejectIf_eq_ok.mp hpw⟩
    simp only [FrameV4.bytes, List.length_append]
    omega
  · split at h
    · obtain ⟨frame, parsed, root, segments, rfl, -, -, hr, hh, hu⟩ := decryptV5_eq_ok.mp h
      obtain ⟨info, payload, hin, rfl⟩ := unpackInner_eq_ok.mp hu
      have hplain := hh.sealed.plain_le
      have hpayload := hin.length_le
      rw [← hh.ciphertext] at hplain
      obtain ⟨_, hpw, -⟩ := bind_eq_ok.mp hr
      refine ⟨?_, fun heq => rejectIf_eq_ok.mp hpw (.inl heq)⟩
      rw [length_frame, List.length_take]
      have := hin.payload_length
      omega
    · cases h

/-! ## Runs that open again -/

/-- Under PBKDF2 a run returns with whatever hash, and what it wrote opens again. -/
theorem encryptV5_reopens (hE : E.ShufflesReturn) {opts : EncryptV5Options} {coins : Coins}
    {iterations : UInt32} (hkdf : opts.kdf = .pbkdf2 iterations)
    (hk : (KdfParams.pbkdf2 iterations).Admitted) (hpw : password ≠ [])
    (hs : opts.segmentSize.toNat ≤ 2 ^ 63) (hlen : sealedLength opts.chunkSize
      (76 + data.length + randomPaddingLen opts.paddingPolicy coins) < 2 ^ 64) :
    ∃ out, encryptV5 E data password opts coins = .ok out ∧ magicV5 <+: out ∧
      out.length = sealedLength opts.chunkSize
        (76 + data.length + randomPaddingLen opts.paddingPolicy coins) ∧
      decryptV5 E out password = .ok data := by
  obtain ⟨root, hr⟩ := @deriveRootKey_pbkdf2 E password (opts.salt.getD coins.salt).toList iterations
    hpw Vector.length_toList hk
  rw [← hkdf] at hr hk
  obtain ⟨s, hseal⟩ := sealV5_returns_of_root hE hr hk hs hlen
  have hbytes := hseal.length_bytes
  rw [hseal.inner, length_packInner] at hbytes
  exact ⟨s.frame.bytes, encryptV5_eq_ok.mpr ⟨s, hseal, rfl⟩, magicV5_frame _, hbytes,
    hseal.decrypts (hbytes ▸ hlen)⟩

/-! ## Migration -/

theorem migrate_eq_ok {out : Bytes} : migrate E source password drawn = .ok out ↔
    ∃ plain, decryptAuto E source password = .ok plain ∧
      encryptV5 E plain password migrateOptions drawn.v5 = .ok out ∧
      decryptV5 E out password = .ok plain := by
  simp only [migrate, bind_eq_ok, rejectIf_eq_ok, not_not, ok.injEq]
  constructor
  · rintro ⟨plain, hplain, _, hrun, _, hopen, _, rfl, rfl⟩
    exact ⟨_, hplain, hrun, hopen⟩
  · rintro ⟨plain, hplain, hrun, hopen⟩
    exact ⟨plain, hplain, out, hrun, plain, hopen, (), rfl, rfl⟩

/-- A migrated container opens to what its source opens to. -/
theorem migrate_opens {out : Bytes} (h : migrate E source password drawn = .ok out) :
    decryptAuto E out password = decryptAuto E source password := by
  obtain ⟨plain, hplain, hrun, hopen⟩ := migrate_eq_ok.mp h
  obtain ⟨s, -, rfl⟩ := encryptV5_eq_ok.mp hrun
  rw [decryptAuto_v5 (magicV5_frame _), hopen, hplain]

/-- The container around data that a slice holds is one that a `usize` counts. -/
theorem migrate_fits {plain : Bytes} (h : plain.length < 2 ^ 63) (drawn : Drawn) :
    sealedLength migrateOptions.chunkSize (76 + plain.length +
      randomPaddingLen migrateOptions.paddingPolicy drawn.v5) < 2 ^ 64 := by
  have hsize : migrateOptions.chunkSize = 4194304 := by decide
  have hpadding : randomPaddingLen migrateOptions.paddingPolicy drawn.v5 = 0 := rfl
  rw [hsize, hpadding, sealedLength, segmentCost, segmentCost]
  split <;> omega

/-- **A migration keeps the plaintext.** Whatever hash and key derivation, a source that opens is
migrated to a v5 container that opens to the same under the same password, one that is refused is
refused with its own error, and the plaintext that is compared at the end is never another one. -/
theorem migrate_keeps (E : Env) (hT : E.ShufflesTerminate) : ∃ n, ∀ m, n ≤ m →
    ∀ (source password : Bytes) (drawn : Drawn), source.length < 2 ^ 63 →
      (∀ plain, decryptAuto (E.withFuel m) source password = .ok plain →
        ∃ out, migrate (E.withFuel m) source password drawn = .ok out ∧ magicV5 <+: out ∧
          out.length = sealedLength (4 * 1024 * 1024) (76 + plain.length) ∧
          decryptAuto (E.withFuel m) out password = .ok plain) ∧
      (∀ e, decryptAuto (E.withFuel m) source password = .err e →
        migrate (E.withFuel m) source password drawn = .err e) ∧
      (decryptAuto (E.withFuel m) source password = .panic →
        migrate (E.withFuel m) source password drawn = .panic) ∧
      ∀ out, migrate (E.withFuel m) source password drawn = .ok out →
        decryptAuto (E.withFuel m) out password = decryptAuto (E.withFuel m) source password := by
  obtain ⟨n, hn⟩ := hT.fuel
  refine ⟨n, fun m hm source password drawn hlen => ⟨fun plain hplain => ?_, fun e he => ?_,
    fun hpanic => ?_, fun out hout => migrate_opens hout⟩⟩
  · obtain ⟨hlt, hpw⟩ := decryptAuto_bounds hplain
    have hfits := migrate_fits (hlt.trans hlen) drawn
    obtain ⟨out, hrun, hmagic, hbytes, hopen⟩ :=
      encryptV5_reopens (hn m hm) rfl (by decide) hpw (by decide) hfits
    have hout : migrate (E.withFuel m) source password drawn = .ok out :=
      migrate_eq_ok.mpr ⟨plain, hplain, hrun, hopen⟩
    exact ⟨out, hout, hmagic, hbytes, (migrate_opens hout).trans hplain⟩
  · unfold migrate
    rw [he]
    rfl
  · unfold migrate
    rw [hpanic]
    rfl

/-- Zeros, in either format. -/
def Drawn.zero : Drawn := ⟨.zero, .zero⟩

theorem migrate_keeps_small : ∃ n source out, decryptAuto (Env.zero.withFuel n) source [1] = .ok [7] ∧
    migrate (Env.zero.withFuel n) source [1] .zero = .ok out ∧ magicV5 <+: out ∧
    decryptAuto (Env.zero.withFuel n) out [1] = .ok [7] := by
  obtain ⟨n, hn⟩ := Env.zero_shufflesTerminate.fuel
  obtain ⟨n', hkeeps⟩ := migrate_keeps Env.zero Env.zero_shufflesTerminate
  obtain ⟨s, hs, hlen⟩ := zero_seals (hn (max n n') (Nat.le_max_left _ _)) [7] 64 (by decide) (by decide)
  have hsource := (decryptAuto_v5 (magicV5_frame s.frame)).trans (hs.decrypts hlen)
  have hbytes := hs.length_bytes
  rw [hs.inner, length_packInner] at hbytes
  have hsmall : sealedLength (smallOptions 64).chunkSize (76 + [(7 : UInt8)].length +
      randomPaddingLen (smallOptions 64).paddingPolicy .zero) < 2 ^ 63 := by decide
  obtain ⟨hopens, -, -⟩ := hkeeps _ (Nat.le_max_right n n') s.frame.bytes [1] .zero (hbytes ▸ hsmall)
  obtain ⟨out, hout, hmagic, -, hopen⟩ := hopens [7] hsource
  exact ⟨_, _, out, hsource, hout, hmagic, hopen⟩

/-- **`self-test` passes with whatever hash and key derivation**: it tests that decryption undoes
encryption, and nothing else. -/
theorem selfTest_passes (E : Env) (hT : E.ShufflesTerminate) : ∃ n, ∀ m, n ≤ m →
    ∀ drawn : Drawn, selfTest (E.withFuel m) drawn = .ok () := by
  obtain ⟨n, hn⟩ := hT.fuel
  refine ⟨n, fun m hm drawn => ?_⟩
  have hlen : sealedLength selfTestOptions.chunkSize (76 + (ascii "krcm self test").length +
      randomPaddingLen selfTestOptions.paddingPolicy drawn.v5) < 2 ^ 64 := by
    have hpadding : randomPaddingLen selfTestOptions.paddingPolicy drawn.v5 = 0 := rfl
    rw [hpadding]
    decide
  have hpw : ascii "self-test-password" ≠ [] := by decide
  obtain ⟨out, hrun, hmagic, -, hopen⟩ :=
    encryptV5_reopens (hn m hm) rfl (by decide) hpw (by decide) hlen
  unfold selfTest
  dsimp only
  rw [hrun, ok_bind, decryptAuto_v5 hmagic, hopen, ok_bind]
  exact rejectIf_false (not_not.mpr rfl)

theorem selfTest_passes_zero : ∃ n, selfTest (Env.zero.withFuel n) .zero = .ok () := by
  obtain ⟨n, hn⟩ := selfTest_passes Env.zero Env.zero_shufflesTerminate
  exact ⟨n, hn n le_rfl .zero⟩

/-- `bench` returns, and so does the decryption whose result it drops. -/
theorem bench_returns (E : Env) (hT : E.ShufflesTerminate) : ∃ n, ∀ m, n ≤ m →
    ∀ drawn : Drawn, bench (E.withFuel m) drawn = .ok () := by
  obtain ⟨n, hn⟩ := hT.fuel
  refine ⟨n, fun m hm drawn => ?_⟩
  have hlen : sealedLength benchOptions.chunkSize (76 + (List.replicate 1024 (0x42 : UInt8)).length +
      randomPaddingLen benchOptions.paddingPolicy drawn.v5) < 2 ^ 64 := by
    have hpadding : randomPaddingLen benchOptions.paddingPolicy drawn.v5 = 0 := rfl
    rw [hpadding, List.length_replicate]
    decide
  have hpw : ascii "bench-password" ≠ [] := by decide
  obtain ⟨out, hrun, hmagic, -, hopen⟩ :=
    encryptV5_reopens (hn m hm) rfl (by decide) hpw (by decide) hlen
  unfold bench
  dsimp only
  rw [hrun, ok_bind, decryptAuto_v5 hmagic, hopen, ok_bind]

end Krcm.Cli
