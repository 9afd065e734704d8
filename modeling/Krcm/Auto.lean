import Krcm.V4.Transcript
import Krcm.V5.Sealing

/-!
# Both formats

`encrypt_auto` and `decrypt_auto` of `lib.rs`, and the round trips of the two
formats through them.
-/

namespace Krcm

open Base Outcome

inductive EncryptOptions where
  | v4 (opts : EncryptV4Options) (coins : CoinsV4)
  | v5 (opts : EncryptV5Options) (coins : Coins)

def encryptAuto (E : Env) (data password : Bytes) : EncryptOptions → Run Bytes
  | .v4 opts coins => encryptV4 E data password opts coins
  | .v5 opts coins => encryptV5 E data password opts coins

def decryptAuto (E : Env) (container password : Bytes) : Run Bytes :=
  if magicV4 <+: container then decryptV4 E container password
  else if magicV5 <+: container then decryptV5 E container password
  else .err .unsupportedVersion

variable {E : Env} {container data password : Bytes}

theorem decryptAuto_v4 (h : magicV4 <+: container) :
    decryptAuto E container password = decryptV4 E container password := if_pos h

/-- The two magics differ in their first byte. -/
theorem not_magicV4 (h : magicV5 <+: container) : ¬ magicV4 <+: container := by
  intro h4
  have heq := List.prefix_of_prefix_length_le h4 h (by decide)
  revert heq
  decide

theorem decryptAuto_v5 (h : magicV5 <+: container) :
    decryptAuto E container password = decryptV5 E container password := by
  unfold decryptAuto
  rw [if_neg (not_magicV4 h), if_pos h]

theorem magicV4_frame (frame : FrameV4) : magicV4 <+: frame.bytes := ⟨_, rfl⟩

theorem magicV5_frame (frame : Frame) : magicV5 <+: frame.bytes := ⟨_, rfl⟩

/-- The parsers outside the crate read the header of the run, where it has one to read. -/
def EncryptOptions.Reads (E : Env) (data : Bytes) : EncryptOptions → Prop
  | .v4 opts coins => E.Reads (opts.header coins data)
  | .v5 _ _ => True

/-- **What `encrypt_auto` wrote, `decrypt_auto` opens.** -/
theorem encryptAuto_opens {opts : EncryptOptions}
    (h : encryptAuto E data password opts = .ok container) (hr : opts.Reads E data)
    (hlen : container.length < 2 ^ 64) : decryptAuto E container password = .ok data := by
  cases opts with
  | v4 opts coins =>
    obtain ⟨frame, hf, hc⟩ := bind_eq_ok.mp h
    cases hc
    exact (decryptAuto_v4 (magicV4_frame frame)).trans (sealV4_decrypts hr hf).2
  | v5 opts coins =>
    obtain ⟨s, hs, rfl⟩ := encryptV5_eq_ok.mp h
    exact (decryptAuto_v5 (magicV5_frame s.frame)).trans (hs.decrypts hlen)

/-- **The v5 round trip.** The bound is the length of the container, a `usize`. -/
theorem encryptV5_roundtrip {opts : EncryptV5Options} {coins : Coins} (hT : E.ShufflesTerminate)
    (hS : E.ScryptAccepts) (hpw : password ≠ []) (hk : opts.kdf.Admitted)
    (hs : opts.segmentSize.toNat ≤ 2 ^ 63)
    (hlen : sealedLength opts.chunkSize
      (76 + data.length + randomPaddingLen opts.paddingPolicy coins) < 2 ^ 64) :
    ∃ n, ∀ m, n ≤ m → ∃ c, encryptV5 (E.withFuel m) data password opts coins = .ok c ∧
      magicV5 <+: c ∧ c.length = sealedLength opts.chunkSize
        (76 + data.length + randomPaddingLen opts.paddingPolicy coins) ∧
      decryptV5 (E.withFuel m) c password = .ok data ∧
      decryptAuto (E.withFuel m) c password = .ok data := by
  obtain ⟨n, hn⟩ := hT.fuel
  refine ⟨n, fun m hm => ?_⟩
  obtain ⟨s, h⟩ := sealV5_returns (hn m hm) (show (E.withFuel m).ScryptAccepts from hS) hpw hk hs hlen
  have hbytes := h.length_bytes
  rw [h.inner, length_packInner] at hbytes
  have hrun : encryptV5 (E.withFuel m) data password opts coins = .ok s.frame.bytes :=
    encryptV5_eq_ok.mpr ⟨s, h, rfl⟩
  have hopen := @encryptAuto_opens _ _ data password (.v5 opts coins) hrun trivial (hbytes ▸ hlen)
  exact ⟨s.frame.bytes, hrun, magicV5_frame _, hbytes,
    (decryptAuto_v5 (magicV5_frame _)).symm.trans hopen, hopen⟩

theorem encryptV5_roundtrip_small : ∃ n c,
    encryptV5 (Env.zero.withFuel n) [7] [1] (smallOptions 64) .zero = .ok c ∧
      decryptAuto (Env.zero.withFuel n) c [1] = .ok [7] := by
  obtain ⟨n, h⟩ := @encryptV5_roundtrip .zero [7] [1] (smallOptions 64) .zero
    Env.zero_shufflesTerminate (fun _ _ _ _ _ _ => ⟨_, rfl⟩) (List.cons_ne_nil _ _) (by decide)
    (by decide) (by decide)
  obtain ⟨c, hc, -, -, -, hd⟩ := h n le_rfl
  exact ⟨n, c, hc, hd⟩

/-- **The v4 round trip**, where serde_json and base64 read the header of the run. -/
theorem encryptV4_roundtrip {opts : EncryptV4Options} {coins : CoinsV4} (hT : E.ShufflesTerminate)
    (hr : E.Reads (opts.header coins data)) (hpw : password ≠ []) (h0 : opts.iterations ≠ 0)
    (hm : opts.iterations ≤ maxPbkdf2Iterations) :
    ∃ n, ∀ m, n ≤ m → ∃ frame,
      encryptV4 (E.withFuel m) data password opts coins = .ok (FrameV4.bytes frame) ∧
      1 ≤ frame.headerBytes.length ∧ frame.headerBytes.length ≤ maxHeaderBytes ∧
      HeaderV4.fromJsonBytes (E.withFuel m) frame.headerBytes =
        .ok ⟨4, opts.iterations, opts.salt.getD coins.salt, opts.nonce.getD coins.nonce,
          .ofNat data.length⟩ ∧
      decryptV4 (E.withFuel m) frame.bytes password = .ok data ∧
      decryptAuto (E.withFuel m) frame.bytes password = .ok data := by
  obtain ⟨n, hn⟩ := hT.fuel
  refine ⟨n, fun m hnm => ?_⟩
  obtain ⟨frame, hf⟩ := @sealV4_returns _ password data opts coins (hn m hnm) hpw h0 hm
  obtain ⟨hread, hdec⟩ := sealV4_decrypts (hr.withFuel m) hf
  obtain ⟨hpos, hmax⟩ := (hr.withFuel m).length_toJsonBytes
  rw [← (sealV4_holds hf).2.1] at hpos hmax
  exact ⟨frame, by rw [encryptV4, hf, ok_bind], hpos, hmax, hread, hdec,
    (decryptAuto_v4 (magicV4_frame _)).trans hdec⟩

theorem encryptV4_roundtrip_small : ∃ E frame,
    encryptV4 E [7] [1] .small .zero = .ok (FrameV4.bytes frame) ∧
      decryptAuto E frame.bytes [1] = .ok [7] := by
  obtain ⟨h0, hm⟩ := EncryptV4Options.small_iterations
  obtain ⟨n, h⟩ := encryptV4_roundtrip (ofHeader_shufflesTerminate _) (ofHeader_reads [7])
    (List.cons_ne_nil 1 []) h0 hm
  obtain ⟨frame, hf, -, -, -, -, hd⟩ := h n le_rfl
  exact ⟨_, frame, hf, hd⟩

end Krcm
