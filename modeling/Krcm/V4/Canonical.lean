import Krcm.V4.Transcript

/-!
# Accepted v4 containers

What `decrypt_v4` accepts is, byte for byte, what encrypting its result under
the parsed header writes (`decryptV4_reencrypts`), so a header and a plaintext
have one container under a password.
-/

namespace Krcm

open Base Outcome

variable {E : Env} {password data container : Bytes}

/-- The run of an accepted container: its parsed frame, which holds the result. -/
theorem decryptV4_parsed (h : decryptV4 E container password = .ok data) :
    ∃ frame header, parseContainerV4 E container = .ok (frame, header) ∧
      container = frame.bytes ∧ HoldsV4 E password data frame header := by
  obtain ⟨⟨frame, header⟩, hp, ho⟩ := bind_eq_ok.mp h
  exact ⟨frame, header, hp, (parseContainerV4_eq_ok.mp hp).1, openFrameV4_eq_ok.mp ho⟩

/-- Under one password, header bytes and a plaintext leave one ciphertext. -/
theorem HoldsV4.ciphertext_eq {frame₁ frame₂ : FrameV4} {header : HeaderV4}
    (h₁ : HoldsV4 E password data frame₁ header) (h₂ : HoldsV4 E password data frame₂ header) :
    frame₁.ciphertext = frame₂.ciphertext := by
  obtain ⟨_, _, hk₁, hc₁, -⟩ := h₁.keys
  obtain ⟨_, _, hk₂, hc₂, -⟩ := h₂.keys
  obtain ⟨rfl, rfl⟩ := Prod.mk.inj (ok.inj (hk₁.symm.trans hk₂))
  exact ok.inj (hc₁.symm.trans hc₂)

theorem HoldsV4.frame_eq {frame₁ frame₂ : FrameV4} {header : HeaderV4}
    (h₁ : HoldsV4 E password data frame₁ header) (h₂ : HoldsV4 E password data frame₂ header)
    (hheader : frame₁.headerBytes = frame₂.headerBytes) : frame₁ = frame₂ := by
  have hct := h₁.ciphertext_eq h₂
  have htag := h₁.tag_eq h₂ hheader hct
  cases frame₁
  cases frame₂
  dsimp only at hheader hct htag
  rw [hheader, hct, htag]

/-- **Every accepted v4 container re-encrypts to itself**, and it is the only one with its header
bytes and plaintext. -/
theorem decryptV4_reencrypts (hsize : container.length < 2 ^ 64)
    (h : decryptV4 E container password = .ok data) :
    ∃ frame header encKey authKey ciphertext,
      parseContainerV4 E container = .ok (frame, header) ∧
      HeaderV4.fromJsonBytes E frame.headerBytes = .ok header ∧
      header.originalLength.toNat = data.length ∧
      deriveKeys E password header.salt.toList header.iterations = .ok (encKey, authKey) ∧
      encryptBlocks E (pad data) encKey header.nonce.toList = .ok ciphertext ∧
      container = magicV4 ++ (beBytes 4 frame.headerBytes.length ++ (frame.headerBytes ++
        (ciphertext ++ (makeTag E authKey frame.headerBytes ciphertext).toList))) ∧
      ∀ container' frame' header', decryptV4 E container' password = .ok data →
        parseContainerV4 E container' = .ok (frame', header') →
          frame'.headerBytes = frame.headerBytes → container' = container := by
  obtain ⟨frame, header, hp, hc, hh⟩ := decryptV4_parsed h
  obtain ⟨-, -, -, -, hread⟩ := parseContainerV4_eq_ok.mp hp
  obtain ⟨encKey, authKey, hk, hct, ht⟩ := hh.keys
  refine ⟨frame, header, encKey, authKey, frame.ciphertext, hp, hread, ?_, hk, hct, ?_, ?_⟩
  · have hlen : frame.ciphertext.length ≤ container.length := by
      rw [hc]
      simp only [FrameV4.bytes, List.length_append]
      omega
    rw [hh.length_ciphertext] at hlen
    rw [hh.length, UInt64.toNat_ofNat', Nat.mod_eq_of_lt (by omega)]
  · rw [← ht]
    exact hc
  · intro container' frame' header' h' hp' hheader
    obtain ⟨frame₂, header₂, hp₂, hc₂, hh₂⟩ := decryptV4_parsed h'
    obtain ⟨rfl, rfl⟩ := Prod.mk.inj (ok.inj (hp'.symm.trans hp₂))
    obtain ⟨-, -, -, -, hread'⟩ := parseContainerV4_eq_ok.mp hp'
    rw [hheader] at hread'
    obtain rfl := ok.inj (hread.symm.trans hread')
    rw [hc₂, hc, hh₂.frame_eq hh hheader]

theorem decryptV4_reencrypts_small : ∃ E container frame header encKey authKey ciphertext,
    decryptV4 E container [1] = .ok [7] ∧
      parseContainerV4 E container = .ok (frame, header) ∧ header.originalLength = 1 ∧
      encryptBlocks E (pad [7]) encKey header.nonce.toList = .ok ciphertext ∧
      container = magicV4 ++ (beBytes 4 frame.headerBytes.length ++ (frame.headerBytes ++
        (ciphertext ++ (makeTag E authKey frame.headerBytes ciphertext).toList))) := by
  obtain ⟨n, frame, hd⟩ := small_opens [7]
  have hsize : (FrameV4.bytes frame).length < 2 ^ 64 := by
    obtain ⟨frame', header, hp, hc, hh⟩ := decryptV4_parsed hd
    obtain ⟨-, -, hmax, htag, -⟩ := parseContainerV4_eq_ok.mp hp
    have hlen := hh.length_ciphertext
    rw [hc]
    simp only [FrameV4.bytes, List.length_append, length_magicV4, length_beBytes, hlen, htag]
    simp only [maxHeaderBytes, List.length_cons, List.length_nil] at hmax ⊢
    omega
  obtain ⟨frame', header, encKey, authKey, ciphertext, hp, -, hlen, -, hct, hc, -⟩ :=
    decryptV4_reencrypts hsize hd
  exact ⟨_, _, frame', header, encKey, authKey, ciphertext, hd, hp, UInt64.toNat_inj.mp hlen, hct,
    hc⟩

end Krcm
