import Krcm.V4.Container

/-!
# The v4 tag

`make_tag` authenticates the header bytes and the ciphertext without a
separator, so another split of the same bytes carries the same tag. Two splits
never both open: the longer header is the shorter one and whitespace, it states
the same length, and the padding admits one number of blocks for a length.
-/

namespace Krcm

open Base Outcome

variable {E : Env} {password password₁ password₂ data₁ data₂ : Bytes} {frame₁ frame₂ : FrameV4}
  {header₁ header₂ : HeaderV4}

/-- The ciphertext of a frame that opens: the whole blocks of the padded data. -/
theorem HoldsV4.length_ciphertext {data : Bytes} {frame : FrameV4} {header : HeaderV4}
    (h : HoldsV4 E password data frame header) :
    frame.ciphertext.length = 32 * (data.length / 32 + 1) := by
  obtain ⟨_, _, -, hc, -⟩ := h.keys
  rw [(encryptBlocks_length hc).1, length_pad]

/-- Bytes moved from the front of one ciphertext to the end of a header are none. -/
theorem moved_nil (hJ : E.ObjectsEndInWhitespace) {rest : Bytes}
    (h₁ : HoldsV4 E password₁ data₁ frame₁ header₁) (h₂ : HoldsV4 E password₂ data₂ frame₂ header₂)
    (hp₁ : HeaderV4.fromJsonBytes E frame₁.headerBytes = .ok header₁)
    (hp₂ : HeaderV4.fromJsonBytes E frame₂.headerBytes = .ok header₂)
    (hmax : frame₂.headerBytes.length ≤ maxHeaderBytes)
    (hheader : frame₂.headerBytes = frame₁.headerBytes ++ rest)
    (hct : frame₁.ciphertext = rest ++ frame₂.ciphertext) : rest = [] := by
  rw [hheader] at hp₂ hmax
  have heq := fromJsonBytes_append hJ hp₁ hp₂
  have hlen := congrArg UInt64.toNat (h₁.length.symm.trans (heq ▸ h₂.length))
  have hc := congrArg List.length hct
  rw [List.length_append, h₁.length_ciphertext, h₂.length_ciphertext] at hc
  rw [UInt64.toNat_ofNat', UInt64.toNat_ofNat'] at hlen
  rw [List.length_append] at hmax
  dsimp only [maxHeaderBytes] at hmax
  -- Fewer than 4096 bytes moved, so the stated lengths agree without a wrap.
  exact List.length_eq_zero_iff.mp (by omega)

/-- The split of an authenticated message into header and ciphertext is unique. -/
theorem split_unique (hJ : E.ObjectsEndInWhitespace)
    (h₁ : HoldsV4 E password₁ data₁ frame₁ header₁) (h₂ : HoldsV4 E password₂ data₂ frame₂ header₂)
    (hp₁ : HeaderV4.fromJsonBytes E frame₁.headerBytes = .ok header₁)
    (hp₂ : HeaderV4.fromJsonBytes E frame₂.headerBytes = .ok header₂)
    (hmax₁ : frame₁.headerBytes.length ≤ maxHeaderBytes)
    (hmax₂ : frame₂.headerBytes.length ≤ maxHeaderBytes)
    (hmessage : frame₁.headerBytes ++ frame₁.ciphertext =
      frame₂.headerBytes ++ frame₂.ciphertext) :
    frame₁.headerBytes = frame₂.headerBytes ∧ frame₁.ciphertext = frame₂.ciphertext := by
  rcases List.append_eq_append_iff.mp hmessage with ⟨rest, hh, hc⟩ | ⟨rest, hh, hc⟩
  · obtain rfl := moved_nil hJ h₁ h₂ hp₁ hp₂ hmax₂ hh hc
    exact ⟨by rw [hh, List.append_nil], hc⟩
  · obtain rfl := moved_nil hJ h₂ h₁ hp₂ hp₁ hmax₁ hh hc
    exact ⟨by rw [hh, List.append_nil], hc.symm⟩

/-- Under one password, a frame that opens is known from its header and ciphertext. -/
theorem HoldsV4.tag_eq (h₁ : HoldsV4 E password data₁ frame₁ header₁)
    (h₂ : HoldsV4 E password data₂ frame₂ header₁)
    (hheader : frame₁.headerBytes = frame₂.headerBytes)
    (hct : frame₁.ciphertext = frame₂.ciphertext) : frame₁.tag = frame₂.tag := by
  obtain ⟨_, _, hk₁, -, ht₁⟩ := h₁.keys
  obtain ⟨_, _, hk₂, -, ht₂⟩ := h₂.keys
  obtain ⟨rfl, rfl⟩ := Prod.mk.inj (ok.inj (hk₁.symm.trans hk₂))
  rw [ht₁, ht₂, hheader, hct]

/-- **No two accepted v4 containers authenticate the same bytes.** -/
theorem container_eq_of_messageV4_eq (hJ : E.ObjectsEndInWhitespace) {c₁ c₂ : Bytes}
    (h₁ : decryptV4 E c₁ password = .ok data₁) (h₂ : decryptV4 E c₂ password = .ok data₂)
    (hp₁ : parseContainerV4 E c₁ = .ok (frame₁, header₁))
    (hp₂ : parseContainerV4 E c₂ = .ok (frame₂, header₂))
    (hmessage : frame₁.headerBytes ++ frame₁.ciphertext =
      frame₂.headerBytes ++ frame₂.ciphertext) :
    c₁ = c₂ ∧ frame₁ = frame₂ ∧ data₁ = data₂ := by
  have ho₁ := h₁
  have ho₂ := h₂
  unfold decryptV4 at ho₁
  rw [hp₁, ok_bind, openFrameV4_eq_ok] at ho₁
  unfold decryptV4 at ho₂
  rw [hp₂, ok_bind, openFrameV4_eq_ok] at ho₂
  obtain ⟨rfl, -, hmax₁, -, hr₁⟩ := parseContainerV4_eq_ok.mp hp₁
  obtain ⟨rfl, -, hmax₂, -, hr₂⟩ := parseContainerV4_eq_ok.mp hp₂
  obtain ⟨hheader, hct⟩ := split_unique hJ ho₁ ho₂ hr₁ hr₂ hmax₁ hmax₂ hmessage
  rw [hheader] at hr₁
  obtain rfl := ok.inj (hr₁.symm.trans hr₂)
  have htag := ho₁.tag_eq ho₂ hheader hct
  obtain ⟨headerBytes, ciphertext, tag⟩ := frame₁
  cases frame₂
  dsimp only at hheader hct htag
  subst hheader hct htag
  exact ⟨rfl, rfl, ok.inj (h₁.symm.trans h₂)⟩

theorem container_eq_of_messageV4_eq_small : ∃ E c frame header,
    decryptV4 E c [1] = .ok [7] ∧ parseContainerV4 E c = .ok (frame, header) ∧
      c = c ∧ frame = frame ∧ ([7] : Bytes) = [7] := by
  obtain ⟨n, frame, hd⟩ := small_opens [7]
  obtain ⟨⟨frame, header⟩, hp, -⟩ := bind_eq_ok.mp hd
  exact ⟨_, _, frame, header, hd, hp,
    container_eq_of_messageV4_eq ((ofHeader_objects _).withFuel n) hd hd hp hp rfl⟩

end Krcm
