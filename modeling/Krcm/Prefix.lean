import Krcm.Auto
import Krcm.Base.PrefixCode

/-!
# Where a container ends

A container says itself how long it is: `decrypt_v4` reads the length of the
header and, in it, the length of the data; `decrypt_v5` reads the length of
the table and that of the ciphertext. So the containers that open, under
whatever passwords, are a prefix code: no cut and no extension of one opens,
and containers written one after the other are told apart.
-/

namespace Krcm

open Base Outcome

variable {E : Env}

/-! ## Version 4 -/

/-- Of two frames the longer of which starts with the other, the headers are one. -/
theorem headerBytes_eq_of_prefix {f₁ f₂ : FrameV4} (h : f₁.bytes <+: f₂.bytes)
    (h₁ : f₁.headerBytes.length ≤ maxHeaderBytes) (h₂ : f₂.headerBytes.length ≤ maxHeaderBytes) :
    f₁.headerBytes = f₂.headerBytes := by
  obtain ⟨rest, heq⟩ := h
  dsimp only [maxHeaderBytes] at h₁ h₂
  simp only [FrameV4.bytes, List.append_assoc] at heq
  have hbehind := List.append_cancel_left heq
  obtain ⟨hlen, hbody⟩ := List.append_inj hbehind (by rw [length_beBytes, length_beBytes])
  have hsize := beBytes_inj (by omega) (by omega) hlen
  exact (List.append_inj hbody hsize).1

/-- Frames whose headers state the length of the ciphertext have the length of their header. -/
theorem length_eq_of_prefix {f₁ f₂ : FrameV4} (h : f₁.bytes <+: f₂.bytes)
    (h₁ : f₁.headerBytes.length ≤ maxHeaderBytes) (h₂ : f₂.headerBytes.length ≤ maxHeaderBytes)
    (ht₁ : f₁.tag.length = 32) (ht₂ : f₂.tag.length = 32)
    (hct : f₁.headerBytes = f₂.headerBytes → f₁.ciphertext.length = f₂.ciphertext.length) :
    f₁.bytes.length = f₂.bytes.length := by
  have hheader := headerBytes_eq_of_prefix h h₁ h₂
  simp only [FrameV4.bytes, List.length_append, length_beBytes, ht₁, ht₂, hheader, hct hheader]

/-- The containers that `decrypt_v4` opens. -/
def OpenedV4 (E : Env) : Set Bytes :=
  {c | c.length < 2 ^ 64 ∧ ∃ password data, decryptV4 E c password = .ok data}

/-- A container that opens, and the length its header states. -/
theorem frame_of_openedV4 {c : Bytes} (h : c ∈ OpenedV4 E) : ∃ frame header,
    c = FrameV4.bytes frame ∧ frame.headerBytes.length ≤ maxHeaderBytes ∧ frame.tag.length = 32 ∧
      HeaderV4.fromJsonBytes E frame.headerBytes = .ok header ∧
      frame.ciphertext.length = 32 * (header.originalLength.toNat / 32 + 1) := by
  obtain ⟨hsize, password, data, hopen⟩ := h
  obtain ⟨⟨frame, header⟩, hp, ho⟩ := bind_eq_ok.mp hopen
  obtain ⟨hc, -, hmax, ht, hread⟩ := parseContainerV4_eq_ok.mp hp
  have hh : HoldsV4 E password data frame header := openFrameV4_eq_ok.mp ho
  have hlen := hh.length_ciphertext
  refine ⟨frame, header, hc, hmax, ht, hread, ?_⟩
  rw [hc] at hsize
  simp only [FrameV4.bytes, List.length_append] at hsize
  -- The data is shorter than the container, so the stated length did not wrap.
  rw [hlen, hh.length, UInt64.toNat_ofNat', Nat.mod_eq_of_lt (by omega)]

theorem prefixCode_v4 (E : Env) : PrefixCode (OpenedV4 E) := by
  refine .of_length ?_ fun u hu v hv h => ?_
  · intro h
    obtain ⟨frame, -, hc, -⟩ := frame_of_openedV4 h
    cases hc
  · obtain ⟨f₁, header₁, rfl, hmax₁, ht₁, hread₁, hlen₁⟩ := frame_of_openedV4 hu
    obtain ⟨f₂, header₂, rfl, hmax₂, ht₂, hread₂, hlen₂⟩ := frame_of_openedV4 hv
    refine length_eq_of_prefix h hmax₁ hmax₂ ht₁ ht₂ fun hheader => ?_
    rw [hheader] at hread₁
    obtain rfl := ok.inj (hread₁.symm.trans hread₂)
    rw [hlen₁, hlen₂]

/-! ## Version 5 -/

/-- The containers that `decrypt_v5` opens. -/
def OpenedV5 (E : Env) : Set Bytes :=
  {c | ∃ password data, decryptV5 E c password = .ok data}

/-- A written frame states the lengths of its table and of its ciphertext. -/
theorem frame_length_eq_of_prefix {f₁ f₂ : Frame} (h : f₁.bytes <+: f₂.bytes)
    (h₁ : f₁.bytes.length < 2 ^ 64) (h₂ : f₂.bytes.length < 2 ^ 64) (ht₁ : f₁.tag.length = 32)
    (ht₂ : f₂.tag.length = 32) : f₁.bytes.length = f₂.bytes.length := by
  obtain ⟨rest, heq⟩ := h
  rw [length_frame] at h₁ h₂
  simp only [Frame.bytes, List.append_assoc] at heq
  have hbehind := List.append_cancel_left (List.append_cancel_left (List.append_cancel_left heq))
  obtain ⟨-, hbehind⟩ := List.append_inj hbehind (by rw [Vector.length_toList, Vector.length_toList])
  obtain ⟨-, hbehind⟩ := List.append_inj hbehind (by rw [Vector.length_toList, Vector.length_toList])
  obtain ⟨htable, hbehind⟩ := field_append_inj (by omega) (by omega) hbehind
  obtain ⟨hct, -⟩ := List.append_inj hbehind (by rw [length_beBytes, length_beBytes])
  have hlen := beBytes_inj (by omega) (by omega) hct
  rw [length_frame, length_frame, htable, hlen, ht₁, ht₂]

theorem frame_of_openedV5 {c : Bytes} (h : c ∈ OpenedV5 E) :
    ∃ frame, c = Frame.bytes frame ∧ c.length < 2 ^ 64 ∧ frame.tag.length = 32 := by
  obtain ⟨password, data, hopen⟩ := h
  obtain ⟨⟨frame, parsed⟩, hp, -⟩ := bind_eq_ok.mp hopen
  obtain ⟨hc, hsize, -, -, ht⟩ := parseContainer_eq_ok.mp hp
  exact ⟨frame, hc, hsize, ht⟩

theorem prefixCode_v5 (E : Env) : PrefixCode (OpenedV5 E) := by
  refine .of_length ?_ fun u hu v hv h => ?_
  · intro h
    obtain ⟨frame, hc, -⟩ := frame_of_openedV5 h
    cases hc
  · obtain ⟨f₁, rfl, h₁, ht₁⟩ := frame_of_openedV5 hu
    obtain ⟨f₂, rfl, h₂, ht₂⟩ := frame_of_openedV5 hv
    exact frame_length_eq_of_prefix h h₁ h₂ ht₁ ht₂

/-! ## Both -/

/-- The containers that `decrypt_auto` opens under some password. -/
def Opened (E : Env) : Set Bytes :=
  {c | c.length < 2 ^ 64 ∧ ∃ password data, decryptAuto E c password = .ok data}

theorem opened_subset (E : Env) : Opened E ⊆ OpenedV4 E ∪ OpenedV5 E := by
  rintro c ⟨hsize, password, data, h⟩
  unfold decryptAuto at h
  split_ifs at h
  · exact .inl ⟨hsize, password, data, h⟩
  · exact .inr ⟨password, data, h⟩

theorem prefixCode_opened (E : Env) : PrefixCode (Opened E) := by
  refine (PrefixCode.union (prefixCode_v4 E) (prefixCode_v5 E) (m := magicV4) (n := magicV5)
    (by rw [length_magicV4, length_magicV5]) (by decide) ?_ ?_).mono (opened_subset E)
  · intro c hc
    obtain ⟨frame, -, rfl, -⟩ := frame_of_openedV4 hc
    exact magicV4_frame frame
  · intro c hc
    obtain ⟨frame, rfl, -⟩ := frame_of_openedV5 hc
    exact magicV5_frame frame

end Krcm
