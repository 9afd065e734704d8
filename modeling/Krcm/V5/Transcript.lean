import Krcm.V5.Sealing

/-!
# The tag and the framing

The length-prefixed transcript under `tag_v5` determines its fields
(`transcript_inj`), and the exact-length checks of the framing determine every
byte outside them. So a container that gets as far as the tag comparison is
known from the authenticated message and its last 32 bytes.
-/

namespace Krcm

open Base Outcome

theorem transcript_eq (publicHeader : Bytes) (siv : Hash) (table ciphertext : Bytes) :
    transcript publicHeader siv table ciphertext =
      beBytes 8 (ascii "KRCM-v5-TAG").length ++ (ascii "KRCM-v5-TAG" ++
        (beBytes 8 publicHeader.length ++ (publicHeader ++ (beBytes 8 siv.toList.length ++
          (siv.toList ++ (beBytes 8 table.length ++ (table ++
            (beBytes 8 ciphertext.length ++ (ciphertext ++ []))))))))) := by
  simp [transcript, appendField]

theorem transcript_inj {h k : Bytes} {siv siv' : Hash} {t u c d : Bytes} (hh : h.length < 2 ^ 64)
    (hk : k.length < 2 ^ 64) (ht : t.length < 2 ^ 64) (hu : u.length < 2 ^ 64)
    (hc : c.length < 2 ^ 64) (hd : d.length < 2 ^ 64)
    (heq : transcript h siv t c = transcript k siv' u d) : h = k ∧ siv = siv' ∧ t = u ∧ c = d := by
  rw [transcript_eq, transcript_eq] at heq
  have hs (v : Hash) : v.toList.length < 2 ^ 64 := by rw [Vector.length_toList]; decide
  obtain ⟨-, heq⟩ := field_append_inj (by decide) (by decide) heq
  obtain ⟨h1, heq⟩ := field_append_inj hh hk heq
  obtain ⟨h2, heq⟩ := field_append_inj (hs _) (hs _) heq
  obtain ⟨h3, heq⟩ := field_append_inj ht hu heq
  obtain ⟨h4, -⟩ := field_append_inj hc hd heq
  exact ⟨h1, Vector.toList_inj.mp h2, h3, h4⟩

/-- The tag is the last 32 bytes of a container the framing accepts. -/
theorem frame_tag {frame : Frame} (htag : frame.tag.length = 32) :
    frame.bytes.drop (frame.bytes.length - tagBytes) = frame.tag := by
  have hsplit : frame.bytes = { frame with tag := [] }.bytes ++ frame.tag := by
    simp [Frame.bytes]
  rw [hsplit, List.length_append, htag, tagBytes, Nat.add_sub_cancel, List.drop_left]

/-- **The tag leaves no malleable byte.** -/
theorem container_eq_of_transcript_eq {E : Env} {c₁ c₂ : Bytes} {frame₁ frame₂ : Frame}
    {parsed₁ parsed₂ : ParsedHeader} (h₁ : parseContainer E c₁ = .ok (frame₁, parsed₁))
    (h₂ : parseContainer E c₂ = .ok (frame₂, parsed₂))
    (hmessage : transcript frame₁.publicHeader.toList frame₁.syntheticIv frame₁.segmentTable
      frame₁.ciphertext = transcript frame₂.publicHeader.toList frame₂.syntheticIv
        frame₂.segmentTable frame₂.ciphertext)
    (htag : c₁.drop (c₁.length - tagBytes) = c₂.drop (c₂.length - tagBytes)) : c₁ = c₂ := by
  obtain ⟨rfl, hlt₁, -, -, ht₁⟩ := parseContainer_eq_ok.mp h₁
  obtain ⟨rfl, hlt₂, -, -, ht₂⟩ := parseContainer_eq_ok.mp h₂
  rw [frame_tag ht₁, frame_tag ht₂] at htag
  have hheader (v : Arr headerV5Size) : v.toList.length < 2 ^ 64 := by
    rw [Vector.length_toList]
    decide
  rw [length_frame] at hlt₁ hlt₂
  obtain ⟨hh, hsiv, htable, hct⟩ := transcript_inj (hheader _) (hheader _) (by omega) (by omega)
    (by omega) (by omega) hmessage
  obtain ⟨header, siv, table, ciphertext, tag⟩ := frame₁
  cases frame₂
  dsimp only at hh hsiv htable hct htag
  rw [Vector.toList_inj.mp hh, hsiv, htable, hct, htag]

theorem container_eq_of_transcript_eq_small : ∃ n frame parsed container,
    parseContainer (Env.zero.withFuel n) container = .ok (frame, parsed) ∧ container = container := by
  obtain ⟨n, hn⟩ := Env.zero_shufflesTerminate.fuel
  obtain ⟨s, hs, hlen⟩ := zero_seals (hn n le_rfl) [7] 64 (by decide) (by decide)
  exact ⟨n, _, _, _, hs.parses hlen,
    container_eq_of_transcript_eq (hs.parses hlen) (hs.parses hlen) rfl rfl⟩

end Krcm
