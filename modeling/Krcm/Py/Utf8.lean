import Krcm.Py.Text

/-!
# UTF-8 of Python text

`encode` and `decode` undo each other: a byte string decodes to a text iff the
text encodes to it (`decodeUtf8_iff`). The encoder has no bytes for surrogates,
and the decoder no text for overlong or truncated sequences.
-/

namespace Krcm.Py

open Base Outcome

/-- The code points of a `str`. -/
def IsText (s : Str) : Prop := ∀ c ∈ s, c < 0x110000

theorem toNat_byte {n : Nat} (h : n < 256) : (UInt8.ofNat n).toNat = n := by
  rw [UInt8.toNat_ofNat', Nat.mod_eq_of_lt h]

theorem byte_lt {n : Nat} (h : n < 256) {k : UInt8} : UInt8.ofNat n < k ↔ n < k.toNat := by
  rw [UInt8.lt_iff_toNat_lt, toNat_byte h]

theorem lead_bounds : UInt8.toNat 0x80 = 128 ∧ UInt8.toNat 0xC0 = 192 ∧ UInt8.toNat 0xE0 = 224 ∧
    UInt8.toNat 0xF0 = 240 := ⟨rfl, rfl, rfl, rfl⟩

theorem continuation_eq_ok {b : UInt8} {n : Nat} :
    continuation b = .ok n ↔ n < 64 ∧ b = UInt8.ofNat (0x80 + n) := by
  have hbounds := lead_bounds
  simp only [continuation, bind_eq_ok, rejectIf_eq_ok, not_not, ok.injEq, exists_const,
    UInt8.le_iff_toNat_le, UInt8.lt_iff_toNat_lt]
  constructor
  · rintro ⟨hrange, rfl⟩
    refine ⟨by omega, UInt8.toNat_inj.mp ?_⟩
    rw [toNat_byte (by omega)]
    omega
  · rintro ⟨hn, rfl⟩
    rw [toNat_byte (by omega)]
    omega

/-! ## The lengths of a sequence -/

section
variable {a b b' b'' : UInt8} {l : Bytes}

theorem decodeUtf8_one (h : a < 0x80) :
    decodeUtf8 (a :: l) = decodeUtf8 l >>= fun rest => .ok (a.toNat :: rest) := by
  rw [decodeUtf8.eq_def]
  dsimp only
  rw [if_pos h]

theorem decodeUtf8_two (h : ¬ a < 0x80) (hcont : ¬ a < 0xC0) (hlead : a < 0xE0) :
    decodeUtf8 (a :: b :: l) = continuation b >>= fun y =>
      rejectIf ((a.toNat - 0xC0) * 64 + y < 0x80) .valueError >>= fun _ =>
        decodeUtf8 l >>= fun rest => .ok (((a.toNat - 0xC0) * 64 + y) :: rest) := by
  rw [decodeUtf8.eq_def]
  dsimp only
  rw [if_neg h, if_neg hcont, if_pos hlead]

theorem decodeUtf8_three (h : ¬ a < 0xE0) (hlead : a < 0xF0) :
    decodeUtf8 (a :: b :: b' :: l) = continuation b >>= fun y => continuation b' >>= fun z =>
      rejectIf ((a.toNat - 0xE0) * 4096 + y * 64 + z < 0x800 ∨
          isSurrogate ((a.toNat - 0xE0) * 4096 + y * 64 + z)) .valueError >>= fun _ =>
        decodeUtf8 l >>= fun rest => .ok (((a.toNat - 0xE0) * 4096 + y * 64 + z) :: rest) := by
  have h1 : ¬ a < 0x80 := fun h' => h (UInt8.lt_trans h' (by decide))
  have h2 : ¬ a < 0xC0 := fun h' => h (UInt8.lt_trans h' (by decide))
  rw [decodeUtf8.eq_def]
  dsimp only
  rw [if_neg h1, if_neg h2, if_neg h, if_pos hlead]

theorem decodeUtf8_four (h : ¬ a < 0xF0) :
    decodeUtf8 (a :: b :: b' :: b'' :: l) =
      continuation b >>= fun y => continuation b' >>= fun z => continuation b'' >>= fun w =>
        rejectIf ((a.toNat - 0xF0) * 262144 + y * 4096 + z * 64 + w < 0x10000 ∨
          0x10FFFF < (a.toNat - 0xF0) * 262144 + y * 4096 + z * 64 + w) .valueError >>= fun _ =>
        decodeUtf8 l >>= fun rest =>
          .ok (((a.toNat - 0xF0) * 262144 + y * 4096 + z * 64 + w) :: rest) := by
  have h1 : ¬ a < 0x80 := fun h' => h (UInt8.lt_trans h' (by decide))
  have h2 : ¬ a < 0xC0 := fun h' => h (UInt8.lt_trans h' (by decide))
  have h3 : ¬ a < 0xE0 := fun h' => h (UInt8.lt_trans h' (by decide))
  rw [decodeUtf8.eq_def]
  dsimp only
  rw [if_neg h1, if_neg h2, if_neg h3, if_neg h]

end

/-! ## One code point -/

section
variable {c : Nat} {point l : Bytes}

/-- The decoder reads the bytes of a code point as the code point. -/
theorem decodeUtf8_point (hc : c < 0x110000) (h : encodePoint c = .ok point) :
    decodeUtf8 (point ++ l) = decodeUtf8 l >>= fun rest => .ok (c :: rest) := by
  have hbounds := lead_bounds
  have htail (n : Nat) : continuation (UInt8.ofNat (0x80 + n % 64)) = .ok (n % 64) :=
    continuation_eq_ok.mpr ⟨by omega, rfl⟩
  unfold encodePoint at h
  by_cases h1 : c < 0x80
  · rw [if_pos h1] at h
    cases h
    rw [List.singleton_append, decodeUtf8_one ((byte_lt (by omega)).mpr h1), toNat_byte (by omega)]
  by_cases h2 : c < 0x800
  · rw [if_neg h1, if_pos h2] at h
    cases h
    have hvalue : (0xC0 + c / 64 - 0xC0) * 64 + c % 64 = c := by omega
    rw [List.cons_append, List.singleton_append, decodeUtf8_two, htail, ok_bind, toNat_byte (by omega),
      hvalue, rejectIf_false h1, ok_bind]
    all_goals
      rw [byte_lt (by omega)]
      omega
  by_cases hsurrogate : isSurrogate c
  · rw [if_neg h1, if_neg h2, if_pos hsurrogate] at h
    cases h
  by_cases h3 : c < 0x10000
  · rw [if_neg h1, if_neg h2, if_neg hsurrogate, if_pos h3] at h
    cases h
    have hvalue : (0xE0 + c / 4096 - 0xE0) * 4096 + c / 64 % 64 * 64 + c % 64 = c := by omega
    rw [List.cons_append, List.cons_append, List.singleton_append, decodeUtf8_three, htail, ok_bind,
      htail, ok_bind, toNat_byte (by omega), hvalue, rejectIf_false (not_or.mpr ⟨h2, hsurrogate⟩),
      ok_bind]
    all_goals
      rw [byte_lt (by omega)]
      omega
  · rw [if_neg h1, if_neg h2, if_neg hsurrogate, if_neg h3] at h
    cases h
    have hvalue : (0xF0 + c / 262144 - 0xF0) * 262144 + c / 4096 % 64 * 4096 + c / 64 % 64 * 64 +
        c % 64 = c := by omega
    rw [List.cons_append, List.cons_append, List.cons_append, List.singleton_append, decodeUtf8_four,
      htail, ok_bind, htail, ok_bind, htail, ok_bind, toNat_byte (by omega), hvalue,
      rejectIf_false (by omega), ok_bind]
    rw [byte_lt (by omega)]
    omega

/-- What was decoded starts with the bytes of its first code point. -/
theorem decodeUtf8_cons {a : UInt8} {s : Str} (h : decodeUtf8 (a :: l) = .ok s) :
    ∃ c point rest tail, s = c :: rest ∧ a :: l = point ++ tail ∧ point ≠ [] ∧ c < 0x110000 ∧
      encodePoint c = .ok point ∧ decodeUtf8 tail = .ok rest := by
  have hbounds := lead_bounds
  have ha := a.toNat_lt
  have hback {n : Nat} (hn : n = a.toNat) : UInt8.ofNat n = a := by rw [hn, UInt8.ofNat_toNat]
  by_cases h1 : a < 0x80
  · rw [decodeUtf8_one h1, bind_eq_ok] at h
    obtain ⟨rest, hrest, hs⟩ := h
    rw [UInt8.lt_iff_toNat_lt] at h1
    refine ⟨a.toNat, [a], rest, l, (ok.inj hs).symm, rfl, List.cons_ne_nil _ _, by omega, ?_, hrest⟩
    unfold encodePoint
    rw [if_pos (by omega), UInt8.ofNat_toNat]
  by_cases h2 : a < 0xC0
  · rw [decodeUtf8.eq_def] at h
    dsimp only at h
    rw [if_neg h1, if_pos h2] at h
    cases h
  by_cases h3 : a < 0xE0
  · rcases l with - | ⟨b, l⟩
    · rw [decodeUtf8.eq_def] at h
      dsimp only at h
      rw [if_neg h1, if_neg h2, if_pos h3] at h
      cases h
    simp only [decodeUtf8_two h1 h2 h3, bind_eq_ok, rejectIf_eq_ok, continuation_eq_ok] at h
    obtain ⟨y, ⟨hy, rfl⟩, _, hlow, rest, hrest, hs⟩ := h
    rw [UInt8.lt_iff_toNat_lt] at h1 h2 h3
    refine ⟨_, [a, _], rest, l, (ok.inj hs).symm, rfl, List.cons_ne_nil _ _, by omega, ?_, hrest⟩
    unfold encodePoint
    rw [if_neg hlow, if_pos (by omega), hback (by omega)]
    have hlast : ((a.toNat - 0xC0) * 64 + y) % 64 = y := by omega
    rw [hlast]
  by_cases h4 : a < 0xF0
  · rcases l with - | ⟨b, - | ⟨b', l⟩⟩
    iterate 2
      rw [decodeUtf8.eq_def] at h
      dsimp only at h
      rw [if_neg h1, if_neg h2, if_neg h3, if_pos h4] at h
      cases h
    simp only [decodeUtf8_three h3 h4, bind_eq_ok, rejectIf_eq_ok, continuation_eq_ok] at h
    obtain ⟨y, ⟨hy, rfl⟩, z, ⟨hz, rfl⟩, _, hlow, rest, hrest, hs⟩ := h
    rw [not_or] at hlow
    rw [UInt8.lt_iff_toNat_lt] at h3 h4
    refine ⟨_, [a, _, _], rest, l, (ok.inj hs).symm, rfl, List.cons_ne_nil _ _, by omega, ?_, hrest⟩
    unfold encodePoint
    rw [if_neg (by omega), if_neg hlow.1, if_neg hlow.2, if_pos (by omega), hback (by omega)]
    have hmid : ((a.toNat - 0xE0) * 4096 + y * 64 + z) / 64 % 64 = y := by omega
    have hlast : ((a.toNat - 0xE0) * 4096 + y * 64 + z) % 64 = z := by omega
    rw [hmid, hlast]
  · rcases l with - | ⟨b, - | ⟨b', - | ⟨b'', l⟩⟩⟩
    iterate 3
      rw [decodeUtf8.eq_def] at h
      dsimp only at h
      rw [if_neg h1, if_neg h2, if_neg h3, if_neg h4] at h
      cases h
    simp only [decodeUtf8_four h4, bind_eq_ok, rejectIf_eq_ok, continuation_eq_ok] at h
    obtain ⟨y, ⟨hy, rfl⟩, z, ⟨hz, rfl⟩, w, ⟨hw, rfl⟩, _, hrange, rest, hrest, hs⟩ := h
    rw [not_or] at hrange
    rw [UInt8.lt_iff_toNat_lt] at h4
    refine ⟨_, [a, _, _, _], rest, l, (ok.inj hs).symm, rfl, List.cons_ne_nil _ _, by omega, ?_, hrest⟩
    have hsurrogate : ¬ isSurrogate ((a.toNat - 0xF0) * 262144 + y * 4096 + z * 64 + w) := by
      intro hs
      have := of_decide_eq_true hs
      omega
    unfold encodePoint
    rw [if_neg (by omega), if_neg (by omega), if_neg hsurrogate, if_neg (by omega), hback (by omega)]
    have hhigh : ((a.toNat - 0xF0) * 262144 + y * 4096 + z * 64 + w) / 4096 % 64 = y := by omega
    have hmid : ((a.toNat - 0xF0) * 262144 + y * 4096 + z * 64 + w) / 64 % 64 = z := by omega
    have hlast : ((a.toNat - 0xF0) * 262144 + y * 4096 + z * 64 + w) % 64 = w := by omega
    rw [hhigh, hmid, hlast]

end

/-! ## Texts -/

theorem encodeUtf8_cons_eq_ok {c : Nat} {s : Str} {data : Bytes} :
    encodeUtf8 (c :: s) = .ok data ↔ ∃ point rest, encodePoint c = .ok point ∧
      encodeUtf8 s = .ok rest ∧ data = point ++ rest := by
  simp only [encodeUtf8, bind_eq_ok, ok.injEq, eq_comm (b := data)]
  constructor
  · rintro ⟨point, hpoint, rest, hrest, hdata⟩
    exact ⟨point, rest, hpoint, hrest, hdata⟩
  · rintro ⟨point, rest, hpoint, hrest, hdata⟩
    exact ⟨point, hpoint, rest, hrest, hdata⟩

/-- **Decoding undoes encoding, and encoding decoding.** -/
theorem decodeUtf8_iff {data : Bytes} {s : Str} :
    decodeUtf8 data = .ok s ↔ IsText s ∧ encodeUtf8 s = .ok data := by
  constructor
  · intro h
    induction hn : data.length using Nat.strong_induction_on generalizing data s with
    | _ n ih =>
      cases data with
      | nil =>
        cases h
        exact ⟨nofun, rfl⟩
      | cons a l =>
        obtain ⟨c, point, rest, tail, rfl, hsplit, hne, hc, hpoint, hrest⟩ := decodeUtf8_cons h
        have hlen := congrArg List.length hsplit
        have hpos := List.length_pos_iff.mpr hne
        rw [List.length_append] at hlen
        obtain ⟨htext, hencode⟩ := ih tail.length (by omega) hrest rfl
        refine ⟨List.forall_mem_cons.mpr ⟨hc, htext⟩, ?_⟩
        rw [hsplit]
        exact encodeUtf8_cons_eq_ok.mpr ⟨point, tail, hpoint, hencode, rfl⟩
  · rintro ⟨htext, h⟩
    induction s generalizing data with
    | nil =>
      cases h
      rfl
    | cons c s ih =>
      obtain ⟨point, rest, hpoint, hrest, rfl⟩ := encodeUtf8_cons_eq_ok.mp h
      obtain ⟨hc, hs⟩ := List.forall_mem_cons.mp htext
      rw [decodeUtf8_point hc hpoint, ih hs hrest, ok_bind]

end Krcm.Py
