import Krcm.Env

/-!
# Padding

`pad` appends between 1 and 32 bytes, each holding their number; `unpad`
accepts exactly the images of `pad` (`unpad_eq_ok`).
-/

namespace Krcm

open Base

def pad (data : Bytes) : Bytes :=
  let padLen := blockBytes - data.length % blockBytes
  let padLen := if padLen = 0 then blockBytes else padLen
  data ++ List.replicate padLen (UInt8.ofNat padLen)

def unpad (data : Bytes) : Run Bytes := do
  Outcome.rejectIf (data = [] ∨ data.length % blockBytes ≠ 0) .format
  let last ← Outcome.okOr data.getLast? .format
  let padLen := last.toNat
  Outcome.rejectIf (¬ (1 ≤ padLen ∧ padLen ≤ blockBytes) ∨ data.length < padLen) .authentication
  let padding ← Outcome.slice data (data.length - padLen) data.length
  Outcome.rejectIf (padding.any fun byte => byte.toNat ≠ padLen) .authentication
  Outcome.slice data 0 (data.length - padLen)

/-- The number of bytes `pad` appends. -/
def padLength (data : Bytes) : Nat := 32 - data.length % 32

theorem padLength_bounds (data : Bytes) : 1 ≤ padLength data ∧ padLength data ≤ 32 := by
  unfold padLength
  omega

theorem pad_eq (data : Bytes) :
    pad data = data ++ List.replicate (padLength data) (UInt8.ofNat (padLength data)) := by
  have h0 : ¬ 32 - data.length % 32 = 0 := by omega
  simp only [pad, blockBytes, padLength, h0, ↓reduceIte]

theorem length_pad (data : Bytes) : (pad data).length = 32 * (data.length / 32 + 1) := by
  rw [pad_eq, List.length_append, List.length_replicate]
  unfold padLength
  omega

theorem length_pad_mod (data : Bytes) : (pad data).length % 32 = 0 := by
  rw [length_pad]
  omega

theorem pad_ne_nil (data : Bytes) : pad data ≠ [] := by
  intro h
  have := congrArg List.length h
  rw [length_pad] at this
  simp at this

theorem getLast_pad (data : Bytes) : (pad data).getLast? = some (UInt8.ofNat (padLength data)) := by
  have h := padLength_bounds data
  rw [pad_eq, List.getLast?_append, List.getLast?_replicate, if_neg (by omega)]
  rfl

theorem toNat_padLength (data : Bytes) :
    (UInt8.ofNat (padLength data)).toNat = padLength data := by
  have h := padLength_bounds data
  rw [UInt8.toNat_ofNat', Nat.mod_eq_of_lt (by omega)]

theorem unpad_pad (data : Bytes) : unpad (pad data) = .ok data := by
  have hb := padLength_bounds data
  have hlen : (pad data).length = data.length + padLength data := by
    rw [pad_eq, List.length_append, List.length_replicate]
  have hsub : (pad data).length - padLength data = data.length := by omega
  unfold unpad
  rw [Outcome.rejectIf_false (by simp [pad_ne_nil, length_pad_mod]), Outcome.ok_bind, getLast_pad]
  dsimp only [Outcome.okOr, Outcome.ok_bind]
  rw [toNat_padLength, Outcome.rejectIf_false (by simp only [blockBytes]; omega), Outcome.ok_bind, hsub,
    Outcome.slice_mid (p := data) (m := List.replicate (padLength data) (UInt8.ofNat (padLength data)))
      (s := []) (by rw [pad_eq]; simp) rfl (by simp [hlen]), Outcome.ok_bind,
    Outcome.rejectIf_false (by simp only [List.any_replicate, toNat_padLength]; simp), Outcome.ok_bind]
  exact Outcome.slice_mid (p := []) (by rw [pad_eq]; rfl) rfl (by simp)

/-- **`unpad` accepts exactly the images of `pad`.** -/
theorem unpad_eq_ok {x y : Bytes} : unpad x = .ok y ↔ x = pad y := by
  refine ⟨fun h => ?_, fun h => h ▸ unpad_pad y⟩
  simp only [unpad, blockBytes, Outcome.bind_eq_ok, Outcome.rejectIf_eq_ok, Outcome.okOr_eq_ok] at h
  obtain ⟨-, hx, last, -, -, hrange, padding, hpadding, -, hall, hy⟩ := h
  have hjoin := Outcome.slice_all (Outcome.slice_append hy hpadding) rfl
  obtain ⟨-, -, hylen⟩ := Outcome.slice_bounds hy
  obtain ⟨-, -, hplen⟩ := Outcome.slice_bounds hpadding
  have hlen : padLength y = last.toNat := by
    unfold padLength
    omega
  have hrep : padding = List.replicate last.toNat last := by
    refine List.eq_replicate_iff.mpr ⟨by omega, fun b hb => ?_⟩
    simp only [List.any_eq_true, not_exists, not_and, decide_eq_true_eq, not_not] at hall
    exact UInt8.toNat_inj.mp (hall b hb)
  rw [← hjoin, hrep, pad_eq, hlen, UInt8.ofNat_toNat]

theorem unpad_settles (x : Bytes) : Outcome.Settles (unpad x) := by
  unfold unpad
  refine Outcome.settles_bind Outcome.rejectIf_settles fun _ _ => ?_
  refine Outcome.settles_bind Outcome.okOr_settles fun last _ => ?_
  refine Outcome.settles_bind Outcome.rejectIf_settles fun _ hrange => ?_
  rw [Outcome.rejectIf_eq_ok] at hrange
  refine Outcome.settles_bind (Outcome.slice_settles (by omega) le_rfl) fun _ _ => ?_
  refine Outcome.settles_bind Outcome.rejectIf_settles fun _ _ => ?_
  exact Outcome.slice_settles (Nat.zero_le _) (by omega)

/-- Everything else is rejected. -/
theorem unpad_rejects {x : Bytes} (h : ∀ y, x ≠ pad y) : ∃ e, unpad x = .err e := by
  have hs := unpad_settles x
  cases hx : unpad x with
  | ok y => exact absurd (unpad_eq_ok.mp hx) (h y)
  | err e => exact ⟨e, rfl⟩
  | panic => rw [hx] at hs; exact absurd hs Outcome.not_settles_panic
  | timeout => rw [hx] at hs; exact absurd hs Outcome.not_settles_timeout

/-- The padded text is longer, -/
theorem length_lt_pad (data : Bytes) : data.length < (pad data).length := by
  rw [length_pad]
  omega

/-- and no whole number of blocks lies between the two. -/
theorem length_pad_le {data z : Bytes} (hz : z.length % 32 = 0) (h : data.length < z.length) :
    (pad data).length ≤ z.length := by
  rw [length_pad]
  omega

end Krcm
