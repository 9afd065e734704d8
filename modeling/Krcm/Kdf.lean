import Krcm.Env

/-!
# Key derivation

`kdf.rs`: the key types, the PBKDF2 keys of the v4 format, the root key and
the five subkeys of the v5 format, and the v4 tag.
-/

namespace Krcm

open Base

structure EncKey where
  key : Hash

structure AuthKey where
  key : Hash

structure RootKey where
  key : Hash

structure SivKey where
  key : Hash

structure BlockKey where
  key : Hash

structure SegmentKey where
  key : Hash

inductive KdfParams where
  | pbkdf2 (iterations : UInt32)
  | scrypt (nLog2 : UInt8) (r p : UInt32)
  deriving DecidableEq, Repr

structure V5Keys where
  encKey : EncKey
  authKey : AuthKey
  sivKey : SivKey
  blockKey : BlockKey
  segmentKey : SegmentKey

/-- The bounds `pack_public_header` and `derive_root_key` both put on the parameters. -/
def KdfParams.Admitted : KdfParams → Prop
  | .pbkdf2 iterations => iterations ≠ 0 ∧ iterations ≤ maxPbkdf2Iterations
  | .scrypt nLog2 r p => nLog2 ≤ 15 ∧ r ≠ 0 ∧ r ≤ 8 ∧ p ≠ 0 ∧ p ≤ 2

instance (params : KdfParams) : Decidable params.Admitted :=
  match params with
  | .pbkdf2 _ => inferInstanceAs (Decidable (_ ∧ _))
  | .scrypt .. => inferInstanceAs (Decidable (_ ∧ _ ∧ _ ∧ _ ∧ _))

variable (E : Env)

def deriveKeys (password salt : Bytes) (iterations : UInt32) : Run (EncKey × AuthKey) := do
  Outcome.rejectIf (password = []) .invalidPassword
  Outcome.rejectIf (salt.length ≠ saltBytes ∨ iterations = 0 ∨ iterations > maxPbkdf2Iterations)
    .invalidParameter
  let root := (E.pbkdf2Hmac password salt iterations 64).toList
  let enc := E.hmacSha256 (root.extract 0 32) (ascii "AMPC-ENC")
  let auth := E.hmacSha256 (root.extract 32 64) (ascii "AMPC-AUTH")
  .ok (⟨enc⟩, ⟨auth⟩)

def makeTag (authKey : AuthKey) (headerBytes ciphertext : Bytes) : Hash :=
  E.hmacSha256 authKey.key.toList (headerBytes ++ ciphertext)

def deriveRootKey (password salt : Bytes) (params : KdfParams) : Run RootKey := do
  Outcome.rejectIf (password = [] ∨ salt.length ≠ saltBytes) .invalidParameter
  match params with
  | .pbkdf2 iterations => do
    Outcome.rejectIf (iterations = 0 ∨ iterations > maxPbkdf2Iterations) .invalidParameter
    .ok ⟨E.pbkdf2Hmac password salt iterations 32⟩
  | .scrypt nLog2 r p => do
    Outcome.rejectIf (nLog2 > 15 ∨ r = 0 ∨ r > 8 ∨ p = 0 ∨ p > 2) .invalidParameter
    let root ← Outcome.okOr (E.scrypt password salt nLog2 r p 32) .invalidParameter
    .ok ⟨root⟩

/-- `V5Keys::derive::subkey`. -/
def subkey (root : RootKey) (label : Bytes) : Hash :=
  E.hmacSha256 root.key.toList (ascii "KRCM-v5-subkey" ++ label)

def V5Keys.derive (root : RootKey) : V5Keys where
  encKey := ⟨subkey E root (ascii "KRCM-v5-enc")⟩
  authKey := ⟨subkey E root (ascii "KRCM-v5-auth")⟩
  sivKey := ⟨subkey E root (ascii "KRCM-v5-siv")⟩
  blockKey := ⟨subkey E root (ascii "KRCM-v5-block")⟩
  segmentKey := ⟨subkey E root (ascii "KRCM-v5-segment")⟩

/-! ## When a key is derived -/

variable {E}

theorem deriveKeys_ok {password salt : Bytes} {iterations : UInt32} (hp : password ≠ [])
    (hs : salt.length = saltBytes) (h0 : iterations ≠ 0) (hm : iterations ≤ maxPbkdf2Iterations) :
    ∃ keys, deriveKeys E password salt iterations = .ok keys := by
  unfold deriveKeys
  rw [Outcome.rejectIf_false hp, Outcome.rejectIf_false (by simp [hs, h0, hm])]
  exact ⟨_, rfl⟩

theorem deriveKeys_settles {password salt : Bytes} {iterations : UInt32} :
    Outcome.Settles (deriveKeys E password salt iterations) := by
  simp [deriveKeys, Outcome.settles_bind_iff]

/-- The scrypt crate takes every parameter set the format admits. -/
def Env.ScryptAccepts (E : Env) : Prop :=
  ∀ password salt nLog2 r p, (KdfParams.scrypt nLog2 r p).Admitted →
    ∃ root, E.scrypt password salt nLog2 r p 32 = some root

theorem deriveRootKey_pbkdf2 {password salt : Bytes} {iterations : UInt32} (hp : password ≠ [])
    (hs : salt.length = saltBytes) (ha : (KdfParams.pbkdf2 iterations).Admitted) :
    ∃ root, deriveRootKey E password salt (.pbkdf2 iterations) = .ok root := by
  obtain ⟨h0, hm⟩ := ha
  unfold deriveRootKey
  rw [Outcome.rejectIf_false (by simp [hp, hs]), Outcome.ok_bind]
  dsimp only
  rw [Outcome.rejectIf_false (by simp [h0, hm])]
  exact ⟨_, rfl⟩

theorem deriveRootKey_ok {password salt : Bytes} {params : KdfParams} (hE : E.ScryptAccepts)
    (hp : password ≠ []) (hs : salt.length = saltBytes) (ha : params.Admitted) :
    ∃ root, deriveRootKey E password salt params = .ok root := by
  cases params with
  | pbkdf2 iterations => exact deriveRootKey_pbkdf2 hp hs ha
  | scrypt nLog2 r p =>
    obtain ⟨root, hr⟩ := hE password salt nLog2 r p ha
    obtain ⟨hn, h0, h8, hp0, h2⟩ := ha
    unfold deriveRootKey
    rw [Outcome.rejectIf_false (by simp [hp, hs]), Outcome.ok_bind]
    dsimp only
    rw [Outcome.rejectIf_false (by simp [hn, h0, h8, hp0, h2]), hr]
    exact ⟨_, rfl⟩

theorem deriveRootKey_unadmitted {password salt : Bytes} {params : KdfParams} (ha : ¬ params.Admitted) :
    deriveRootKey E password salt params = .err .invalidParameter := by
  unfold deriveRootKey
  by_cases hfirst : password = [] ∨ salt.length ≠ saltBytes
  · rw [Outcome.rejectIf_true hfirst, Outcome.err_bind]
  rw [Outcome.rejectIf_false hfirst, Outcome.ok_bind]
  cases params with
  | pbkdf2 iterations =>
    have hreject : iterations = 0 ∨ iterations > maxPbkdf2Iterations := by
      by_contra h
      rw [not_or, gt_iff_lt, UInt32.not_lt] at h
      exact ha h
    dsimp only
    rw [Outcome.rejectIf_true hreject, Outcome.err_bind]
  | scrypt nLog2 r p =>
    have hreject : nLog2 > 15 ∨ r = 0 ∨ r > 8 ∨ p = 0 ∨ p > 2 := by
      by_contra h
      simp only [not_or, gt_iff_lt, UInt8.not_lt, UInt32.not_lt] at h
      exact ha h
    dsimp only
    rw [Outcome.rejectIf_true hreject, Outcome.err_bind]

/-- **When a root key is derived.** -/
theorem deriveRootKey_returns_iff {password salt : Bytes} {params : KdfParams}
    (hE : E.ScryptAccepts) : (∃ root, deriveRootKey E password salt params = .ok root) ↔
      password ≠ [] ∧ salt.length = saltBytes ∧ params.Admitted := by
  refine ⟨fun ⟨root, h⟩ => ?_, fun ⟨hp, hs, ha⟩ => deriveRootKey_ok hE hp hs ha⟩
  have ha : params.Admitted := by
    by_contra ha
    rw [deriveRootKey_unadmitted ha] at h
    cases h
  obtain ⟨_, hfirst, _⟩ := Outcome.bind_eq_ok.mp h
  rw [Outcome.rejectIf_eq_ok, not_or, not_not] at hfirst
  exact ⟨hfirst.1, hfirst.2, ha⟩

theorem deriveRootKey_settles {password salt : Bytes} {params : KdfParams} :
    Outcome.Settles (deriveRootKey E password salt params) := by
  cases params <;> simp [deriveRootKey, Outcome.settles_bind_iff]

end Krcm
