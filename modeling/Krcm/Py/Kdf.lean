import Krcm.Py.Interchange

/-!
# The key derivation of the Python package

`kdf.py`: the parameters it validates are those `kdf.rs` admits, but for the
scrypt cost `N = 1`, and the keys are derived wherever `kdf.rs` derives a root
key, of a password that `hashlib` takes (`deriveKeysKdf_exact`). `hashlib.scrypt`
is a parameter; `ScryptFits` is when it returns.
-/

namespace Krcm.Py

open Base Outcome

def kdfPbkdf2Sha256 : Int := 1
def kdfScryptSha256 : Int := 2
def scryptMaxN : Int := 2 ^ 15
def scryptMaxR : Int := 8
def scryptMaxP : Int := 2
@[simp] abbrev scryptMaxmem : Nat := 64 * 1024 * 1024
@[simp] abbrev scryptDklen : Nat := 64

structure KDFParams where
  kdfId : Int
  n : Int
  r : Int
  p : Int

def KDFParams.default : KDFParams := ⟨kdfScryptSha256, 2 ^ 14, 8, 1⟩

def KDFParams.validate (params : KDFParams) : PyRun Unit := do
  rejectIf (params.kdfId ∉ [kdfPbkdf2Sha256, kdfScryptSha256]) .valueError
  if params.kdfId = kdfScryptSha256 then do
    -- Behind `n < 2` the bits are those of a natural number.
    rejectIf (params.n < 2 ∨ params.n.toNat &&& (params.n.toNat - 1) ≠ 0) .valueError
    rejectIf (params.r < 1 ∨ params.p < 1) .valueError
    rejectIf (params.n > scryptMaxN ∨ params.r > scryptMaxR ∨ params.p > scryptMaxP) .valueError
  else
    rejectIf (params.n < 1 ∨ params.n > maxIterations) .valueError

/-- `hashlib.scrypt` on a password it takes; `none` where it raises `ValueError`. -/
abbrev HashlibScrypt := (password salt : Bytes) → (n r p maxmem dklen : Nat) → Option Bytes

section model
variable (E : Env)

def splitRoot (root domain : Bytes) : Bytes × Bytes :=
  let encKey := (E.hmacSha256 (root.take 32) (domain ++ ascii "-ENC")).toList
  let authKey := (E.hmacSha256 (root.drop 32) (domain ++ ascii "-AUTH")).toList
  (encKey, authKey)

/-- `hashlib.scrypt`, which bounds the length of a password. -/
def hashlibScrypt (scrypt : HashlibScrypt) (password salt : Bytes) (n r p maxmem dklen : Nat) :
    PyRun Bytes := do
  rejectIf (¬ E.Takes password) .overflowError
  okOr (scrypt password salt n r p maxmem dklen) .valueError

def deriveKeysKdf (scrypt : HashlibScrypt) (password : Password) (salt : Bytes)
    (params : KDFParams) : PyRun (Bytes × Bytes) := do
  params.validate
  let encoded ← password.encode
  let passwordBytes ← ensurePassword encoded
  rejectIf (salt.length ≠ saltBytes) .valueError
  if params.kdfId = kdfScryptSha256 then do
    let root ← hashlibScrypt E scrypt passwordBytes salt params.n.toNat params.r.toNat params.p.toNat
      scryptMaxmem scryptDklen
    .ok (splitRoot E root (ascii "AMPC-SCRYPT-V1"))
  else do
    let root ← hashlibPbkdf2Hmac E passwordBytes salt params.n.toNat scryptDklen
    .ok (splitRoot E root (ascii "AMPC-PBKDF2-V1"))

end model

/-- What `hashlib` and OpenSSL ask of the arguments of scrypt, at `n = 2 ^ k`. -/
structure ScryptDomain (E : Env) (password salt : Bytes) (k r p maxmem dklen : Nat) : Prop where
  lengths : E.Takes password ∧ salt.length < 2 ^ 31
  cost : 0 < k ∧ k < 16 * r
  blocks : 0 < r ∧ 0 < p ∧ r * p < 2 ^ 30
  memory : 128 * r * p + 128 * r * (2 ^ k + 2) ≤ maxmem ∧ maxmem < 2 ^ 31
  output : 0 < dklen ∧ dklen < 2 ^ 31

def ScryptFits (E : Env) (scrypt : HashlibScrypt) : Prop :=
  ∀ password salt k r p maxmem dklen, ScryptDomain E password salt k r p maxmem dklen →
    ∃ root, scrypt password salt (2 ^ k) r p maxmem dklen = some root

/-- The parameters of `kdf.py` for those of `kdf.rs`; PBKDF2 takes no `r` and no `p`. -/
inductive Represents : KDFParams → KdfParams → Prop where
  | pbkdf2 (iterations : UInt32) (r p : Int) :
    Represents ⟨kdfPbkdf2Sha256, iterations.toNat, r, p⟩ (.pbkdf2 iterations)
  | scrypt (nLog2 : UInt8) (r p : UInt32) :
    Represents ⟨kdfScryptSha256, (2 ^ nLog2.toNat : Nat), r.toNat, p.toNat⟩ (.scrypt nLog2 r p)

/-- The parameters that `kdf.rs` admits and `kdf.py` does not. -/
def UnitCost : KdfParams → Prop
  | .pbkdf2 _ => False
  | .scrypt nLog2 _ _ => nLog2 = 0

/-! ## Validation -/

theorem powerOfTwo_iff {n : Nat} (h : n ≠ 0) : n &&& (n - 1) = 0 ↔ ∃ k, n = 2 ^ k :=
  Nat.and_sub_one_eq_zero_iff_isPowerOfTwo h

theorem admitted_pbkdf2_iff {iterations : UInt32} : (KdfParams.pbkdf2 iterations).Admitted ↔
    1 ≤ iterations.toNat ∧ iterations.toNat ≤ 1000000 := by
  rw [← iterations_admitted, not_or, gt_iff_lt, UInt32.not_lt]
  rfl

theorem admitted_scrypt_iff {nLog2 : UInt8} {r p : UInt32} :
    (KdfParams.scrypt nLog2 r p).Admitted ↔ nLog2.toNat ≤ 15 ∧ (1 ≤ r.toNat ∧ r.toNat ≤ 8) ∧
      1 ≤ p.toNat ∧ p.toNat ≤ 2 := by
  simp only [KdfParams.Admitted, ne_eq, UInt8.le_iff_toNat_le, UInt32.le_iff_toNat_le,
    ← UInt32.toNat_inj, UInt8.reduceToNat, UInt32.reduceToNat]
  omega

theorem validate_pbkdf2 {n r p : Int} :
    KDFParams.validate ⟨kdfPbkdf2Sha256, n, r, p⟩ = .ok () ↔ 1 ≤ n ∧ n ≤ 1000000 := by
  unfold KDFParams.validate
  dsimp only
  rw [rejectIf_false (by decide), ok_bind, if_neg (by decide), rejectIf_eq_ok]
  simp only [maxIterations]
  omega

theorem validate_scrypt {n r p : Int} :
    KDFParams.validate ⟨kdfScryptSha256, n, r, p⟩ = .ok () ↔
      (∃ k, 0 < k ∧ k ≤ 15 ∧ n = (2 ^ k : Nat)) ∧ (1 ≤ r ∧ r ≤ 8) ∧ 1 ≤ p ∧ p ≤ 2 := by
  unfold KDFParams.validate
  dsimp only
  rw [rejectIf_false (by decide), ok_bind, if_pos rfl]
  simp only [bind_eq_ok, rejectIf_eq_ok, not_or, not_not, scryptMaxN, scryptMaxR, scryptMaxP]
  refine ⟨?_, ?_⟩
  · rintro ⟨_, ⟨hn, hbits⟩, _, ⟨hr, hp⟩, hrest⟩
    have hmax := rejectIf_eq_ok.mp hrest
    obtain ⟨k, hk⟩ := (powerOfTwo_iff (by omega)).mp hbits
    have hcast : n = (2 ^ k : Nat) := by rw [← hk, Int.toNat_of_nonneg (by omega)]
    have hpos : 0 < k := by
      by_contra h
      obtain rfl : k = 0 := by omega
      omega
    have hle : k ≤ 15 := (Nat.pow_le_pow_iff_right (by decide : 1 < 2)).mp (by omega)
    exact ⟨⟨k, hpos, hle, hcast⟩, by omega, by omega⟩
  · rintro ⟨⟨k, hpos, hle, rfl⟩, ⟨hr1, hr8⟩, hp1, hp2⟩
    have htwo : 2 ^ 1 ≤ 2 ^ k := Nat.pow_le_pow_right (by decide) hpos
    have hmax : 2 ^ k ≤ 2 ^ 15 := Nat.pow_le_pow_right (by decide) hle
    refine ⟨(), ⟨by omega, ?_⟩, (), by omega, rejectIf_eq_ok.mpr (by omega)⟩
    rw [Int.toNat_natCast]
    exact (powerOfTwo_iff (by omega)).mpr ⟨k, rfl⟩

theorem validate_other {params : KDFParams}
    (h : params.kdfId ≠ kdfPbkdf2Sha256 ∧ params.kdfId ≠ kdfScryptSha256) :
    params.validate ≠ .ok () := by
  unfold KDFParams.validate
  rw [rejectIf_true (by simpa using h), err_bind]
  exact nofun

/-- **What `validate` lets through.** -/
theorem validate_eq_ok {params : KDFParams} : params.validate = .ok () ↔
    ∃ core : KdfParams, Represents params core ∧ core.Admitted ∧ ¬ UnitCost core := by
  obtain ⟨kdfId, n, r, p⟩ := params
  refine ⟨fun h => ?_, ?_⟩
  · by_cases hpbkdf2 : kdfId = kdfPbkdf2Sha256
    · subst hpbkdf2
      have hn := validate_pbkdf2.mp h
      have hword : ((UInt32.ofNat n.toNat).toNat : Int) = n := by
        rw [UInt32.toNat_ofNat', Nat.mod_eq_of_lt (by omega)]
        omega
      have hrep := Represents.pbkdf2 (.ofNat n.toNat) r p
      rw [hword] at hrep
      obtain ⟨-, hadmitted⟩ := iterations_word hn
      rw [not_or, gt_iff_lt, UInt32.not_lt] at hadmitted
      exact ⟨_, hrep, hadmitted, id⟩
    · by_cases hscrypt : kdfId = kdfScryptSha256
      · subst hscrypt
        obtain ⟨⟨k, hpos, hle, rfl⟩, hr, hp⟩ := validate_scrypt.mp h
        have hk : (UInt8.ofNat k).toNat = k := by
          rw [UInt8.toNat_ofNat', Nat.mod_eq_of_lt (by omega)]
        have hword {x : Int} (hx : 1 ≤ x ∧ x ≤ 8) : ((UInt32.ofNat x.toNat).toNat : Int) = x := by
          rw [UInt32.toNat_ofNat', Nat.mod_eq_of_lt (by omega)]
          omega
        have hr' := hword hr
        have hp' := @hword p (by omega)
        have hrep := Represents.scrypt (.ofNat k) (.ofNat r.toNat) (.ofNat p.toNat)
        rw [hk, hr', hp'] at hrep
        refine ⟨_, hrep, admitted_scrypt_iff.mpr ⟨hk.le.trans hle, by omega, by omega⟩, fun h0 => ?_⟩
        have hzero := congrArg UInt8.toNat h0
        rw [hk] at hzero
        exact hpos.ne' hzero
      · exact absurd h (validate_other ⟨hpbkdf2, hscrypt⟩)
  · rintro ⟨core, hrep, hadmitted, hunit⟩
    cases hrep with
    | pbkdf2 iterations =>
      have hrange := admitted_pbkdf2_iff.mp hadmitted
      exact validate_pbkdf2.mpr (by omega)
    | scrypt nLog2 r p =>
      obtain ⟨hle, hr, hp⟩ := admitted_scrypt_iff.mp hadmitted
      have hpos : 0 < nLog2.toNat :=
        Nat.pos_of_ne_zero fun h0 => hunit (UInt8.toNat_inj.mp h0)
      exact validate_scrypt.mpr ⟨⟨_, hpos, hle, rfl⟩, by omega, by omega⟩

/-! ## Derivation -/

/-- The memory of `scrypt` stays below `SCRYPT_MAXMEM` for every profile that validates. -/
theorem scrypt_returns {E : Env} {scrypt : HashlibScrypt} (hscrypt : ScryptFits E scrypt)
    {nLog2 : UInt8} {r p : UInt32} (ha : (KdfParams.scrypt nLog2 r p).Admitted) (h0 : nLog2 ≠ 0)
    {password salt : Bytes} (hpassword : E.Takes password) (hsalt : salt.length = 16) :
    ∃ root, scrypt password salt (2 ^ nLog2.toNat) r.toNat p.toNat scryptMaxmem scryptDklen =
      some root := by
  obtain ⟨hle, ⟨hr1, hr8⟩, hp1, hp2⟩ := admitted_scrypt_iff.mp ha
  have hpos : 0 < nLog2.toNat := Nat.pos_of_ne_zero fun h => h0 (UInt8.toNat_inj.mp h)
  have hmax : 2 ^ nLog2.toNat ≤ 2 ^ 15 := Nat.pow_le_pow_right (by decide) hle
  have hblocks : r.toNat * p.toNat ≤ 8 * 2 := Nat.mul_le_mul hr8 hp2
  have hvector : r.toNat * (2 ^ nLog2.toNat + 2) ≤ 8 * (2 ^ 15 + 2) :=
    Nat.mul_le_mul hr8 (by omega)
  refine hscrypt password salt _ _ _ _ _ ⟨⟨hpassword, by omega⟩, ⟨hpos, by omega⟩,
    ⟨hr1, hp1, by omega⟩, ?_, by decide⟩
  rw [Nat.mul_assoc, Nat.mul_assoc 128]
  simp only [scryptMaxmem]
  omega

/-- What `derive_keys_kdf` takes. -/
structure AcceptsKdf (password : Password) (salt : Bytes) (params : KDFParams) : Prop where
  params : params.validate = .ok ()
  encodable : password.Encodable
  nonEmpty : password.NonEmpty
  salt : salt.length = 16

theorem validate_raises {params : KDFParams} (h : params.validate ≠ .ok ()) :
    params.validate = .err .valueError := by
  have hpost : Post (· = PyError.valueError) (fun _ => True) params.validate := by
    unfold KDFParams.validate
    rw [post_bind, post_rejectIf]
    refine ⟨fun _ => rfl, fun _ => ?_⟩
    split_ifs
    · rw [post_bind, post_rejectIf]
      refine ⟨fun _ => rfl, fun _ => ?_⟩
      rw [post_bind, post_rejectIf]
      exact ⟨fun _ => rfl, fun _ => post_rejectIf.mpr ⟨fun _ => rfl, fun _ => trivial⟩⟩
    · exact post_rejectIf.mpr ⟨fun _ => rfl, fun _ => trivial⟩
  cases hrun : params.validate with
  | ok u => exact absurd hrun h
  | err e =>
    rw [hrun, post_err] at hpost
    rw [hpost]
  | panic => exact absurd (hrun ▸ hpost) not_post_panic
  | timeout => exact absurd (hrun ▸ hpost) not_post_timeout

section
variable {E : Env} {scrypt : HashlibScrypt} {password : Password} {salt : Bytes} {params : KDFParams}

/-- Accepted arguments come to the call of `hashlib`, with the parameters of `kdf.rs`. -/
theorem AcceptsKdf.core (h : AcceptsKdf password salt params) : ∃ b core, password.encode = .ok b ∧
    b ≠ [] ∧ Represents params core ∧ core.Admitted ∧ ¬ UnitCost core := by
  obtain ⟨b, hb, hne⟩ := Password.encode_ok h.encodable
  obtain ⟨core, hrep, hadmitted, hunit⟩ := validate_eq_ok.mp h.params
  exact ⟨b, core, hb, hne h.nonEmpty, hrep, hadmitted, hunit⟩

theorem deriveKeysKdf_returns (hscrypt : ScryptFits E scrypt) (htaken : password.Taken E)
    (h : AcceptsKdf password salt params) :
    ∃ keys, deriveKeysKdf E scrypt password salt params = .ok keys := by
  obtain ⟨b, core, hb, hne, hrep, hadmitted, hunit⟩ := h.core
  unfold deriveKeysKdf
  rw [h.params, ok_bind, hb, ok_bind, ensurePassword, rejectIf_false hne, ok_bind, ok_bind,
    rejectIf_false (not_not.mpr h.salt), ok_bind]
  cases hrep with
  | pbkdf2 iterations r p =>
    rw [if_neg (show kdfPbkdf2Sha256 ≠ kdfScryptSha256 by decide),
      hashlibPbkdf2Hmac_eq_ok.mpr ⟨htaken b hb, rfl⟩, ok_bind]
    exact ⟨_, rfl⟩
  | scrypt nLog2 r p =>
    obtain ⟨root, hroot⟩ := scrypt_returns hscrypt hadmitted hunit (htaken b hb) h.salt
    rw [if_pos rfl, hashlibScrypt, rejectIf_false (not_not.mpr (htaken b hb)), ok_bind]
    simp only [Int.toNat_natCast, hroot, okOr, ok_bind]
    exact ⟨_, rfl⟩

theorem deriveKeysKdf_overflow (hlong : ¬ password.Taken E) (h : AcceptsKdf password salt params) :
    deriveKeysKdf E scrypt password salt params = .err .overflowError := by
  obtain ⟨b, core, hb, hne, -⟩ := h.core
  have hbytes : ¬ E.Takes b := by
    refine fun htakes => hlong fun b' hb' => ?_
    cases hb.symm.trans hb'
    exact htakes
  unfold deriveKeysKdf
  rw [h.params, ok_bind, hb, ok_bind, ensurePassword, rejectIf_false hne, ok_bind, ok_bind,
    rejectIf_false (not_not.mpr h.salt), ok_bind]
  split
  · rw [hashlibScrypt, rejectIf_true hbytes, err_bind, err_bind]
  · rw [hashlibPbkdf2Hmac_overflow hbytes, err_bind]

theorem deriveKeysKdf_raises (h : ¬ AcceptsKdf password salt params) :
    deriveKeysKdf E scrypt password salt params = .err .valueError := by
  unfold deriveKeysKdf
  by_cases hparams : params.validate = .ok ()
  · rw [hparams, ok_bind]
    by_cases hencodable : password.Encodable
    · obtain ⟨b, hb, -⟩ := Password.encode_ok hencodable
      rw [hb, ok_bind, ensurePassword]
      by_cases hne : b = []
      · rw [rejectIf_true hne, err_bind, err_bind]
      · rw [rejectIf_false hne, ok_bind, ok_bind]
        have hsalt : salt.length ≠ saltBytes := fun hsalt =>
          h ⟨hparams, hencodable, (Password.encode_nonEmpty hb).mp hne, hsalt⟩
        rw [rejectIf_true hsalt, err_bind]
    · rw [Password.encode_err hencodable, err_bind]
  · rw [validate_raises hparams, err_bind]

end

/-- `derive_root_key` returns on the bytes of the password, under parameters that both validate. -/
def CoreDerives (E : Env) (password : Password) (salt : Bytes) (params : KDFParams)
    (passwordBytes : Bytes) : Prop :=
  password.encode = .ok passwordBytes ∧ ∃ core root, Represents params core ∧ ¬ UnitCost core ∧
    deriveRootKey E passwordBytes salt core = .ok root

theorem coreDerives_iff {E : Env} (hS : E.ScryptAccepts) {password : Password} {salt : Bytes}
    {params : KDFParams} : (∃ b, CoreDerives E password salt params b) ↔
      AcceptsKdf password salt params := by
  refine ⟨?_, fun h => ?_⟩
  · rintro ⟨b, hb, core, root, hrep, hunit, hroot⟩
    obtain ⟨hne, hsalt, hadmitted⟩ := (deriveRootKey_returns_iff hS).mp ⟨root, hroot⟩
    have hencodable : password.Encodable := by
      by_contra h
      rw [Password.encode_err h] at hb
      cases hb
    exact ⟨validate_eq_ok.mpr ⟨core, hrep, hadmitted, hunit⟩, hencodable,
      (Password.encode_nonEmpty hb).mp hne, hsalt⟩
  · obtain ⟨b, core, hb, hne, hrep, hadmitted, hunit⟩ := h.core
    obtain ⟨root, hroot⟩ := deriveRootKey_ok hS hne h.salt hadmitted
    exact ⟨b, hb, core, root, hrep, hunit, hroot⟩

/-- **`derive_keys_kdf` returns where `derive_root_key` does**, on parameters that both admit and a
password that `hashlib` takes. It raises `OverflowError` where only the password is too long, and
`ValueError` on everything else. -/
theorem deriveKeysKdf_exact {E : Env} {scrypt : HashlibScrypt} (hscrypt : ScryptFits E scrypt)
    (hS : E.ScryptAccepts) (password : Password) (salt : Bytes) (params : KDFParams) :
    ((∃ keys, deriveKeysKdf E scrypt password salt params = .ok keys) ↔
      ∃ b, CoreDerives E password salt params b ∧ E.Takes b) ∧
    (deriveKeysKdf E scrypt password salt params = .err .overflowError ↔
      ∃ b, CoreDerives E password salt params b ∧ ¬ E.Takes b) ∧
    ((¬ ∃ b, CoreDerives E password salt params b) →
      deriveKeysKdf E scrypt password salt params = .err .valueError) := by
  have htaken {b : Bytes} (hb : CoreDerives E password salt params b) :
      E.Takes b ↔ password.Taken E := by
    refine ⟨fun htakes b' hb' => ?_, fun h => h b hb.1⟩
    cases hb.1.symm.trans hb'
    exact htakes
  by_cases h : AcceptsKdf password salt params
  · obtain ⟨b, hb⟩ := (coreDerives_iff hS).mpr h
    by_cases hshort : password.Taken E
    · obtain ⟨keys, hkeys⟩ := deriveKeysKdf_returns hscrypt hshort h
      rw [hkeys]
      exact ⟨iff_of_true ⟨keys, rfl⟩ ⟨b, hb, (htaken hb).mpr hshort⟩,
        iff_of_false nofun fun ⟨b', hb', hlong⟩ => hlong ((htaken hb').mpr hshort),
        fun hnone => absurd ⟨b, hb⟩ hnone⟩
    · rw [deriveKeysKdf_overflow hshort h]
      exact ⟨iff_of_false nofun fun ⟨b', hb', htakes⟩ => hshort ((htaken hb').mp htakes),
        iff_of_true rfl ⟨b, hb, mt (htaken hb).mp hshort⟩, fun hnone => absurd ⟨b, hb⟩ hnone⟩
  · have hnone (b : Bytes) : ¬ CoreDerives E password salt params b :=
      fun hb => h ((coreDerives_iff hS).mp ⟨b, hb⟩)
    rw [deriveKeysKdf_raises h]
    exact ⟨iff_of_false nofun fun ⟨b, hb, _⟩ => hnone b hb,
      iff_of_false nofun fun ⟨b, hb, _⟩ => hnone b hb, fun _ => rfl⟩

/-- A `hashlib.scrypt` that returns zeros. -/
def zeroScrypt : HashlibScrypt := fun _ _ _ _ _ _ dklen => some (List.replicate dklen 0)

theorem deriveKeysKdf_exact_default : (∃ keys,
    deriveKeysKdf .zero zeroScrypt (.bytes [1]) (List.replicate 16 0) .default = .ok keys) ∧
    deriveKeysKdf .zero zeroScrypt (.bytes (List.replicate (2 ^ 31) 1)) (List.replicate 16 0) .default =
      .err .overflowError := by
  have hE : Env.zero.ScryptAccepts := fun _ _ _ _ _ _ => ⟨_, rfl⟩
  have hfits : ScryptFits .zero zeroScrypt := fun _ _ _ _ _ _ _ _ => ⟨_, rfl⟩
  have hderives {b : Bytes} (hne : b ≠ []) :
      CoreDerives .zero (.bytes b) (List.replicate 16 0) .default b := by
    obtain ⟨root, hroot⟩ := @deriveRootKey_ok .zero b (List.replicate 16 0) (.scrypt 14 8 1) hE hne
      List.length_replicate (by decide)
    exact ⟨rfl, _, root, .scrypt 14 8 1, nofun, hroot⟩
  refine ⟨(deriveKeysKdf_exact hfits hE _ _ _).1.mpr ⟨[1], hderives (List.cons_ne_nil _ _),
    Env.takes_zero (by decide)⟩, (deriveKeysKdf_exact hfits hE _ _ _).2.1.mpr ⟨_, hderives ?_, ?_⟩⟩
  · rw [ne_eq, List.replicate_eq_nil_iff]
    decide
  · intro htakes
    have hle := htakes _ rfl
    rw [List.length_replicate] at hle
    omega

end Krcm.Py
