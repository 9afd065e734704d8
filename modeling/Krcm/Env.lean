import Krcm.Base.Bytes

/-!
# The environment of the code

`Env` holds what `krcm-core` takes from other crates, as arbitrary
deterministic functions, the bound of Python's `hashlib` on passwords, and two
facts about the build: whether overflow checks are compiled in, and the fuel of
the rejection loops (the words one loop may draw before the model gives up with
`timeout`; the code loops on). `usize` is 64 bits wide.
-/

namespace Krcm

open Base

/-! ## constants.rs, error.rs -/

@[simp] abbrev blockBytes : Nat := 32
@[simp] abbrev tagBytes : Nat := 32
@[simp] abbrev saltBytes : Nat := 16
@[simp] abbrev nonceBytes : Nat := 16
@[simp] abbrev rounds : Nat := 10
def maxPbkdf2Iterations : UInt32 := 1000000
@[simp] abbrev maxHeaderBytes : Nat := 4096
@[simp] abbrev headerV5Size : Nat := 64

/-- The bytes of an ASCII literal. -/
def ascii (s : String) : Bytes := s.toList.map fun c => UInt8.ofNat c.toNat

def magicV4 : Bytes := ascii "AMPCRYPT"
def magicV5 : Bytes := ascii "KRCMSPN\x00"
def versionV4 : UInt8 := 4

@[simp] theorem length_magicV4 : magicV4.length = 8 := by decide

@[simp] theorem length_magicV5 : magicV5.length = 8 := by decide

inductive KrcmError where
  | format
  | authentication
  | invalidPassword
  | invalidParameter
  | unsupportedVersion
  | io
  | internal
  deriving DecidableEq, Repr

abbrev Run (α : Type) := Outcome KrcmError α

abbrev Block := Arr 32
abbrev Hash := Arr 32
abbrev Salt := Arr 16
abbrev Nonce := Arr 16

/-! ## serde_json::Value -/

/-- `serde_json::Number`; a float keeps its bits. -/
inductive JsonNumber where
  | posInt (n : UInt64)
  | negInt (n : Int64)
  | float (bits : UInt64)
  deriving DecidableEq, Repr

/-- `serde_json::Value`, strings as their UTF-8 bytes. -/
inductive Json where
  | null
  | bool (b : Bool)
  | number (n : JsonNumber)
  | string (s : Bytes)
  | array (items : List Json)
  | object (members : List (Bytes × Json))

namespace Json

/-- `value.get(key)`. -/
def get (v : Json) (key : Bytes) : Option Json :=
  match v with
  | object members => (members.find? (·.1 == key)).map (·.2)
  | _ => none

/-- `Value::as_str`. -/
def asStr : Json → Option Bytes
  | string s => some s
  | _ => none

/-- `Value::as_u64`. -/
def asU64 : Json → Option UInt64
  | number (.posInt n) => some n
  | _ => none

end Json

/-! ## Other crates and the build -/

structure Env where
  hmacSha256 : (key data : Bytes) → Hash
  sha256 : Bytes → Hash
  pbkdf2Hmac : (password salt : Bytes) → (iterations : UInt32) → (n : Nat) → Arr n
  /-- `ScryptParams::new` and `scrypt`; `none` where either refuses its parameters. -/
  scrypt : (password salt : Bytes) → (logN : UInt8) → (r p : UInt32) → (n : Nat) → Option (Arr n)
  jsonFromSlice : Bytes → Option Json
  base64Encode : Bytes → Bytes
  base64Decode : Bytes → Option Bytes
  /-- The longest password Python's `hashlib` takes, `2 ^ 31 - 1` bytes in CPython; `none` where it
  takes every password. -/
  passwordLimit : Option Nat
  overflowChecks : Bool
  fuel : Nat

namespace Env

/-- Every hash is zero and every parser refuses. -/
def zero : Env where
  hmacSha256 _ _ := Vector.replicate 32 0
  sha256 _ := Vector.replicate 32 0
  pbkdf2Hmac _ _ _ n := Vector.replicate n 0
  scrypt _ _ _ _ _ n := some (Vector.replicate n 0)
  jsonFromSlice _ := none
  base64Encode _ := []
  base64Decode _ := none
  passwordLimit := some (2 ^ 31 - 1)
  overflowChecks := true
  fuel := 1

def withFuel (E : Env) (n : Nat) : Env := { E with fuel := n }

/-- `hashlib` takes the password. -/
def Takes (E : Env) (password : Bytes) : Prop := ∀ limit ∈ E.passwordLimit, password.length ≤ limit

instance (E : Env) (password : Bytes) : Decidable (E.Takes password) :=
  inferInstanceAs (Decidable (∀ limit ∈ E.passwordLimit, password.length ≤ limit))

theorem takes_withFuel {E : Env} {n : Nat} {password : Bytes} :
    (E.withFuel n).Takes password ↔ E.Takes password := Iff.rfl

theorem takes_nil (E : Env) : E.Takes [] := fun _ _ => Nat.zero_le _

theorem takes_zero {password : Bytes} (h : password.length < 2 ^ 31) : Env.zero.Takes password := by
  rintro _ ⟨⟩
  omega

def withChecks (E : Env) (b : Bool) : Env := { E with overflowChecks := b }

/-- `a + b` in `usize` or `u64`. -/
def add (E : Env) (a b : Nat) : Run Nat := Outcome.addW E.overflowChecks (2 ^ 64) a b

/-- `a + b` in `u64`, of words. -/
def addU64 (E : Env) (a b : UInt64) : Run UInt64 :=
  if E.overflowChecks ∧ 2 ^ 64 ≤ a.toNat + b.toNat then .panic else .ok (a + b)

theorem addU64_ok {E : Env} {a b : UInt64} (h : a.toNat + b.toNat < 2 ^ 64) :
    E.addU64 a b = .ok (a + b) := if_neg (by omega)

theorem addU64_eq_ok {E : Env} {a b c : UInt64} (h : E.addU64 a b = .ok c) : c = a + b := by
  unfold addU64 at h
  split at h
  · cases h
  · exact (Outcome.ok.inj h).symm

theorem add_ok {E : Env} {a b : Nat} (h : a + b < 2 ^ 64) : E.add a b = .ok (a + b) :=
  Outcome.addW_ok h

/-- A slice up to a computed end was not cut by a wrapped sum: a wrapped end lies before the
start. -/
theorem add_slice {E : Env} {l m : Bytes} {a n b : Nat} (hn : n < 2 ^ 64) (hadd : E.add a n = .ok b)
    (hs : (Outcome.slice l a b : Run Bytes) = .ok m) : b = a + n ∧ a + n < 2 ^ 64 := by
  obtain ⟨hle, -, -⟩ := Outcome.slice_bounds hs
  rcases Outcome.addW_cases hadd with ⟨hlt, rfl⟩ | ⟨hge, rfl⟩
  · exact ⟨rfl, hlt⟩
  · omega

end Env

end Krcm
