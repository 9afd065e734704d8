import Krcm.Kdf
import Mathlib.Data.Nat.Digits.Defs

/-!
# The v4 header

`header_v4.rs`. The header is printed by hand as the JSON object of its
members (`toJsonBytes_eq`) and read back through `serde_json` and base64, both
parameters. `Env.Reads` is what the code expects of them on one header: under
it, reading undoes printing (`fromJsonBytes_toJsonBytes`).
-/

namespace Krcm

open Base Outcome

structure HeaderV4 where
  version : UInt8
  iterations : UInt32
  salt : Salt
  nonce : Nonce
  originalLength : UInt64
  deriving DecidableEq

/-- `{}` of an unsigned integer. -/
def decimal (n : Nat) : Bytes := (Nat.toDigits 10 n).map fun c => UInt8.ofNat c.toNat

namespace HeaderV4

def new (iterations : UInt32) (salt : Salt) (nonce : Nonce) (originalLength : UInt64) : HeaderV4 where
  version := versionV4
  iterations := iterations
  salt := salt
  nonce := nonce
  originalLength := originalLength

def construction (header : HeaderV4) : Bytes :=
  if header.version = 3 then ascii "AMPC-AffineSubstitution-Matrix-v3"
  else ascii "AMPC-Permutation-Matrix-v4"

def toJsonBytes (E : Env) (header : HeaderV4) : Bytes :=
  ascii "\x7b\"block_bytes\":" ++ decimal blockBytes ++
    ascii ",\"construction\":\"" ++ header.construction ++
    ascii "\",\"iterations\":" ++ decimal header.iterations.toNat ++
    ascii ",\"magic\":\"AMPCRYPT\",\"nonce\":\"" ++ E.base64Encode header.nonce.toList ++
    ascii "\",\"original_length\":" ++ decimal header.originalLength.toNat ++
    ascii ",\"rounds\":" ++ decimal rounds ++
    ascii ",\"salt\":\"" ++ E.base64Encode header.salt.toList ++
    ascii "\",\"version\":" ++ decimal header.version.toNat ++ ascii ",\"word_bits\":64\x7d"

end HeaderV4

/-- `bytes.try_into()`. -/
def tryIntoArray (n : Nat) (bytes : Bytes) : Option (Arr n) :=
  if h : bytes.length = n then some (arrOfList bytes h) else none

def decodeFixed (E : Env) (n : Nat) (text : Bytes) : Run (Arr n) := do
  let bytes ← okOr (E.base64Decode text) .format
  okOr (tryIntoArray n bytes) .format

/-- `payload.get(key).and_then(Value::as_u64)`. -/
def Json.getU64 (payload : Json) (key : String) : Option UInt64 :=
  (payload.get (ascii key)).bind Json.asU64

/-- `payload.get(key).and_then(Value::as_str)`. -/
def Json.getStr (payload : Json) (key : String) : Option Bytes :=
  (payload.get (ascii key)).bind Json.asStr

def HeaderV4.fromJsonBytes (E : Env) (data : Bytes) : Run HeaderV4 := do
  let payload ← okOr (E.jsonFromSlice data) .format
  rejectIf (payload.getStr "magic" ≠ some (ascii "AMPCRYPT")) .format
  let version ← okOr (payload.getU64 "version") .format
  -- `as u8` keeps the low byte, so 260 reads as version 4.
  let version := version.toUInt8
  rejectIf (¬ (2 ≤ version ∧ version ≤ 4)) .unsupportedVersion
  rejectIf (payload.getU64 "block_bytes" ≠ some (.ofNat blockBytes)) .format
  rejectIf (payload.getU64 "rounds" ≠ some (.ofNat rounds)) .format
  let iterations ← okOr (payload.getU64 "iterations") .format
  rejectIf (iterations = 0 ∨ iterations > maxPbkdf2Iterations.toUInt64) .format
  let originalLength ← okOr (payload.getU64 "original_length") .format
  let salt ← okOr (payload.getStr "salt") .format
  let salt ← decodeFixed E saltBytes salt
  let nonce ← okOr (payload.getStr "nonce") .format
  let nonce ← decodeFixed E nonceBytes nonce
  .ok ⟨version, iterations.toUInt32, salt, nonce, originalLength⟩

/-! ## The printed object -/

/-- The two kinds of value the header prints. -/
inductive Scalar where
  | number (n : UInt64)
  | text (s : Bytes)

namespace Scalar

def print : Scalar → Bytes
  | number n => decimal n.toNat
  | text s => ascii "\"" ++ s ++ ascii "\""

def json : Scalar → Json
  | number n => .number (.posInt n)
  | text s => .string s

end Scalar

def printMember (member : Bytes × Scalar) : Bytes :=
  ascii "\"" ++ member.1 ++ ascii "\":" ++ member.2.print

/-- An object of scalars, in the compact form of JSON. -/
def printObject (members : List (Bytes × Scalar)) : Bytes :=
  ascii "\x7b" ++ (ascii ",").intercalate (members.map printMember) ++ ascii "\x7d"

def HeaderV4.members (E : Env) (header : HeaderV4) : List (Bytes × Scalar) :=
  [(ascii "block_bytes", .number (.ofNat blockBytes)),
    (ascii "construction", .text header.construction),
    (ascii "iterations", .number header.iterations.toUInt64),
    (ascii "magic", .text (ascii "AMPCRYPT")),
    (ascii "nonce", .text (E.base64Encode header.nonce.toList)),
    (ascii "original_length", .number header.originalLength),
    (ascii "rounds", .number (.ofNat rounds)),
    (ascii "salt", .text (E.base64Encode header.salt.toList)),
    (ascii "version", .number header.version.toUInt64),
    (ascii "word_bits", .number 64)]

/-- The object the header is printed as. -/
def HeaderV4.object (E : Env) (header : HeaderV4) : Json :=
  .object ((header.members E).map fun member => (member.1, member.2.json))

variable {E : Env}

/-- The template prints the members. -/
theorem toJsonBytes_eq (header : HeaderV4) :
    header.toJsonBytes E = printObject (header.members E) := by
  have h64 : decimal 64 = [54, 52] := rfl
  simp [HeaderV4.toJsonBytes, printObject, HeaderV4.members, printMember, Scalar.print, ascii,
    List.intercalate, h64]

/-! ## Reading undoes printing -/

/-- The text of an array of `n` bytes is padded to whole groups of four and decodes back. -/
structure Env.Encodes (E : Env) (bytes : Bytes) : Prop where
  decode : E.base64Decode (E.base64Encode bytes) = some bytes
  length : (E.base64Encode bytes).length = (bytes.length + 2) / 3 * 4

/-- base64 encodes the arrays of a header, and serde_json reads its object. -/
structure Env.Reads (E : Env) (header : HeaderV4) : Prop where
  salt : E.Encodes header.salt.toList
  nonce : E.Encodes header.nonce.toList
  object : E.jsonFromSlice (printObject (header.members E)) = some (header.object E)

/-- A numeral of a `u64` has at most twenty digits. -/
theorem length_decimal {n : Nat} (h : n < 2 ^ 64) : (decimal n).length ≤ 20 := by
  unfold decimal
  rw [List.length_map]
  exact Nat.toDigits_length 10 n 20 (by omega) (h.trans (by omega))

/-- The length of a printed header, from that of its base64 texts. -/
theorem length_toJsonBytes_of {header : HeaderV4}
    (hs : (E.base64Encode header.salt.toList).length = (header.salt.toList.length + 2) / 3 * 4)
    (hn : (E.base64Encode header.nonce.toList).length = (header.nonce.toList.length + 2) / 3 * 4) :
    1 ≤ (header.toJsonBytes E).length ∧ (header.toJsonBytes E).length ≤ maxHeaderBytes := by
  have hi := length_decimal (n := header.iterations.toNat) (by have := header.iterations.toNat_lt; omega)
  have ho := length_decimal (n := header.originalLength.toNat) header.originalLength.toNat_lt
  have hv := length_decimal (n := header.version.toNat) (by have := header.version.toNat_lt; omega)
  have hb := length_decimal (n := blockBytes) (by decide)
  have hr := length_decimal (n := rounds) (by decide)
  have hc : header.construction.length ≤ 33 := by
    unfold HeaderV4.construction
    split <;> decide
  rw [Vector.length_toList] at hs hn
  simp only [HeaderV4.toJsonBytes, List.length_append, hs, hn]
  simp only [blockBytes, rounds] at hb hr
  simp [ascii, -List.length_map]
  omega

theorem tryIntoArray_toList {n : Nat} (v : Arr n) : tryIntoArray n v.toList = some v := by
  unfold tryIntoArray
  rw [dif_pos Vector.length_toList, Option.some_inj, ← Vector.toList_inj,
    toList_arrOfList]

theorem decodeFixed_encode {n : Nat} {v : Arr n} (h : E.Encodes v.toList) :
    decodeFixed E n (E.base64Encode v.toList) = .ok v := by
  unfold decodeFixed
  rw [h.decode]
  dsimp only [okOr, ok_bind]
  rw [tryIntoArray_toList]

namespace Env.Reads

variable {header : HeaderV4}

/-- The printed header is not empty and fits the bound `decrypt_v4` puts on it. -/
theorem length_toJsonBytes (h : E.Reads header) :
    1 ≤ (header.toJsonBytes E).length ∧ (header.toJsonBytes E).length ≤ maxHeaderBytes :=
  length_toJsonBytes_of h.salt.length h.nonce.length

/-- **Reading a header undoes printing it.** -/
theorem fromJsonBytes_toJsonBytes (h : E.Reads header)
    (hv : 2 ≤ header.version ∧ header.version ≤ 4) (h0 : header.iterations ≠ 0)
    (hm : header.iterations ≤ maxPbkdf2Iterations) :
    HeaderV4.fromJsonBytes E (header.toJsonBytes E) = .ok header := by
  have hnat := header.iterations.toNat_lt
  have hbound : ¬ (header.iterations.toUInt64 = 0 ∨
      header.iterations.toUInt64 > maxPbkdf2Iterations.toUInt64) := by
    rw [not_or, ← UInt64.toNat_inj, gt_iff_lt, UInt64.not_lt, UInt64.le_iff_toNat_le,
      UInt32.toNat_toUInt64, UInt32.toNat_toUInt64, ← UInt32.le_iff_toNat_le]
    exact ⟨fun h => h0 (UInt32.toNat_inj.mp h), hm⟩
  unfold HeaderV4.fromJsonBytes
  rw [toJsonBytes_eq, h.object, okOr, ok_bind]
  rw [show (header.object E).getStr "magic" = some (ascii "AMPCRYPT") from rfl,
    show (header.object E).getU64 "version" = some header.version.toUInt64 from rfl,
    show (header.object E).getU64 "block_bytes" = some (.ofNat blockBytes) from rfl,
    show (header.object E).getU64 "rounds" = some (.ofNat rounds) from rfl,
    show (header.object E).getU64 "iterations" = some header.iterations.toUInt64 from rfl,
    show (header.object E).getU64 "original_length" = some header.originalLength from rfl,
    show (header.object E).getStr "salt" = some (E.base64Encode header.salt.toList) from rfl,
    show (header.object E).getStr "nonce" = some (E.base64Encode header.nonce.toList) from rfl]
  simp only [okOr, ok_bind]
  rw [rejectIf_false (not_not.mpr rfl), ok_bind, UInt8.toUInt8_toUInt64, rejectIf_false (not_not.mpr hv), ok_bind,
    rejectIf_false (not_not.mpr rfl), ok_bind, rejectIf_false (not_not.mpr rfl), ok_bind,
    rejectIf_false hbound, ok_bind, decodeFixed_encode h.salt, ok_bind, decodeFixed_encode h.nonce,
    ok_bind, UInt32.toUInt32_toUInt64]

theorem withFuel (h : E.Reads header) (n : Nat) : (E.withFuel n).Reads header :=
  ⟨⟨h.salt.decode, h.salt.length⟩, ⟨h.nonce.decode, h.nonce.length⟩, h.object⟩

end Env.Reads

/-! ## serde_json on trailing bytes -/

def isJsonWhitespace (b : UInt8) : Bool := b = 0x20 ∨ b = 0x09 ∨ b = 0x0a ∨ b = 0x0d

/-- After an object the parser takes whitespace only, and drops it. -/
def Env.ObjectsEndInWhitespace (E : Env) : Prop :=
  ∀ text rest members members', E.jsonFromSlice text = some (.object members) →
    E.jsonFromSlice (text ++ rest) = some (.object members') →
      (∀ b ∈ rest, isJsonWhitespace b) ∧ members = members'

theorem Env.ObjectsEndInWhitespace.withFuel (h : E.ObjectsEndInWhitespace) (n : Nat) :
    (E.withFuel n).ObjectsEndInWhitespace := h

/-- A header that reads is an object. -/
theorem fromJsonBytes_object {data : Bytes} {header : HeaderV4}
    (h : HeaderV4.fromJsonBytes E data = .ok header) :
    ∃ members, E.jsonFromSlice data = some (.object members) := by
  simp only [HeaderV4.fromJsonBytes, bind_eq_ok, okOr_eq_ok, rejectIf_eq_ok, not_not] at h
  obtain ⟨payload, hjson, _, hmagic, -⟩ := h
  cases payload with
  | object members => exact ⟨members, hjson⟩
  | _ => cases hmagic

/-- Bytes a header can be extended by leave the header as it is. -/
theorem fromJsonBytes_append (hE : E.ObjectsEndInWhitespace) {data rest : Bytes}
    {header header' : HeaderV4} (h : HeaderV4.fromJsonBytes E data = .ok header)
    (h' : HeaderV4.fromJsonBytes E (data ++ rest) = .ok header') : header = header' := by
  obtain ⟨members, hjson⟩ := fromJsonBytes_object h
  obtain ⟨members', hjson'⟩ := fromJsonBytes_object h'
  obtain ⟨-, rfl⟩ := hE _ _ _ _ hjson hjson'
  unfold HeaderV4.fromJsonBytes at h h'
  rw [hjson] at h
  rw [hjson'] at h'
  exact ok.inj (h.symm.trans h')

theorem decodeFixed_settles {n : Nat} {text : Bytes} : Settles (decodeFixed E n text) :=
  settles_bind okOr_settles fun _ _ => okOr_settles

theorem fromJsonBytes_settles {data : Bytes} : Settles (HeaderV4.fromJsonBytes E data) := by
  simp [HeaderV4.fromJsonBytes, settles_bind_iff, decodeFixed_settles]

end Krcm
