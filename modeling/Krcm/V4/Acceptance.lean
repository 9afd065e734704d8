import Krcm.V4.Container

/-!
# The exact acceptance of the v4 header

`AcceptableV4` states on the JSON value what `from_json_bytes` is to accept.
The code narrows the version to a byte before it checks its range, so it also
accepts a version whose low byte is in range (`fromJsonBytes_exact_iff`).
-/

namespace Krcm

open Base Outcome

variable {E : Env} {v : Json} {data : Bytes}

/-- Every member but the version, and what is read from it. -/
structure RestV4 (E : Env) (v : Json) (header : HeaderV4) : Prop where
  object : ∃ members, v = .object members
  magic : v.get (ascii "magic") = some (.string (ascii "AMPCRYPT"))
  blockBytes : v.get (ascii "block_bytes") = some (.number (.posInt 32))
  rounds : v.get (ascii "rounds") = some (.number (.posInt 10))
  iterations : v.get (ascii "iterations") = some (.number (.posInt header.iterations.toUInt64))
  iterations_range : 1 ≤ header.iterations.toNat ∧ header.iterations.toNat ≤ 1000000
  originalLength : v.get (ascii "original_length") = some (.number (.posInt header.originalLength))
  salt : ∃ text, v.get (ascii "salt") = some (.string text) ∧
    E.base64Decode text = some header.salt.toList
  nonce : ∃ text, v.get (ascii "nonce") = some (.string text) ∧
    E.base64Decode text = some header.nonce.toList

/-- The value of an acceptable header. -/
structure AcceptableV4 (E : Env) (v : Json) (header : HeaderV4) : Prop where
  rest : RestV4 E v header
  version : v.get (ascii "version") = some (.number (.posInt header.version.toUInt64))
  version_range : header.version = 2 ∨ header.version = 3 ∨ header.version = 4

/-- An acceptable value but for its version, which is 256 or more and has a supported low byte. -/
def WideVersion (E : Env) (v : Json) : Prop :=
  ∃ (header : HeaderV4) (version : UInt64), RestV4 E v header ∧
    v.get (ascii "version") = some (.number (.posInt version)) ∧ 256 ≤ version.toNat ∧
      (version.toNat % 256 = 2 ∨ version.toNat % 256 = 3 ∨ version.toNat % 256 = 4)

/-! ## The readers of a member -/

theorem getU64_eq_some {key : String} {n : UInt64} :
    v.getU64 key = some n ↔ v.get (ascii key) = some (.number (.posInt n)) := by
  unfold Json.getU64
  rw [Option.bind_eq_some_iff]
  refine ⟨fun ⟨member, hm, hn⟩ => ?_, fun h => ⟨_, h, rfl⟩⟩
  cases member with
  | number number =>
    cases number with
    | posInt _ => rw [hm, ← Option.some.inj hn]
    | _ => cases hn
  | _ => cases hn

theorem getStr_eq_some {key : String} {s : Bytes} :
    v.getStr key = some s ↔ v.get (ascii key) = some (.string s) := by
  unfold Json.getStr
  rw [Option.bind_eq_some_iff]
  refine ⟨fun ⟨member, hm, hs⟩ => ?_, fun h => ⟨_, h, rfl⟩⟩
  cases member with
  | string _ => rw [hm, ← Option.some.inj hs]
  | _ => cases hs

theorem object_of_get {key : Bytes} {member : Json} (h : v.get key = some member) :
    ∃ members, v = .object members := by
  cases v with
  | object members => exact ⟨members, rfl⟩
  | _ => cases h

theorem decodeFixed_eq_ok {n : Nat} {text : Bytes} {array : Arr n} :
    decodeFixed E n text = .ok array ↔ E.base64Decode text = some array.toList := by
  simp only [decodeFixed, bind_eq_ok, okOr_eq_ok]
  constructor
  · rintro ⟨bytes, hb, ha⟩
    unfold tryIntoArray at ha
    split at ha
    · rw [hb, ← Option.some.inj ha, toList_arrOfList]
    · cases ha
  · intro h
    exact ⟨_, h, tryIntoArray_toList array⟩

/-- A word that passes the bound on the iterations is one of a `u32`. -/
theorem iterations_range_iff {n : UInt64} :
    ¬ (n = 0 ∨ n > maxPbkdf2Iterations.toUInt64) ↔ 1 ≤ n.toNat ∧ n.toNat ≤ 1000000 := by
  have hmax : maxPbkdf2Iterations.toUInt64.toNat = 1000000 := rfl
  rw [not_or, ← UInt64.toNat_inj, gt_iff_lt, UInt64.lt_iff_toNat_lt, hmax, UInt64.toNat_zero]
  omega

/-- The supported bytes. -/
theorem version_range_iff {version : UInt8} : (2 ≤ version ∧ version ≤ 4) ↔
    (version = 2 ∨ version = 3 ∨ version = 4) := by
  simp only [UInt8.le_iff_toNat_le, ← UInt8.toNat_inj, UInt8.reduceToNat]
  omega

/-! ## What the code accepts -/

/-- **What `from_json_bytes` accepts**: the version is the low byte of its member. -/
theorem fromJsonBytes_eq_ok (hdata : E.jsonFromSlice data = some v) {header : HeaderV4} :
    HeaderV4.fromJsonBytes E data = .ok header ↔ RestV4 E v header ∧
      ∃ version : UInt64, v.get (ascii "version") = some (.number (.posInt version)) ∧
        header.version = version.toUInt8 ∧
        (header.version = 2 ∨ header.version = 3 ∨ header.version = 4) := by
  simp only [HeaderV4.fromJsonBytes, bind_eq_ok, okOr_eq_ok, rejectIf_eq_ok, not_not, hdata,
    getU64_eq_some, getStr_eq_some, decodeFixed_eq_ok, iterations_range_iff, version_range_iff]
  constructor
  · intro h
    obtain ⟨payload, hpayload, _, hmagic, version, hv, _, hrange, _, hblock, _, hrounds, iterations,
      hi, _, hbound, originalLength, ho, saltText, hst, salt, hsalt, nonceText, hnt, nonce, hnonce,
      heq⟩ := h
    obtain rfl := Option.some.inj hpayload
    cases heq
    have hwide : iterations.toUInt32.toUInt64 = iterations := by
      rw [← UInt64.toNat_inj, UInt32.toNat_toUInt64, UInt64.toNat_toUInt32,
        Nat.mod_eq_of_lt (by omega)]
    refine ⟨⟨object_of_get hmagic, hmagic, hblock, hrounds, ?_, ?_, ho, ⟨_, hst, hsalt⟩,
      ⟨_, hnt, hnonce⟩⟩, version, hv, rfl, hrange⟩
    · rw [hwide]
      exact hi
    · rw [← UInt32.toNat_toUInt64, hwide]
      exact hbound
  · rintro ⟨hr, version, hv, hlow, hrange⟩
    obtain ⟨saltText, hst, hsalt⟩ := hr.salt
    obtain ⟨nonceText, hnt, hnonce⟩ := hr.nonce
    rw [hlow] at hrange
    refine ⟨v, rfl, (), hr.magic, version, hv, (), hrange, (), hr.blockBytes, (), hr.rounds, _,
      hr.iterations, (), ?_, _, hr.originalLength, saltText, hst, _, hsalt, nonceText, hnt, _,
      hnonce, ?_⟩
    · rw [UInt32.toNat_toUInt64]
      exact hr.iterations_range
    · rw [← hlow, UInt32.toUInt32_toUInt64]

/-- **When the header is accepted exactly**: on every value that is not acceptable but for a wide
version. -/
theorem fromJsonBytes_exact_iff (hdata : E.jsonFromSlice data = some v) :
    (∀ header, HeaderV4.fromJsonBytes E data = .ok header ↔ AcceptableV4 E v header) ↔
      ¬ WideVersion E v := by
  have hlow (version : UInt64) : version.toUInt8.toNat = version.toNat % 256 := rfl
  constructor
  · rintro h ⟨header, version, hr, hv, hwide, hrange⟩
    -- The code reads this value with the low byte for its version.
    have haccepts : HeaderV4.fromJsonBytes E data =
        .ok { header with version := version.toUInt8 } := by
      refine (fromJsonBytes_eq_ok hdata).mpr ⟨?_, version, hv, rfl, ?_⟩
      · exact ⟨hr.object, hr.magic, hr.blockBytes, hr.rounds, hr.iterations, hr.iterations_range,
          hr.originalLength, hr.salt, hr.nonce⟩
      · simp only [← UInt8.toNat_inj, hlow, UInt8.reduceToNat]
        exact hrange
    have hversion := ((h _).mp haccepts).version
    rw [hv] at hversion
    have hnat := congrArg UInt64.toNat (JsonNumber.posInt.inj (Json.number.inj (Option.some.inj hversion)))
    dsimp only at hnat
    rw [UInt8.toNat_toUInt64, hlow] at hnat
    omega
  · intro h header
    rw [fromJsonBytes_eq_ok hdata]
    refine ⟨fun ⟨hr, version, hv, hvlow, hrange⟩ => ⟨hr, ?_, hrange⟩, fun ha => ?_⟩
    · have hnarrow : version.toNat < 256 := by
        by_contra hge
        refine h ⟨header, version, hr, hv, Nat.not_lt.mp hge, ?_⟩
        simp only [hvlow, ← UInt8.toNat_inj, hlow, UInt8.reduceToNat] at hrange
        exact hrange
      rw [hv, hvlow]
      congr 3
      rw [← UInt64.toNat_inj, UInt8.toNat_toUInt64, hlow, Nat.mod_eq_of_lt hnarrow]
    · exact ⟨ha.rest, _, ha.version, (UInt8.toUInt8_toUInt64 _).symm, ha.version_range⟩

/-! ## Small headers -/

/-- The members of a small header, with a version of its own. -/
def versionedMembers (version : UInt64) : List (Bytes × Scalar) :=
  ((EncryptV4Options.small.header .zero []).members Env.zeroBase64).map fun member =>
    if member.1 = ascii "version" then (member.1, .number version) else member

def versionedObject (version : UInt64) : Json :=
  .object ((versionedMembers version).map fun member => (member.1, member.2.json))

/-- A parser of the printed members. -/
def Env.ofVersion (version : UInt64) : Env := { Env.zeroBase64 with
  jsonFromSlice := jsonOfText (printObject (versionedMembers version)) (versionedObject version) }

theorem versionedObject_rest (version : UInt64) :
    RestV4 (Env.ofVersion version) (versionedObject version)
      (EncryptV4Options.small.header .zero []) :=
  ⟨⟨_, rfl⟩, rfl, rfl, rfl, rfl, by decide, rfl, ⟨_, rfl, rfl⟩, ⟨_, rfl, rfl⟩⟩

theorem versionedObject_version (version : UInt64) :
    (versionedObject version).get (ascii "version") = some (.number (.posInt version)) := rfl

theorem ofVersion_reads (version : UInt64) :
    (Env.ofVersion version).jsonFromSlice (printObject (versionedMembers version)) =
      some (versionedObject version) := by
  dsimp only [Env.ofVersion]
  rw [jsonOfText_self]

theorem fromJsonBytes_exact_small :
    HeaderV4.fromJsonBytes (Env.ofVersion 4) (printObject (versionedMembers 4)) =
      .ok (EncryptV4Options.small.header .zero []) := by
  have hnarrow : ¬ WideVersion (Env.ofVersion 4) (versionedObject 4) := by
    intro ⟨_, version, _, hv, hwide, _⟩
    rw [versionedObject_version] at hv
    obtain rfl := JsonNumber.posInt.inj (Json.number.inj (Option.some.inj hv))
    exact absurd hwide (by decide)
  have hexact := (fromJsonBytes_exact_iff (ofVersion_reads 4)).mpr hnarrow
  exact (hexact _).mpr ⟨versionedObject_rest 4, rfl, .inr (.inr rfl)⟩

/-- Version 260 reads as version 4. -/
theorem fromJsonBytes_wide_version :
    (Env.ofVersion 260).jsonFromSlice (printObject (versionedMembers 260)) =
        some (versionedObject 260) ∧
      (versionedObject 260).get (ascii "version") = some (.number (.posInt 260)) ∧
      HeaderV4.fromJsonBytes (Env.ofVersion 260) (printObject (versionedMembers 260)) =
        .ok (EncryptV4Options.small.header .zero []) ∧
      ¬ AcceptableV4 (Env.ofVersion 260) (versionedObject 260)
        (EncryptV4Options.small.header .zero []) := by
  refine ⟨ofVersion_reads 260, rfl, ?_, fun ha => ?_⟩
  · exact (fromJsonBytes_eq_ok (ofVersion_reads 260)).mpr
      ⟨versionedObject_rest 260, 260, rfl, rfl, .inr (.inr rfl)⟩
  · have hversion := ha.version
    rw [versionedObject_version] at hversion
    exact absurd (JsonNumber.posInt.inj (Json.number.inj (Option.some.inj hversion))) (by decide)

end Krcm
