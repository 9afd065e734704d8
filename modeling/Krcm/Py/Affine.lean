import Krcm.Py.Block
import Mathlib.Data.Nat.ModEq

/-!
# The version 3 layers

The affine byte substitution and the affine position map of the legacy engine.
Both multipliers are forced odd, so the first is invertible modulo 256 and the
second permutes the positions: they are `Layers`, and the version 3 engine is
the engine over them (`computes_affine`).
-/

namespace Krcm.Py

open Base Outcome

section model
variable (E : Env)

/-- `pow(a, -1, m)`. -/
def powInverse (a m : Nat) : PyRun Nat :=
  okOr ((List.range m).find? fun x => a * x % m = 1 % m) .valueError

def byteAffineParams (seed : Bytes) : PyRun (Nat × Nat × Nat) := do
  let s0 ← getItem seed 0
  let a := s0.toNat ||| 1
  let b ← getItem seed 1
  let invA ← powInverse a 256
  .ok (a, b.toNat, invA)

def preSubstituteV3 (block seed : Bytes) : PyRun Bytes := do
  let mask ← hkdfExpandLike E seed (ascii "mask") blockBytes
  let (a, b, _) ← byteAffineParams seed
  writeLoop (fun i (byte : UInt8) => do
    let m ← getItem mask i
    let x ← byteOf (lowByte (a * lowByte (byte.toNat + m.toNat) + b))
    .ok (i, x)) 0 (List.replicate blockBytes 0) block

def postUnsubstituteV3 (block seed : Bytes) : PyRun Bytes := do
  let mask ← hkdfExpandLike E seed (ascii "mask") blockBytes
  let (_, b, invA) ← byteAffineParams seed
  writeLoop (fun i (byte : UInt8) => do
    let m ← getItem mask i
    let x ← byteOf (lowByte (invA * lowByte (byte.toNat - b) - m.toNat))
    .ok (i, x)) 0 (List.replicate blockBytes 0) block

def positionAffineParams (seed : Bytes) : PyRun (Nat × Nat) := do
  let s2 ← getItem seed 2
  let a := (s2.toNat ||| 1) % blockBytes
  let s3 ← getItem seed 3
  let b := s3.toNat % blockBytes
  .ok (if a = 0 then 1 else a, b)

def applyPositionAffine (block seed : Bytes) : PyRun Bytes := do
  let (a, b) ← positionAffineParams seed
  collect ((List.range blockBytes).map fun i => getItem block ((a * i + b) % blockBytes))

def invertPositionAffine (block seed : Bytes) : PyRun Bytes := do
  let (a, b) ← positionAffineParams seed
  writeLoop (fun i (byte : UInt8) => .ok ((a * i + b) % blockBytes, byte)) 0
    (List.replicate blockBytes 0) block

def encryptOneBlockV3 (block seed : Bytes) : PyRun Bytes :=
  encryptOneBlockWith E (preSubstituteV3 E) applyPositionAffine block seed

def decryptOneBlockV3 (block seed : Bytes) : PyRun Bytes :=
  decryptOneBlockWith E invertPositionAffine (postUnsubstituteV3 E) block seed

end model

variable {E : Env}

/-! ## Bytes -/

/-- The multiplier of the bytes, forced odd. -/
def byteMultiplier (seed : Hash) : UInt8 := seed[0] ||| 1

/-- Its inverse: the units modulo 256 have exponent 64. -/
def byteInverse (seed : Hash) : UInt8 := byteMultiplier seed ^ 63

theorem pow_mul_odd : ∀ a : Fin 256,
    (UInt8.ofNat (a.val ||| 1)) ^ 63 * UInt8.ofNat (a.val ||| 1) = 1 := by
  decide +kernel

/-- There is one inverse, so the search ends there. -/
theorem powInverse_eq_ok {a x m : Nat} (hx : x < m) (h : a * x % m = 1 % m) :
    powInverse a m = .ok x := by
  have hinverse : a * x ≡ 1 [MOD m] := h
  have hfind : ((List.range m).find? fun y => a * y % m = 1 % m) = some x := by
    rw [List.find?_range_eq_some]
    refine ⟨decide_eq_true h, List.mem_range.mpr hx, fun y hy => ?_⟩
    rw [Bool.not_eq_true', decide_eq_false_iff_not]
    intro hother
    have hproduct : y ≡ x [MOD m] := calc
      y = y * 1 := (Nat.mul_one y).symm
      _ ≡ y * (a * x) [MOD m] := hinverse.symm.mul_left y
      _ = a * y * x := by ring
      _ ≡ 1 * x [MOD m] := Nat.ModEq.mul_right x hother
      _ = x := Nat.one_mul x
    exact hy.ne (hproduct.eq_of_lt_of_lt (hy.trans hx) hx)
  unfold powInverse
  rw [hfind]
  rfl

theorem toNat_byteMultiplier (seed : Hash) : (byteMultiplier seed).toNat = seed[0].toNat ||| 1 := by
  unfold byteMultiplier
  rw [UInt8.toNat_or]
  rfl

theorem ofNat_byteMultiplier (seed : Hash) :
    UInt8.ofNat (seed[0].toNat ||| 1) = byteMultiplier seed := by
  rw [← toNat_byteMultiplier, UInt8.ofNat_toNat]

theorem byteInverse_mul (seed : Hash) : byteInverse seed * byteMultiplier seed = 1 := by
  have h := pow_mul_odd ⟨seed[0].toNat, UInt8.toNat_lt _⟩
  rw [ofNat_byteMultiplier] at h
  exact h

theorem powInverse_byteMultiplier (seed : Hash) :
    powInverse (byteMultiplier seed).toNat 256 = .ok (byteInverse seed).toNat := by
  refine powInverse_eq_ok (UInt8.toNat_lt _) ?_
  have h := congrArg UInt8.toNat (byteInverse_mul seed)
  rwa [UInt8.mul_comm, UInt8.toNat_mul] at h

/-- The parameters of a seed are always derived. -/
theorem byteAffineParams_agrees (seed : Hash) : byteAffineParams seed.toList =
    .ok ((byteMultiplier seed).toNat, seed[1].toNat, (byteInverse seed).toNat) := by
  unfold byteAffineParams
  rw [getItem_toList _ (by decide), ok_bind, getItem_toList _ (by decide), ok_bind]
  rw [← toNat_byteMultiplier, powInverse_byteMultiplier, ok_bind]

def substituteV3 (a b : UInt8) (mask block : Block) : Block :=
  Vector.ofFn fun i => a * (block.get i + mask.get i) + b

def unsubstituteV3 (invA b : UInt8) (mask block : Block) : Block :=
  Vector.ofFn fun i => invA * (block.get i - b) - mask.get i

theorem getElem_substituteV3 (a b : UInt8) (mask block : Block) (i : Nat) (hi : i < 32) :
    (substituteV3 a b mask block)[i] = a * (block[i] + mask[i]) + b := by
  rw [substituteV3, Vector.getElem_ofFn]
  rfl

theorem getElem_unsubstituteV3 (invA b : UInt8) (mask block : Block) (i : Nat) (hi : i < 32) :
    (unsubstituteV3 invA b mask block)[i] = invA * (block[i] - b) - mask[i] := by
  rw [unsubstituteV3, Vector.getElem_ofFn]
  rfl

section
variable {a invA : UInt8} (h : invA * a = 1)
include h

theorem unsubstituteV3_substituteV3 (b : UInt8) (mask block : Block) :
    unsubstituteV3 invA b mask (substituteV3 a b mask block) = block := by
  apply Vector.ext
  intro i hi
  rw [getElem_unsubstituteV3, getElem_substituteV3, UInt8.add_sub_cancel, ← UInt8.mul_assoc, h,
    UInt8.one_mul, UInt8.add_sub_cancel]

theorem substituteV3_unsubstituteV3 (b : UInt8) (mask block : Block) :
    substituteV3 a b mask (unsubstituteV3 invA b mask block) = block := by
  apply Vector.ext
  intro i hi
  rw [getElem_substituteV3, getElem_unsubstituteV3, UInt8.sub_add_cancel, ← UInt8.mul_assoc,
    UInt8.mul_comm a, h, UInt8.one_mul, UInt8.sub_add_cancel]

end

theorem ofInt_lowByte (x : Int) : UInt8.ofInt (lowByte x) = UInt8.ofInt x := by
  unfold UInt8.ofInt lowByte
  rw [show (2 : Int) ^ 8 = 256 from rfl, Int.emod_emod]

theorem preSubstituteV3_agrees (seed : Hash) (block : Block) :
    preSubstituteV3 E block.toList seed.toList = .ok (substituteV3 (byteMultiplier seed) seed[1]
      (Krcm.hkdfExpandLike E seed.toList (ascii "mask") 32) block).toList := by
  unfold preSubstituteV3
  rw [byteMask, ok_bind, byteAffineParams_agrees, ok_bind, replicate_eq_toList]
  refine writeLoop_fill _ (fun i hi => ?_) _
  rw [getItem_toList _ hi, ok_bind, byteOf_lowByte, ok_bind]
  simp only [UInt8.ofInt_add, UInt8.ofInt_mul, ofInt_lowByte, ofInt_toNat, getElem_substituteV3]

theorem postUnsubstituteV3_agrees (seed : Hash) (block : Block) :
    postUnsubstituteV3 E block.toList seed.toList = .ok (unsubstituteV3 (byteInverse seed) seed[1]
      (Krcm.hkdfExpandLike E seed.toList (ascii "mask") 32) block).toList := by
  unfold postUnsubstituteV3
  rw [byteMask, ok_bind, byteAffineParams_agrees, ok_bind, replicate_eq_toList]
  refine writeLoop_fill _ (fun i hi => ?_) _
  rw [getItem_toList _ hi, ok_bind, byteOf_lowByte, ok_bind]
  simp only [ofInt_sub, UInt8.ofInt_mul, ofInt_lowByte, ofInt_toNat, getElem_unsubstituteV3]

/-! ## Positions -/

/-- An odd multiplier permutes the positions. -/
theorem affine_injective {a : Nat} (ha : a % 2 = 1) (b : Nat) {i j : Nat} (hi : i < 32) (hj : j < 32)
    (h : (a * i + b) % 32 = (a * j + b) % 32) : i = j := by
  have hsum : a * i + b ≡ a * j + b [MOD 32] := h
  have hproduct : a * i ≡ a * j [MOD 32] := Nat.ModEq.add_right_cancel' b hsum
  have hcoprime : Nat.gcd 32 a = 1 :=
    Nat.Coprime.pow_left 5 (Nat.coprime_two_left.mpr (Nat.odd_iff.mpr ha))
  have hindex : i % 32 = j % 32 := Nat.ModEq.cancel_left_of_coprime hcoprime hproduct
  omega

def affineTable (a b : Nat) (ha : a % 2 = 1) : Table 32 where
  entries := Vector.ofFn fun i : Fin 32 => ⟨(a * i.val + b) % 32, Nat.mod_lt _ (by decide)⟩
  nodup := by
    rw [Vector.toList_ofFn]
    refine List.nodup_ofFn_ofInjective fun i j h => ?_
    exact Fin.ext (affine_injective ha b i.isLt j.isLt (congrArg Fin.val h))

theorem get_affineTable {a b : Nat} (ha : a % 2 = 1) (i : Fin 32) :
    ((affineTable a b ha).get i).val = (a * i.val + b) % 32 := by
  simp [affineTable, Table.get]

theorem positionMultiplier_odd (seed : Hash) : (seed[2].toNat ||| 1) % 32 % 2 = 1 := by
  have hodd : (seed[2].toNat ||| 1) % 2 = 1 := by
    rw [Nat.or_mod_two_eq_one]
    exact .inr rfl
  omega

/-- The table of a seed. -/
def positionTable (seed : Hash) : Table 32 :=
  affineTable ((seed[2].toNat ||| 1) % 32) (seed[3].toNat % 32) (positionMultiplier_odd seed)

theorem positionAffineParams_agrees (seed : Hash) : positionAffineParams seed.toList =
    .ok ((seed[2].toNat ||| 1) % 32, seed[3].toNat % 32) := by
  have hodd := positionMultiplier_odd seed
  unfold positionAffineParams
  rw [getItem_toList _ (by decide), ok_bind, getItem_toList _ (by decide), ok_bind]
  dsimp only [blockBytes]
  rw [if_neg (by omega)]

theorem applyPositionAffine_agrees (seed : Hash) (block : Block) :
    applyPositionAffine block.toList seed.toList =
      .ok (Krcm.applyPositionPermutation block (positionTable seed)).toList := by
  unfold applyPositionAffine Krcm.applyPositionPermutation
  rw [positionAffineParams_agrees, ok_bind]
  refine collect_eq_ok.mpr (List.ext_getElem (by simp) fun i h1 h2 => ?_)
  have hi : i < 32 := by simpa using h2
  have hget := get_affineTable (b := seed[3].toNat % 32) (positionMultiplier_odd seed) ⟨i, hi⟩
  dsimp only at hget
  simp only [List.getElem_map, List.getElem_range, Vector.getElem_toList]
  rw [← hget, getItem_toList _ (Fin.isLt _)]
  exact congrArg Outcome.ok ((positionTable seed).getElem_gather block ⟨i, hi⟩).symm

theorem invertPositionAffine_agrees (seed : Hash) (block : Block) :
    invertPositionAffine block.toList seed.toList =
      .ok (Krcm.invertPositionPermutation block (positionTable seed)).toList := by
  unfold invertPositionAffine Krcm.invertPositionPermutation
  rw [positionAffineParams_agrees, ok_bind, replicate_eq_toList]
  refine writeLoop_scatter (positionTable seed) (fun i => block[i]) (fun i hi => ?_) _
  rw [positionTable, get_affineTable]
  rfl

/-! ## The engine -/

def affineLayers (E : Env) : Layers where
  substitute seed s := substituteV3 (byteMultiplier seed) seed[1]
    (Krcm.hkdfExpandLike E seed.toList (ascii "mask") 32) s
  unsubstitute seed s := unsubstituteV3 (byteInverse seed) seed[1]
    (Krcm.hkdfExpandLike E seed.toList (ascii "mask") 32) s
  position := positionTable
  unsubstitute_substitute seed s := unsubstituteV3_substituteV3 (byteInverse_mul seed) _ _ s
  substitute_unsubstitute seed s := substituteV3_unsubstituteV3 (byteInverse_mul seed) _ _ s

/-- **The version 3 engine is the engine over the affine layers**, whatever the seeds. -/
theorem computes_affine : Computes (affineLayers E) (preSubstituteV3 E) (postUnsubstituteV3 E)
    applyPositionAffine invertPositionAffine where
  substitute := preSubstituteV3_agrees
  unsubstitute := postUnsubstituteV3_agrees
  permute := applyPositionAffine_agrees
  unpermute := invertPositionAffine_agrees

end Krcm.Py
