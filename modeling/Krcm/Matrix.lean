import Krcm.Stream
import Krcm.Base.Newton
import Mathlib.Data.UInt
import Mathlib.LinearAlgebra.Matrix.Notation

/-!
# The matrix layer

`matrix_from_seed`, `matrix_det`, `modinv_odd_u64`, `matrix_inv` and
`matrix_mul` of `block.rs`: 2x2 matrices of `u64` words, row by row, with
wrapping arithmetic. `toMatrix` reads such an array as a matrix over the ring
of 64-bit words; there `matrixMul` is the product and, for an odd determinant,
`matrixInv` is the inverse. The determinant of a derived matrix is odd.
-/

namespace Krcm

open Base

/-- `[u64; 4]`. -/
abbrev Words := Vector UInt64 4

def readU64Be (chunk : Bytes) : UInt64 := u64OfBytes chunk

def matrixFromSeed (E : Env) (seed : Bytes) : Words :=
  let material := (hkdfExpandLike E seed (ascii "matrix") 64).toList
  #v[readU64Be (material.extract 0 8) ||| 1,
    readU64Be (material.extract 8 16) &&& ~~~1,
    readU64Be (material.extract 16 24) &&& ~~~1,
    readU64Be (material.extract 24 32) ||| 1]

def matrixDet (m : Words) : UInt64 := m[0] * m[3] - m[1] * m[2]

/-- Six Newton steps from `1`. -/
def modinvOddU64 (a : UInt64) : UInt64 := (fun x => x * (2 - a * x))^[6] 1

def matrixInv (m : Words) : Words :=
  let invDet := modinvOddU64 (matrixDet m)
  #v[m[3] * invDet, ((0 : UInt64) - m[1]) * invDet, ((0 : UInt64) - m[2]) * invDet, m[0] * invDet]

def matrixMul (l r : Words) : Words :=
  #v[l[0] * r[0] + l[1] * r[2], l[0] * r[1] + l[1] * r[3],
    l[2] * r[0] + l[3] * r[2], l[2] * r[1] + l[3] * r[3]]

/-! ## Parity -/

open scoped UInt64.CommRing

def Odd64 (a : UInt64) : Prop := ∃ m, a = 2 * m + 1

def Even64 (a : UInt64) : Prop := ∃ m, a = 2 * m

theorem even64_of_testBit {x : UInt64} (h : x.toNat.testBit 0 = false) : Even64 x := by
  refine ⟨UInt64.ofNat (x.toNat / 2), UInt64.toNat_inj.mp ?_⟩
  have hx := x.toNat_lt
  simp only [Nat.testBit_zero, decide_eq_false_iff_not] at h
  simp only [UInt64.toNat_mul, UInt64.toNat_ofNat', UInt64.reduceToNat]
  omega

theorem odd64_of_testBit {x : UInt64} (h : x.toNat.testBit 0 = true) : Odd64 x := by
  refine ⟨UInt64.ofNat (x.toNat / 2), UInt64.toNat_inj.mp ?_⟩
  have hx := x.toNat_lt
  simp only [Nat.testBit_zero, decide_eq_true_eq] at h
  simp only [UInt64.toNat_add, UInt64.toNat_mul, UInt64.toNat_ofNat', UInt64.reduceToNat]
  omega

theorem odd64_or_one (x : UInt64) : Odd64 (x ||| 1) := odd64_of_testBit (by simp)

theorem even64_and_not_one (x : UInt64) : Even64 (x &&& ~~~1) :=
  even64_of_testBit (by rw [UInt64.toNat_and, Nat.testBit_and]; simp)

/-- Odd diagonal and even off-diagonal entries make an odd determinant. -/
theorem matrixFromSeed_odd (E : Env) (seed : Bytes) : Odd64 (matrixDet (matrixFromSeed E seed)) := by
  obtain ⟨a, ha⟩ := odd64_or_one (readU64Be
    ((hkdfExpandLike E seed (ascii "matrix") 64).toList.extract 0 8))
  obtain ⟨b, hb⟩ := even64_and_not_one (readU64Be
    ((hkdfExpandLike E seed (ascii "matrix") 64).toList.extract 8 16))
  obtain ⟨c, hc⟩ := even64_and_not_one (readU64Be
    ((hkdfExpandLike E seed (ascii "matrix") 64).toList.extract 16 24))
  obtain ⟨d, hd⟩ := odd64_or_one (readU64Be
    ((hkdfExpandLike E seed (ascii "matrix") 64).toList.extract 24 32))
  refine ⟨2 * a * d + a + d - 2 * b * c, ?_⟩
  change (readU64Be _ ||| 1) * (readU64Be _ ||| 1) -
    (readU64Be _ &&& ~~~1) * (readU64Be _ &&& ~~~1) = _
  rw [ha, hb, hc, hd]
  ring

/-! ## The ring of words -/

theorem two_pow_64 : (2 : UInt64) ^ 2 ^ 6 = 0 := by
  have h16 : (2 : UInt64) ^ 16 = 65536 := by decide
  rw [show 2 ^ 6 = 16 * 4 from rfl, pow_mul, h16]
  decide

theorem mul_modinvOddU64 {a : UInt64} (h : Odd64 a) : a * modinvOddU64 a = 1 := by
  obtain ⟨m, hm⟩ := h
  exact newton_inverse hm two_pow_64

/-- An array of words as a matrix. -/
def toMatrix (m : Words) : Matrix (Fin 2) (Fin 2) UInt64 := !![m[0], m[1]; m[2], m[3]]

theorem toMatrix_injective : Function.Injective toMatrix := by
  intro m n h
  have e00 : m[0] = n[0] := congrFun (congrFun h 0) 0
  have e01 : m[1] = n[1] := congrFun (congrFun h 0) 1
  have e10 : m[2] = n[2] := congrFun (congrFun h 1) 0
  have e11 : m[3] = n[3] := congrFun (congrFun h 1) 1
  apply Vector.ext
  intro i hi
  match i, hi with
  | 0, _ => exact e00
  | 1, _ => exact e01
  | 2, _ => exact e10
  | 3, _ => exact e11

theorem toMatrix_mul (l r : Words) : toMatrix (matrixMul l r) = toMatrix l * toMatrix r := by
  rw [toMatrix, toMatrix, toMatrix, Matrix.mul_fin_two]
  rfl

theorem toMatrix_inv (m : Words) : toMatrix (matrixInv m) =
    !![m[3] * modinvOddU64 (matrixDet m), ((0 : UInt64) - m[1]) * modinvOddU64 (matrixDet m);
      ((0 : UInt64) - m[2]) * modinvOddU64 (matrixDet m), m[0] * modinvOddU64 (matrixDet m)] := by
  simp [toMatrix, matrixInv]

section
variable {m : Words} (h : Odd64 (matrixDet m))
include h

theorem toMatrix_inv_mul : toMatrix (matrixInv m) * toMatrix m = 1 := by
  have hd : (m[0] * m[3] - m[1] * m[2]) * modinvOddU64 (matrixDet m) = 1 := mul_modinvOddU64 h
  rw [toMatrix_inv, toMatrix, Matrix.mul_fin_two, Matrix.one_fin_two]
  generalize modinvOddU64 (matrixDet m) = d at hd
  generalize m[0] = a, m[1] = b, m[2] = c, m[3] = e at hd
  have h00 : e * d * a + (0 - b) * d * c = 1 := by linear_combination hd
  have h01 : e * d * b + (0 - b) * d * e = 0 := by ring
  have h10 : (0 - c) * d * a + a * d * c = 0 := by ring
  have h11 : (0 - c) * d * b + a * d * e = 1 := by linear_combination hd
  rw [h00, h01, h10, h11]

theorem toMatrix_mul_inv : toMatrix m * toMatrix (matrixInv m) = 1 := by
  have hd : (m[0] * m[3] - m[1] * m[2]) * modinvOddU64 (matrixDet m) = 1 := mul_modinvOddU64 h
  rw [toMatrix_inv, toMatrix, Matrix.mul_fin_two, Matrix.one_fin_two]
  generalize modinvOddU64 (matrixDet m) = d at hd
  generalize m[0] = a, m[1] = b, m[2] = c, m[3] = e at hd
  have h00 : a * (e * d) + b * ((0 - c) * d) = 1 := by linear_combination hd
  have h01 : a * ((0 - b) * d) + b * (a * d) = 0 := by ring
  have h10 : c * (e * d) + e * ((0 - c) * d) = 0 := by ring
  have h11 : c * ((0 - b) * d) + e * (a * d) = 1 := by linear_combination hd
  rw [h00, h01, h10, h11]

end

/-! ## Mixing -/

section
variable {l r : Words} (hl : Odd64 (matrixDet l)) (hr : Odd64 (matrixDet r))
include hl hr

/-- Multiplying by the inverses on both sides undoes multiplying on both sides. -/
theorem matrixMul_unmix (w : Words) :
    matrixMul (matrixInv l) (matrixMul (matrixMul l (matrixMul w r)) (matrixInv r)) = w := by
  apply toMatrix_injective
  simp only [toMatrix_mul]
  calc toMatrix (matrixInv l) *
        (toMatrix l * (toMatrix w * toMatrix r) * toMatrix (matrixInv r))
      = (toMatrix (matrixInv l) * toMatrix l) * toMatrix w *
          (toMatrix r * toMatrix (matrixInv r)) := by simp only [Matrix.mul_assoc]
    _ = toMatrix w := by
      rw [toMatrix_inv_mul hl, toMatrix_mul_inv hr, Matrix.one_mul, Matrix.mul_one]

theorem matrixMul_remix (w : Words) :
    matrixMul l (matrixMul (matrixMul (matrixInv l) (matrixMul w (matrixInv r))) r) = w := by
  apply toMatrix_injective
  simp only [toMatrix_mul]
  calc toMatrix l *
        (toMatrix (matrixInv l) * (toMatrix w * toMatrix (matrixInv r)) * toMatrix r)
      = (toMatrix l * toMatrix (matrixInv l)) * toMatrix w *
          (toMatrix (matrixInv r) * toMatrix r) := by simp only [Matrix.mul_assoc]
    _ = toMatrix w := by
      rw [toMatrix_mul_inv hl, toMatrix_inv_mul hr, Matrix.one_mul, Matrix.mul_one]

end

/-! ## Zero hashes -/

theorem matrixMul_one (w : Words) : matrixMul #v[1, 0, 0, 1] (matrixMul w #v[1, 0, 0, 1]) = w := by
  apply toMatrix_injective
  have hone : toMatrix #v[1, 0, 0, 1] = 1 := Matrix.one_fin_two.symm
  rw [toMatrix_mul, toMatrix_mul, hone, Matrix.one_mul, Matrix.mul_one]

theorem matrixFromSeed_zero {E : Env} (hz : ∀ k d, E.hmacSha256 k d = Vector.replicate 32 0)
    (seed : Bytes) : matrixFromSeed E seed = #v[1, 0, 0, 1] := by
  have hmaterial : (hkdfExpandLike E seed (ascii "matrix") 64).toList = List.replicate 64 0 := by
    rw [hkdfExpandLike_zero hz, Vector.toList_replicate]
  have hword (i j : Nat) :
      readU64Be ((hkdfExpandLike E seed (ascii "matrix") 64).toList.extract i j) = 0 := by
    have hzero : ∀ b ∈ (List.replicate 64 (0 : UInt8)).extract i j, b = 0 := fun b hb => by
      rw [List.extract_eq_take_drop] at hb
      exact (List.mem_replicate.mp (List.mem_of_mem_drop (List.mem_of_mem_take hb))).2
    rw [hmaterial, readU64Be, u64OfBytes, beNat_zero hzero]
    rfl
  have hone : (0 : UInt64) ||| 1 = 1 := by decide
  have hnone : (0 : UInt64) &&& ~~~1 = 0 := by decide
  apply Vector.toList_inj.mp
  show [_ ||| 1, _ &&& ~~~1, _ &&& ~~~1, _ ||| 1] = [1, 0, 0, 1]
  rw [hword, hword, hword, hword, hone, hnone]

end Krcm
