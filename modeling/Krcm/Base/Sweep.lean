import Mathlib.Data.Matrix.Mul
import Mathlib.LinearAlgebra.Matrix.Block
import Mathlib.LinearAlgebra.Matrix.NonsingularInverse
import Mathlib.Order.Interval.Finset.Fin

/-!
# Running sums

A loop that adds to each entry of a vector the one before it, upwards, and then
to each entry the one behind it, downwards. Both passes are affine: the first
sums the entries up to an index (`runUp_eq`), the second those from it on
(`runDown_eq`), and together they multiply by the matrix of the entries
`n - max i k`, whose determinant is 1 (`runDown_runUp`, `det_reach`).
-/

namespace Base

open Finset

/-! ## Loops over an index -/

section
variable {σ : Type} {n : ℕ} {f : σ → Fin n → σ} {s : σ}

/-- What the steps move on, one index up at a time. -/
theorem foldl_finRange_up {P : ℕ → σ → Prop} (h0 : P 0 s)
    (hstep : ∀ (k : Fin n) t, P k t → P (k + 1) (f t k)) : P n ((List.finRange n).foldl f s) := by
  induction n with
  | zero => exact h0
  | succ n ih =>
    rw [List.finRange_succ_last, List.foldl_append, List.foldl_map]
    exact hstep (Fin.last n) _ (ih fun k t => hstep k.castSucc t)

theorem foldl_finRange_down {P : ℕ → σ → Prop} (hn : P n s)
    (hstep : ∀ (k : Fin n) t, P (k + 1) t → P k (f t k)) :
    P 0 ((List.finRange n).reverse.foldl f s) := by
  rw [List.finRange_reverse, List.foldl_map]
  have h := foldl_finRange_up (f := fun t k => f t k.rev) (P := fun k => P (n - k)) hn
    fun k t ht => by
      have hstep := hstep k.rev t (by rw [Fin.val_rev]; convert ht using 1; omega)
      rwa [Fin.val_rev] at hstep
  rwa [Nat.sub_self] at h

end

/-! ## Sums -/

section
variable {A : Type} [AddCommMonoid A] {n : ℕ}

/-- The entry, the result below it and the summand of the step. -/
def runUp (m : Fin n → A) (s : Fin (n + 1) → A) : Fin (n + 1) → A :=
  Fin.induction (s 0) fun k x => s k.succ + x + m k

@[simp] theorem runUp_zero (m : Fin n → A) (s : Fin (n + 1) → A) : runUp m s 0 = s 0 := rfl

@[simp] theorem runUp_succ (m : Fin n → A) (s : Fin (n + 1) → A) (k : Fin n) :
    runUp m s k.succ = s k.succ + runUp m s k.castSucc + m k := rfl

def runDown (c : Fin n → A) (s : Fin (n + 1) → A) : Fin (n + 1) → A :=
  fun i => runUp (fun k => c k.rev) (fun j => s j.rev) i.rev

@[simp] theorem runDown_last (c : Fin n → A) (s : Fin (n + 1) → A) :
    runDown c s (Fin.last n) = s (Fin.last n) := by
  unfold runDown
  rw [Fin.rev_last, runUp_zero, Fin.rev_zero]

@[simp] theorem runDown_castSucc (c : Fin n → A) (s : Fin (n + 1) → A) (k : Fin n) :
    runDown c s k.castSucc = s k.castSucc + runDown c s k.succ + c k := by
  simp only [runDown, Fin.rev_castSucc, runUp_succ, Fin.rev_succ, Fin.rev_rev]

theorem Iic_succ (k : Fin n) : Iic k.succ = insert k.succ (Iic k.castSucc) := by
  ext j
  simp only [mem_Iic, mem_insert, Fin.le_def, Fin.ext_iff, Fin.val_succ, Fin.val_castSucc]
  omega

/-- The sum of the entries up to an index, and what the steps add. -/
theorem runUp_eq (m : Fin n → A) (s : Fin (n + 1) → A) (i : Fin (n + 1)) :
    runUp m s i = ∑ j ∈ Iic i, s j + runUp m 0 i := by
  induction i using Fin.induction with
  | zero =>
    have hzero : Iic (0 : Fin (n + 1)) = {0} := Iic_bot
    rw [hzero, sum_singleton, runUp_zero, runUp_zero, Pi.zero_apply, add_zero]
  | succ k ih =>
    have hk : k.succ ∉ Iic k.castSucc := by simp [Fin.le_def]
    rw [runUp_succ, ih, Iic_succ, sum_insert hk, runUp_succ, Pi.zero_apply, zero_add]
    abel

theorem runDown_eq (c : Fin n → A) (s : Fin (n + 1) → A) (i : Fin (n + 1)) :
    runDown c s i = ∑ j ∈ Ici i, s j + runDown c 0 i := by
  have hsum : ∑ j ∈ Iic i.rev, s j.rev = ∑ j ∈ Ici i, s j := by
    refine sum_bij' (fun j _ => j.rev) (fun j _ => j.rev) ?_ ?_ ?_ ?_ ?_ <;>
      simp [Fin.le_rev_iff]
  unfold runDown
  rw [runUp_eq, hsum]
  rfl

end

/-! ## The matrix of both passes -/

section
variable (R : Type) [CommRing R] (n : ℕ)

/-- Ones up to the diagonal. -/
def prefixes : Matrix (Fin n) (Fin n) R := fun i j => if j ≤ i then 1 else 0

def reach : Matrix (Fin n) (Fin n) R := fun i k => ((n - max i.val k.val : ℕ) : R)

theorem reach_eq : reach R n = (prefixes R n).transpose * prefixes R n := by
  ext i k
  have hentry (j : Fin n) : (prefixes R n).transpose i j * prefixes R n j k =
      if j ∈ Ici (max i k) then 1 else 0 := by
    simp only [Matrix.transpose_apply, prefixes, mem_Ici, max_le_iff, ite_and, mul_ite, mul_one,
      mul_zero]
    split_ifs <;> rfl
  rw [Matrix.mul_apply, sum_congr rfl fun j _ => hentry j, sum_ite_mem, univ_inter, sum_const,
    Fin.card_Ici, nsmul_one, Fin.coe_max]
  rfl

theorem reach_mulVec_single (j i : Fin n) (x : R) :
    (reach R n).mulVec (Pi.single j x) i = ((n - max i.val j.val : ℕ) : R) * x :=
  dotProduct_single _ _ _

theorem det_prefixes : (prefixes R n).det = 1 := by
  have hlower : (prefixes R n).IsLowerTriangular := fun i j (hij : i < j) => if_neg hij.not_ge
  rw [Matrix.det_of_isLowerTriangular _ hlower]
  exact prod_eq_one fun i _ => if_pos le_rfl

theorem det_reach : (reach R n).det = 1 := by
  rw [reach_eq, Matrix.det_mul, Matrix.det_transpose, det_prefixes, one_mul]

variable {R n}

theorem runUp_eq_mulVec (m : Fin n → R) (s : Fin (n + 1) → R) :
    runUp m s = (prefixes R (n + 1)).mulVec s + runUp m 0 := by
  funext i
  rw [runUp_eq, Pi.add_apply, Matrix.mulVec, dotProduct]
  simp only [prefixes, ite_mul, one_mul, zero_mul, ← mem_Iic, sum_ite_mem, univ_inter]

theorem runDown_eq_mulVec (c : Fin n → R) (s : Fin (n + 1) → R) :
    runDown c s = (prefixes R (n + 1)).transpose.mulVec s + runDown c 0 := by
  funext i
  rw [runDown_eq, Pi.add_apply, Matrix.mulVec, dotProduct]
  simp only [Matrix.transpose_apply, prefixes, ite_mul, one_mul, zero_mul, ← mem_Ici, sum_ite_mem,
    univ_inter]

/-- **Both passes** multiply by the matrix, up to what the steps add. -/
theorem runDown_runUp (m c : Fin n → R) (s : Fin (n + 1) → R) :
    runDown c (runUp m s) = (reach R (n + 1)).mulVec s + runDown c (runUp m 0) := by
  rw [runDown_eq_mulVec, runUp_eq_mulVec, Matrix.mulVec_add, Matrix.mulVec_mulVec, ← reach_eq,
    runDown_eq_mulVec c (runUp m 0), add_assoc]

end

end Base
