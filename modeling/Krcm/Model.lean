import Krcm.Base.Sweep
import Krcm.Base.Uniform
import Krcm.Layers
import Mathlib.Algebra.Group.End
import Mathlib.LinearAlgebra.Matrix.NonsingularInverse
import Mathlib.Tactic.IntervalCases

/-!
# The mathematical model

A round as `T = P ∘ L ∘ D ∘ S` on vectors of 32 bytes: a permutation of the
bytes for each coordinate, an affine map whose matrix has the entries
`32 - max i k`, the product with two invertible matrices of words on the left
and on the right, and a permutation of the coordinates. `RoundKey` has what a
round seed decides; the rounds of `block.rs` are those of the model, and their
inverses its inverse (`oneBlock_model`).
-/

namespace Krcm

open Base Outcome
open scoped UInt8.CommRing UInt64.CommRing

/-! ## Representations -/

theorem get_eq {n : Nat} (v : Arr n) (i : Fin n) : v.get i = getElem v i.val i.isLt := rfl

/-- The bytes of a block. -/
def blockVec : Block ≃ (Fin 32 → UInt8) where
  toFun b := b.get
  invFun := Vector.ofFn
  left_inv b := by
    apply Vector.ext
    intro i hi
    rw [Vector.getElem_ofFn]
    rfl
  right_inv f := by
    funext i
    show (Vector.ofFn f).get i = f i
    rw [get_eq, Vector.getElem_ofFn]

@[simp] theorem blockVec_apply (b : Block) (i : Fin 32) : blockVec b i = b.get i := rfl

theorem blockVec_replicate (x : UInt8) : blockVec (Vector.replicate 32 x) = fun _ => x := by
  funext i
  rw [blockVec_apply, get_eq, Vector.getElem_replicate]

/-- The words of a block, as a matrix. -/
def blockMatrix : Block ≃ Matrix (Fin 2) (Fin 2) UInt64 where
  toFun b := toMatrix (wordsFromBlock b)
  invFun M := blockFromWords #v[M 0 0, M 0 1, M 1 0, M 1 1]
  left_inv b := by
    have hwords : #v[toMatrix (wordsFromBlock b) 0 0, toMatrix (wordsFromBlock b) 0 1,
        toMatrix (wordsFromBlock b) 1 0, toMatrix (wordsFromBlock b) 1 1] = wordsFromBlock b :=
      toMatrix_injective (Matrix.eta_fin_two (toMatrix (wordsFromBlock b))).symm
    dsimp only
    rw [hwords, blockFromWords_wordsFromBlock]
  right_inv M := by
    dsimp only
    rw [wordsFromBlock_blockFromWords]
    exact (Matrix.eta_fin_two M).symm

/-! ## The model -/

/-- What decides a round. -/
structure RoundKey where
  substitution : Fin 32 → Equiv.Perm UInt8
  offset : Fin 32 → UInt8
  left : (Matrix (Fin 2) (Fin 2) UInt64)ˣ
  right : (Matrix (Fin 2) (Fin 2) UInt64)ˣ
  position : Equiv.Perm (Fin 32)

theorem isUnit_det_reach : IsUnit (reach UInt8 32).det := by
  rw [det_reach]
  exact isUnit_one

namespace RoundKey

variable (K : RoundKey)

def substitute : Equiv.Perm (Fin 32 → UInt8) := Equiv.piCongrRight K.substitution

noncomputable def diffuse : Equiv.Perm (Fin 32 → UInt8) where
  toFun v := (reach UInt8 32).mulVec v + K.offset
  invFun v := (reach UInt8 32)⁻¹.mulVec (v - K.offset)
  left_inv v := by
    dsimp only
    rw [add_sub_cancel_right, Matrix.mulVec_mulVec, Matrix.nonsing_inv_mul _ isUnit_det_reach,
      Matrix.one_mulVec]
  right_inv v := by
    dsimp only
    rw [Matrix.mulVec_mulVec, Matrix.mul_nonsing_inv _ isUnit_det_reach, Matrix.one_mulVec,
      sub_add_cancel]

/-- `X ↦ left * X * right`. -/
noncomputable def multiply : Equiv.Perm (Matrix (Fin 2) (Fin 2) UInt64) where
  toFun X := K.left * (X * K.right)
  invFun X := ↑K.left⁻¹ * (X * ↑K.right⁻¹)
  left_inv X := by simp [mul_assoc]
  right_inv X := by simp [mul_assoc]

noncomputable def mix : Equiv.Perm (Fin 32 → UInt8) := (blockMatrix.symm.trans blockVec).permCongr K.multiply

def permute : Equiv.Perm (Fin 32 → UInt8) := K.position.symm.arrowCongr (Equiv.refl _)

theorem substitute_apply (v : Fin 32 → UInt8) (i : Fin 32) :
    K.substitute v i = K.substitution i (v i) := rfl

theorem permute_apply (v : Fin 32 → UInt8) (i : Fin 32) : K.permute v i = v (K.position i) := rfl

/-- `T = P ∘ L ∘ D ∘ S`. -/
noncomputable def round : Equiv.Perm (Fin 32 → UInt8) :=
  K.permute * K.mix * K.diffuse * K.substitute

end RoundKey

/-- The first `n` rounds, one after the other. -/
noncomputable def modelRounds (key : Nat → RoundKey) : Nat → Equiv.Perm (Fin 32 → UInt8)
  | 0 => 1
  | n + 1 => (key n).round * modelRounds key n

/-! ## The key of a round seed -/

/-- A byte of `pre_substitute`. -/
def bytePerm (perm : Table 256) (mask : UInt8) : Equiv.Perm UInt8 where
  toFun x := UInt8.ofNat (perm.get ⟨(x + mask).toNat, (x + mask).toNat_lt⟩).val
  invFun y := UInt8.ofNat ((inversePermutation perm).get ⟨y.toNat, y.toNat_lt⟩) - mask
  left_inv x := by
    have h := congrFun (congrArg blockVec
      (unsubstitute_substitute perm (Vector.replicate 32 mask) (Vector.replicate 32 x))) 0
    simpa [substitute, unsubstitute, get_eq] using h
  right_inv y := by
    have h := congrFun (congrArg blockVec
      (substitute_unsubstitute perm (Vector.replicate 32 mask) (Vector.replicate 32 y))) 0
    simpa [substitute, unsubstitute, get_eq] using h

/-- An array of an odd determinant, with its inverse. -/
noncomputable def unitOfOdd (m : Words) (h : Odd64 (matrixDet m)) : (Matrix (Fin 2) (Fin 2) UInt64)ˣ where
  val := toMatrix m
  inv := toMatrix (matrixInv m)
  val_inv := toMatrix_mul_inv h
  inv_val := toMatrix_inv_mul h

noncomputable def roundKey (E : Env) (p : Hash → Table 256) (q : Hash → Table 32) (rseed : Hash) :
    RoundKey where
  substitution i := bytePerm (p rseed) ((hkdfExpandLike E rseed.toList (ascii "mask") 32).get i)
  offset := blockVec (diffuseBytes E (Vector.replicate 32 0) rseed.toList)
  left := unitOfOdd (leftMatrix E rseed.toList) (leftMatrix_odd E _)
  right := unitOfOdd (rightMatrix E rseed.toList) (rightMatrix_odd E _)
  position := (q rseed).toPerm

variable {E : Env}

/-! ## Diffusion -/

section
variable (mask : Arr 64) (s : Block)

theorem foldl_sumUp (i : Fin 32) : ((List.finRange 31).foldl (sumUp mask) s).get i =
    runUp (fun k : Fin 31 => mask.get (Fin.castAdd 32 k.succ)) (blockVec s) i := by
  have hinv := @foldl_finRange_up _ 31 (sumUp mask) s (fun t state => ∀ i : Fin 32, state.get i =
    if i.val ≤ t then runUp (fun k : Fin 31 => mask.get (Fin.castAdd 32 k.succ)) (blockVec s) i
    else s.get i) ?_ ?_
  · rw [hinv i, if_pos (by omega)]
  · intro i
    by_cases hi : i.val ≤ 0
    · rw [if_pos hi, show i = 0 from Fin.ext (by omega)]
      rfl
    · rw [if_neg hi]
  · intro k t ht i
    unfold sumUp
    by_cases hi : i = k.succ
    · subst hi
      rw [if_pos (by rw [Fin.val_succ]), runUp_succ, get_eq, Vector.getElem_set_self]
      show t.get k.succ + t.get k.castSucc + mask.get (Fin.castAdd 32 k.succ) = _
      rw [ht k.succ, ht k.castSucc, if_neg (by simp), if_pos (by simp)]
      rfl
    · have hne : k.succ.val ≠ i.val := fun h => hi (Fin.ext h.symm)
      rw [get_eq, Vector.getElem_set_ne _ _ hne, ← get_eq, ht i]
      rw [Fin.val_succ] at hne
      by_cases hk : i.val ≤ k.val
      · rw [if_pos hk, if_pos (by omega)]
      · rw [if_neg hk, if_neg (by omega)]

theorem foldl_sumDown (i : Fin 32) : ((List.finRange 31).reverse.foldl (sumDown mask) s).get i =
    runDown (fun k : Fin 31 => mask.get (Fin.natAdd 32 k.castSucc)) (blockVec s) i := by
  have hinv := @foldl_finRange_down _ 31 (sumDown mask) s (fun t state => ∀ i : Fin 32, state.get i =
    if t ≤ i.val then runDown (fun k : Fin 31 => mask.get (Fin.natAdd 32 k.castSucc)) (blockVec s) i
    else s.get i) ?_ ?_
  · rw [hinv i, if_pos (Nat.zero_le _)]
  · intro i
    by_cases hi : 31 ≤ i.val
    · rw [if_pos hi, show i = Fin.last 31 from Fin.ext (by simp; omega), runDown_last]
      rfl
    · rw [if_neg hi]
  · intro k t ht i
    unfold sumDown
    by_cases hi : i = k.castSucc
    · subst hi
      rw [if_pos (by rw [Fin.val_castSucc]), runDown_castSucc, get_eq, Vector.getElem_set_self]
      show t.get k.castSucc + t.get k.succ + mask.get (Fin.natAdd 32 k.castSucc) = _
      rw [ht k.succ, ht k.castSucc, if_neg (by simp), if_pos (by simp)]
      rfl
    · have hne : k.castSucc.val ≠ i.val := fun h => hi (Fin.ext h.symm)
      rw [get_eq, Vector.getElem_set_ne _ _ hne, ← get_eq, ht i]
      rw [Fin.val_castSucc] at hne
      by_cases hk : k.val + 1 ≤ i.val
      · rw [if_pos hk, if_pos (by omega)]
      · rw [if_neg hk, if_neg (by omega)]

theorem blockVec_sums : blockVec ((List.finRange 31).reverse.foldl (sumDown mask)
      ((List.finRange 31).foldl (sumUp mask) s)) =
    runDown (fun k : Fin 31 => mask.get (Fin.natAdd 32 k.castSucc)) (runUp (fun k : Fin 31 => mask.get (Fin.castAdd 32 k.succ))
      (blockVec s)) := by
  have hup : blockVec ((List.finRange 31).foldl (sumUp mask) s) =
      runUp (fun k : Fin 31 => mask.get (Fin.castAdd 32 k.succ)) (blockVec s) := by
    funext i
    rw [blockVec_apply, foldl_sumUp]
  funext i
  rw [← hup, blockVec_apply, foldl_sumDown]

end

/-- **The diffusion is affine**: it multiplies by the matrix of the entries `32 - max i k`, and adds
what it makes of zeros. -/
theorem blockVec_diffuseBytes (s : Block) (seed : Bytes) :
    blockVec (diffuseBytes E s seed) = (reach UInt8 32).mulVec (blockVec s) +
      blockVec (diffuseBytes E (Vector.replicate 32 0) seed) := by
  have hzero : blockVec (Vector.replicate 32 0) = 0 := blockVec_replicate 0
  unfold diffuseBytes
  rw [blockVec_sums, blockVec_sums, runDown_runUp, hzero]

/-- What two diffused blocks differ in is decided by what the blocks differ in. -/
theorem blockVec_diffuseBytes_sub (s t : Block) (seed : Bytes) :
    blockVec (diffuseBytes E t seed) - blockVec (diffuseBytes E s seed) =
      (reach UInt8 32).mulVec (blockVec t - blockVec s) := by
  rw [blockVec_diffuseBytes, blockVec_diffuseBytes s, add_sub_add_right_eq_sub, Matrix.mulVec_sub]

theorem blockVec_set (s : Block) (j : Fin 32) (x : UInt8) :
    blockVec (s.set j x j.isLt) - blockVec s = Pi.single j (x - s.get j) := by
  funext i
  by_cases hi : i = j
  · subst hi
    simp [get_eq]
  · have hne : j.val ≠ i.val := fun h => hi (Fin.ext h.symm)
    rw [Pi.single_eq_of_ne hi, Pi.sub_apply, blockVec_apply, blockVec_apply, get_eq,
      Vector.getElem_set_ne _ _ hne]
    exact sub_self _

/-- A product of bytes vanishes where 256 divides that of the numbers. -/
theorem natCast_mul_eq_zero (n : Nat) (x : UInt8) : (n : UInt8) * x = 0 ↔ 256 ∣ n * x.toNat := by
  have hcast : (n : UInt8).toNat = n % 256 := UInt8.toNat_ofNat'
  rw [← UInt8.toNat_inj, UInt8.toNat_mul, hcast, Nat.mod_mul_mod, Nat.dvd_iff_mod_eq_zero]
  rfl

/-- **How far the diffusion carries a change.** Where byte `j` of a block changes by `δ`, byte `i` of
the diffused block changes by `(32 - max i j) * δ`, whatever the seed. So it stays the same iff 256
divides that, and every byte changes unless 8 divides `δ`. -/
theorem diffusion_reaches (E : Env) (seed : Bytes) (s : Block) (j : Fin 32) (x : UInt8) (i : Fin 32) :
    (diffuseBytes E (s.set j x j.isLt) seed).get i - (diffuseBytes E s seed).get i =
        ((32 - max i.val j.val : Nat) : UInt8) * (x - s.get j) ∧
      ((diffuseBytes E (s.set j x j.isLt) seed).get i = (diffuseBytes E s seed).get i ↔
        256 ∣ (32 - max i.val j.val) * (x - s.get j).toNat) ∧
      (¬ 8 ∣ (x - s.get j).toNat →
        (diffuseBytes E (s.set j x j.isLt) seed).get i ≠ (diffuseBytes E s seed).get i) := by
  have hdiff : (diffuseBytes E (s.set j x j.isLt) seed).get i - (diffuseBytes E s seed).get i =
      ((32 - max i.val j.val : Nat) : UInt8) * (x - s.get j) := by
    have h := congrFun (@blockVec_diffuseBytes_sub E s (s.set j x j.isLt) seed) i
    rw [blockVec_set, reach_mulVec_single, Pi.sub_apply, blockVec_apply, blockVec_apply] at h
    exact h
  have hsame : (diffuseBytes E (s.set j x j.isLt) seed).get i = (diffuseBytes E s seed).get i ↔
      256 ∣ (32 - max i.val j.val) * (x - s.get j).toNat := by
    rw [← natCast_mul_eq_zero, ← hdiff, sub_eq_zero]
  refine ⟨hdiff, hsame, fun hδ h => hδ ?_⟩
  have hdvd := hsame.mp h
  have hi := i.isLt
  have hj := j.isLt
  generalize (x - s.get j).toNat = d at hdvd
  generalize hm : 32 - max i.val j.val = m at hdvd
  have hpos : 1 ≤ m := by omega
  have hle : m ≤ 32 := by omega
  clear hm h hsame hdiff hδ
  interval_cases m <;> omega

/-! ## Rounds -/

section
variable (p : Hash → Table 256) (q : Hash → Table 32) (rseed : Hash) (b : Block)

theorem blockVec_substitute :
    blockVec (substitute (p rseed) (hkdfExpandLike E rseed.toList (ascii "mask") 32) b) =
      (roundKey E p q rseed).substitute (blockVec b) := by
  funext i
  rw [blockVec_apply, get_eq, getElem_substitute, RoundKey.substitute_apply]
  rfl

theorem blockVec_mixBlock :
    blockVec (mixBlock E rseed.toList b) = (roundKey E p q rseed).mix (blockVec b) := by
  have hmatrix : blockMatrix (mixBlock E rseed.toList b) =
      (roundKey E p q rseed).multiply (blockMatrix b) := by
    show toMatrix (wordsFromBlock (blockFromWords _)) = _
    rw [wordsFromBlock_blockFromWords, toMatrix_mul, toMatrix_mul]
    rfl
  show _ = blockVec (blockMatrix.symm ((roundKey E p q rseed).multiply
    (blockMatrix (blockVec.symm (blockVec b)))))
  rw [Equiv.symm_apply_apply, ← hmatrix, Equiv.symm_apply_apply]

theorem blockVec_position : blockVec (applyPositionPermutation b (q rseed)) =
    (roundKey E p q rseed).permute (blockVec b) := by
  funext i
  rw [blockVec_apply, get_eq, applyPositionPermutation, RoundKey.permute_apply]
  refine (Table.getElem_gather (q rseed) b i).trans ?_
  rfl

/-- A round of the engine over the tables is one of the model. -/
theorem blockVec_encryptRound (seed : Bytes) (r : Nat) :
    blockVec ((tableLayers E p q).encryptRound E seed b r) =
      (roundKey E p q (roundSeed E seed r)).round (blockVec b) := by
  unfold Layers.encryptRound RoundKey.round
  dsimp only [tableLayers]
  rw [blockVec_position p q, blockVec_mixBlock p q, blockVec_diffuseBytes,
    blockVec_substitute p q]
  rfl

theorem blockVec_encryptBlock (seed : Bytes) : blockVec ((tableLayers E p q).encryptBlock E seed b) =
    modelRounds (fun r => roundKey E p q (roundSeed E seed r)) rounds (blockVec b) := by
  unfold Layers.encryptBlock
  generalize rounds = n
  induction n with
  | zero => rfl
  | succ n ih =>
    rw [List.range_succ, List.foldl_append, List.foldl_cons, List.foldl_nil, blockVec_encryptRound, ih]
    rfl

end

/-- **The rounds are those of the mathematical model.** With enough fuel for the rejection loops, a
block is encrypted by ten rounds `T = P ∘ L ∘ D ∘ S` of the keys of its round seeds, and decrypted by
their inverse. -/
theorem oneBlock_model (E : Env) (hT : E.ShufflesTerminate) : ∃ n, ∀ m, n ≤ m → ∃ p q,
    Derives (E.withFuel m) p q ∧ ∀ (seed : Bytes) (s : Block),
      let T := modelRounds (fun r => roundKey (E.withFuel m) p q (roundSeed (E.withFuel m) seed r)) rounds
      encryptOneBlock (E.withFuel m) s seed = .ok (blockVec.symm (T (blockVec s))) ∧
        decryptOneBlock (E.withFuel m) s seed = .ok (blockVec.symm (T.symm (blockVec s))) := by
  obtain ⟨n, hn⟩ := hT.fuel
  refine ⟨n, fun m hm => ?_⟩
  choose p hp using fun seed => (hn m hm seed).1
  choose q hq using fun seed => (hn m hm seed).2
  refine ⟨p, q, ⟨hp, hq⟩, fun seed s => ?_⟩
  have hencrypt (s : Block) := (encryptOneBlock_eq_layers ⟨hp, hq⟩ seed s).trans
    (congrArg Outcome.ok (blockVec.symm_apply_apply _).symm)
  simp only [blockVec_encryptBlock] at hencrypt
  refine ⟨hencrypt s, (encryptOneBlock_iff _ seed _ s).mp ?_⟩
  rw [hencrypt, Equiv.apply_symm_apply, Equiv.apply_symm_apply, Equiv.symm_apply_apply]

theorem oneBlock_model_zero : ∃ n p q, Derives (Env.zero.withFuel n) p q ∧
    encryptOneBlock (Env.zero.withFuel n) (Vector.replicate 32 7) [1] =
      .ok (blockVec.symm (modelRounds (fun r => roundKey (Env.zero.withFuel n) p q
        (roundSeed (Env.zero.withFuel n) [1] r)) rounds fun _ => 7)) := by
  obtain ⟨n, hn⟩ := oneBlock_model Env.zero Env.zero_shufflesTerminate
  obtain ⟨p, q, hderives, hblocks⟩ := hn n le_rfl
  refine ⟨n, p, q, hderives, (hblocks [1] (Vector.replicate 32 7)).1.trans ?_⟩
  rw [blockVec_replicate]

end Krcm
