import Krcm.Layers
import Krcm.Base.Collect
import Krcm.Py.Matrix

/-!
# The block transformations of the Python reference

The layers of `core.py` with their exceptions, and the ten rounds over them.
`_encrypt_one_block` and `_encrypt_one_block_v3` differ in the substitution and
the position layer only, so both are `encryptOneBlockWith` of theirs; on blocks
of 32 bytes a layer of the reference is the layer of `block.rs`, and the rounds
are the engine of `Layers` (`encryptOneBlockWith_agrees`).
-/

namespace Krcm.Py

open Base Outcome

section model
variable (E : Env)

def preSubstitute (block seed : Bytes) : PyRun Bytes := do
  let perm ← permutationFromSeed E seed
  let mask ← hkdfExpandLike E seed (ascii "mask") blockBytes
  writeLoop (fun i (byte : UInt8) => do
    let m ← getItem mask i
    let v ← getItem perm (lowByte (byte.toNat + m.toNat)).toNat
    let x ← byteOf v
    .ok (i, x)) 0 (List.replicate blockBytes 0) block

/-- `_inverse_permutation`, always of 256 entries. -/
def inversePermutation (perm : List Nat) : PyRun (List Nat) :=
  writeLoop (fun i v => .ok (v, i)) 0 (List.replicate 256 0) perm

def postUnsubstitute (block seed : Bytes) : PyRun Bytes := do
  let perm ← permutationFromSeed E seed
  let inv ← inversePermutation perm
  let mask ← hkdfExpandLike E seed (ascii "mask") blockBytes
  writeLoop (fun i (byte : UInt8) => do
    let v ← getItem inv byte.toNat
    let m ← getItem mask i
    let x ← byteOf (lowByte (v - m.toNat))
    .ok (i, x)) 0 (List.replicate blockBytes 0) block

/-- `state[i] = (state[i] + state[j] + mask[k]) & 0xFF`. -/
def addInto (mask state : Bytes) (i j k : Nat) : PyRun Bytes := do
  let x ← getItem state i
  let y ← getItem state j
  let m ← getItem mask k
  let z ← byteOf (lowByte (x.toNat + y.toNat + m.toNat))
  setItem state i z

/-- `state[i] = (state[i] - state[j] - mask[k]) & 0xFF`. -/
def subInto (mask state : Bytes) (i j k : Nat) : PyRun Bytes := do
  let x ← getItem state i
  let y ← getItem state j
  let m ← getItem mask k
  let z ← byteOf (lowByte (x.toNat - y.toNat - m.toNat))
  setItem state i z

/-- `range(1, BLOCK_BYTES)`. -/
def upper : List Nat := List.range' 1 (blockBytes - 1)

/-- `range(0, BLOCK_BYTES - 1)`. -/
def lower : List Nat := List.range (blockBytes - 1)

def diffuseBytes (block seed : Bytes) : PyRun Bytes := do
  rejectIf (block.length ≠ blockBytes) .valueError
  let mask ← hkdfExpandLike E seed (ascii "diffuse") (blockBytes * 2 : Nat)
  let state ← upper.foldlM (fun state i => addInto mask state i (i - 1) i) block
  lower.reverse.foldlM (fun state i => addInto mask state i (i + 1) (blockBytes + i)) state

def undiffuseBytes (block seed : Bytes) : PyRun Bytes := do
  rejectIf (block.length ≠ blockBytes) .valueError
  let mask ← hkdfExpandLike E seed (ascii "diffuse") (blockBytes * 2 : Nat)
  let state ← lower.foldlM (fun state i => subInto mask state i (i + 1) (blockBytes + i)) block
  upper.reverse.foldlM (fun state i => subInto mask state i (i - 1) i) state

def applyPositionPermutation (block : Bytes) (perm : List Nat) : PyRun Bytes :=
  collect ((List.range perm.length).map fun i => do
    let source ← getItem perm i
    getItem block source)

def invertPositionPermutation (block : Bytes) (perm : List Nat) : PyRun Bytes :=
  writeLoop (fun i source => do
    let x ← getItem block i
    .ok (source, x)) 0 (List.replicate perm.length 0) perm

/-- `round_seed`. -/
def roundSeed (seed : Bytes) (roundIndex : Nat) : PyRun Bytes := do
  let roundBytes ← toBytes roundIndex 2
  .ok (E.hmacSha256 seed (ascii "round" ++ roundBytes)).toList

def leftMatrix (rseed : Bytes) : PyRun (List Int) :=
  matrixFromSeed E (E.hmacSha256 rseed (ascii "left")).toList

def rightMatrix (rseed : Bytes) : PyRun (List Int) :=
  matrixFromSeed E (E.hmacSha256 rseed (ascii "right")).toList

/-- The body of the loops of `_encrypt_one_block` and `_encrypt_one_block_v3`, over their
substitution and position layers. -/
def encryptRoundWith (substitute permute : (state seed : Bytes) → PyRun Bytes) (seed state : Bytes)
    (roundIndex : Nat) : PyRun Bytes := do
  let rseed ← roundSeed E seed roundIndex
  let state ← substitute state rseed
  let state ← diffuseBytes E state rseed
  let words ← wordsFromBlock state
  let left ← leftMatrix E rseed
  let right ← rightMatrix E rseed
  let product ← matrixMul words right
  let mixed ← matrixMul left product
  let state ← blockFromWords mixed
  permute state rseed

def decryptRoundWith (unpermute unsubstitute : (state seed : Bytes) → PyRun Bytes)
    (seed state : Bytes) (roundIndex : Nat) : PyRun Bytes := do
  let rseed ← roundSeed E seed roundIndex
  let state ← unpermute state rseed
  let words ← wordsFromBlock state
  let left ← leftMatrix E rseed
  let right ← rightMatrix E rseed
  let leftInv ← matrixInv left
  let rightInv ← matrixInv right
  let product ← matrixMul words rightInv
  let unmixed ← matrixMul leftInv product
  let state ← blockFromWords unmixed
  let state ← undiffuseBytes E state rseed
  unsubstitute state rseed

def encryptOneBlockWith (substitute permute : (state seed : Bytes) → PyRun Bytes)
    (block seed : Bytes) : PyRun Bytes :=
  (List.range rounds).foldlM (encryptRoundWith E substitute permute seed) block

def decryptOneBlockWith (unpermute unsubstitute : (state seed : Bytes) → PyRun Bytes)
    (block seed : Bytes) : PyRun Bytes :=
  (List.range rounds).reverse.foldlM (decryptRoundWith E unpermute unsubstitute seed) block

/-- The position layer of `_encrypt_one_block`. -/
def permutePositions (state seed : Bytes) : PyRun Bytes := do
  let perm ← smallPermutation E seed blockBytes
  applyPositionPermutation state perm

def unpermutePositions (state seed : Bytes) : PyRun Bytes := do
  let perm ← smallPermutation E seed blockBytes
  invertPositionPermutation state perm

def encryptOneBlock (block seed : Bytes) : PyRun Bytes :=
  encryptOneBlockWith E (preSubstitute E) (permutePositions E) block seed

def decryptOneBlock (block seed : Bytes) : PyRun Bytes :=
  decryptOneBlockWith E (unpermutePositions E) (postUnsubstitute E) block seed

end model

variable {E : Env}

/-! ## Diffusion -/

theorem addInto_agrees {n : Nat} (mask : Arr n) (state : Block) {i j k : Nat} (hi : i < 32)
    (hj : j < 32) (hk : k < n) : addInto mask.toList state.toList i j k =
      .ok (state.set i (state[i] + state[j] + mask[k])).toList := by
  unfold addInto
  rw [getItem_toList _ hi, ok_bind, getItem_toList _ hj, ok_bind, getItem_toList _ hk, ok_bind,
    byteOf_lowByte, ok_bind, setItem_toList _ hi]
  simp only [UInt8.ofInt_add, ofInt_toNat]

theorem subInto_agrees {n : Nat} (mask : Arr n) (state : Block) {i j k : Nat} (hi : i < 32)
    (hj : j < 32) (hk : k < n) : subInto mask.toList state.toList i j k =
      .ok (state.set i (state[i] - state[j] - mask[k])).toList := by
  unfold subInto
  rw [getItem_toList _ hi, ok_bind, getItem_toList _ hj, ok_bind, getItem_toList _ hk, ok_bind,
    byteOf_lowByte, ok_bind, setItem_toList _ hi]
  simp only [ofInt_sub, ofInt_toNat]

/-- A loop of steps that cannot fail, over images, is the image of the loop. -/
theorem foldlM_agrees {ι κ : Type} {f : Bytes → κ → PyRun Bytes} {g : Block → ι → Block} {e : ι → κ}
    (h : ∀ i s, f s.toList (e i) = .ok (g s i).toList) :
    ∀ (l : List ι) (s : Block), (l.map e).foldlM f s.toList = .ok (l.foldl g s).toList
  | [], _ => rfl
  | i :: l, s => by
    rw [List.map_cons, List.foldlM_cons, h, ok_bind, foldlM_agrees h l]
    rfl

theorem lower_eq : lower = (List.finRange 31).map fun i => i.val := by
  decide

theorem upper_eq : upper = (List.finRange 31).map fun i => i.val + 1 := by
  decide

theorem diffuseMask (seed : Bytes) : hkdfExpandLike E seed (ascii "diffuse") (blockBytes * 2 : Nat) =
    .ok (Krcm.hkdfExpandLike E seed (ascii "diffuse") 64).toList :=
  @hkdfExpandLike_agrees E seed (ascii "diffuse") 64 (by decide)

theorem diffuseBytes_agrees (block : Block) (seed : Bytes) :
    diffuseBytes E block.toList seed = .ok (Krcm.diffuseBytes E block seed).toList := by
  unfold diffuseBytes Krcm.diffuseBytes
  rw [rejectIf_false (by simp), ok_bind, diffuseMask, ok_bind, upper_eq, lower_eq, ← List.map_reverse]
  generalize Krcm.hkdfExpandLike E seed (ascii "diffuse") 64 = mask
  have hup (k : Fin 31) (s : Block) : addInto mask.toList s.toList (k.val + 1) (k.val + 1 - 1)
      (k.val + 1) = .ok (sumUp mask s k).toList :=
    addInto_agrees mask s (by omega) (by omega) (by omega)
  have hdown (k : Fin 31) (s : Block) : addInto mask.toList s.toList k.val (k.val + 1)
      (blockBytes + k.val) = .ok (sumDown mask s k).toList :=
    addInto_agrees mask s (by omega) (by omega) (by simp only [blockBytes]; omega)
  rw [foldlM_agrees hup, ok_bind, foldlM_agrees hdown]

theorem undiffuseBytes_agrees (block : Block) (seed : Bytes) :
    undiffuseBytes E block.toList seed = .ok (Krcm.undiffuseBytes E block seed).toList := by
  unfold undiffuseBytes Krcm.undiffuseBytes
  rw [rejectIf_false (by simp), ok_bind, diffuseMask, ok_bind, upper_eq, lower_eq, ← List.map_reverse]
  generalize Krcm.hkdfExpandLike E seed (ascii "diffuse") 64 = mask
  have hup (k : Fin 31) (s : Block) : subInto mask.toList s.toList (k.val + 1) (k.val + 1 - 1)
      (k.val + 1) = .ok (unsumUp mask s k).toList :=
    subInto_agrees mask s (by omega) (by omega) (by omega)
  have hdown (k : Fin 31) (s : Block) : subInto mask.toList s.toList k.val (k.val + 1)
      (blockBytes + k.val) = .ok (unsumDown mask s k).toList :=
    subInto_agrees mask s (by omega) (by omega) (by simp only [blockBytes]; omega)
  rw [foldlM_agrees hdown, ok_bind, foldlM_agrees hup]

/-! ## Substitution and positions -/

theorem replicate_eq_toList (n : Nat) {α : Type} (a : α) :
    List.replicate n a = (Vector.replicate n a).toList := Vector.toList_replicate.symm

theorem lowByte_add (x y : UInt8) : (lowByte ((x.toNat : Int) + y.toNat)).toNat = (x + y).toNat := by
  rw [UInt8.toNat_add]
  unfold lowByte
  omega

theorem byteOf_fin (v : Fin 256) : byteOf (v.val : Int) = .ok (UInt8.ofNat v.val) := by
  have hv := v.isLt
  unfold byteOf
  rw [if_pos (by omega), Int.toNat_natCast]

theorem byteMask (seed : Bytes) : hkdfExpandLike E seed (ascii "mask") (blockBytes : Nat) =
    .ok (Krcm.hkdfExpandLike E seed (ascii "mask") 32).toList :=
  @hkdfExpandLike_agrees E seed (ascii "mask") 32 (by decide)

theorem preSubstitute_agrees {seed : Bytes} {p : Table 256}
    (hp : permutationFromSeed E seed = .ok (values p)) (block : Block) :
    preSubstitute E block.toList seed =
      .ok (substitute p (Krcm.hkdfExpandLike E seed (ascii "mask") 32) block).toList := by
  unfold preSubstitute
  rw [hp, ok_bind, byteMask, ok_bind, replicate_eq_toList]
  refine writeLoop_fill _ (fun i hi => ?_) _
  rw [getItem_toList _ hi, ok_bind, lowByte_add,
    show getItem (values p) _ = _ from getItem_values p ⟨_, UInt8.toNat_lt _⟩, ok_bind, byteOf_fin,
    ok_bind, getElem_substitute]

theorem inversePermutation_agrees (p : Table 256) :
    inversePermutation (values p) = .ok (Krcm.inversePermutation p).toList := by
  unfold inversePermutation Krcm.inversePermutation
  rw [replicate_eq_toList, values_eq_toList]
  refine writeLoop_scatter p (fun i => i.val) (fun i hi => ?_) _
  rw [Vector.getElem_map]
  rfl

theorem postUnsubstitute_agrees {seed : Bytes} {p : Table 256}
    (hp : permutationFromSeed E seed = .ok (values p)) (block : Block) :
    postUnsubstitute E block.toList seed =
      .ok (unsubstitute p (Krcm.hkdfExpandLike E seed (ascii "mask") 32) block).toList := by
  unfold postUnsubstitute
  rw [hp, ok_bind, inversePermutation_agrees, ok_bind, byteMask, ok_bind, replicate_eq_toList]
  refine writeLoop_fill _ (fun i hi => ?_) _
  rw [getItem_toList _ (UInt8.toNat_lt _), ok_bind, getItem_toList _ hi, ok_bind, byteOf_lowByte,
    ok_bind, ofInt_sub, ofInt_cast, ofInt_toNat, getElem_unsubstitute]
  rfl

theorem applyPositionPermutation_agrees (block : Block) (q : Table 32) :
    applyPositionPermutation block.toList (values q) =
      .ok (Krcm.applyPositionPermutation block q).toList := by
  unfold applyPositionPermutation Krcm.applyPositionPermutation
  refine collect_eq_ok.mpr (List.ext_getElem (by simp) fun i h1 h2 => ?_)
  have hi : i < 32 := by simpa using h2
  have hsource := getItem_values q ⟨i, hi⟩
  dsimp only at hsource
  simp only [List.getElem_map, List.getElem_range, hsource, ok_bind, Vector.getElem_toList]
  rw [getItem_toList _ (q.get ⟨i, hi⟩).isLt]
  exact congrArg Outcome.ok (q.getElem_gather block ⟨i, hi⟩).symm

theorem invertPositionPermutation_agrees (block : Block) (q : Table 32) :
    invertPositionPermutation block.toList (values q) =
      .ok (Krcm.invertPositionPermutation block q).toList := by
  unfold invertPositionPermutation Krcm.invertPositionPermutation
  rw [length_values, replicate_eq_toList, values_eq_toList]
  refine writeLoop_scatter q (fun i => block[i]) (fun i hi => ?_) _
  rw [getItem_toList _ hi, ok_bind, Vector.getElem_map]
  rfl

/-! ## Rounds -/

theorem roundSeed_agrees (seed : Bytes) {r : Nat} (hr : r < rounds) :
    roundSeed E seed r = .ok (Krcm.roundSeed E seed r).toList := by
  unfold roundSeed
  rw [toBytes_ok (by simp only [rounds] at hr; omega), ok_bind]
  rfl

theorem leftMatrix_agrees (rseed : Bytes) :
    leftMatrix E rseed = .ok (ints (Krcm.leftMatrix E rseed)) := matrixFromSeed_agrees E _

theorem rightMatrix_agrees (rseed : Bytes) :
    rightMatrix E rseed = .ok (ints (Krcm.rightMatrix E rseed)) := matrixFromSeed_agrees E _

theorem rounds_eq : List.range rounds = (List.finRange rounds).map fun r => r.val := by
  decide

/-- What layers of the reference have to do to be the layers `L` on blocks. -/
structure Computes (L : Layers)
    (substitute unsubstitute permute unpermute : (state seed : Bytes) → PyRun Bytes) : Prop where
  substitute : ∀ (seed : Hash) (s : Block),
    substitute s.toList seed.toList = .ok (L.substitute seed s).toList
  unsubstitute : ∀ (seed : Hash) (s : Block),
    unsubstitute s.toList seed.toList = .ok (L.unsubstitute seed s).toList
  permute : ∀ (seed : Hash) (s : Block), permute s.toList seed.toList =
    .ok (Krcm.applyPositionPermutation s (L.position seed)).toList
  unpermute : ∀ (seed : Hash) (s : Block), unpermute s.toList seed.toList =
    .ok (Krcm.invertPositionPermutation s (L.position seed)).toList

section
variable {L : Layers} {substitute unsubstitute permute unpermute : (state seed : Bytes) → PyRun Bytes}
  (h : Computes L substitute unsubstitute permute unpermute)
include h

theorem encryptRoundWith_agrees (seed : Bytes) (s : Block) {r : Nat} (hr : r < rounds) :
    encryptRoundWith E substitute permute seed s.toList r =
      .ok (L.encryptRound E seed s r).toList := by
  simp only [encryptRoundWith, roundSeed_agrees seed hr, ok_bind, h.substitute, diffuseBytes_agrees,
    wordsFromBlock_agrees, leftMatrix_agrees, rightMatrix_agrees, matrixMul_agrees,
    blockFromWords_agrees, h.permute]
  rfl

theorem decryptRoundWith_agrees (seed : Bytes) (s : Block) {r : Nat} (hr : r < rounds) :
    decryptRoundWith E unpermute unsubstitute seed s.toList r =
      .ok (L.decryptRound E seed s r).toList := by
  simp only [decryptRoundWith, roundSeed_agrees seed hr, ok_bind, h.unpermute,
    wordsFromBlock_agrees, leftMatrix_agrees, rightMatrix_agrees,
    matrixInv_agrees (leftMatrix_odd E _), matrixInv_agrees (rightMatrix_odd E _), matrixMul_agrees,
    blockFromWords_agrees, undiffuseBytes_agrees, h.unsubstitute]
  rfl

/-- **The rounds of the reference are the engine over its layers.** -/
theorem encryptOneBlockWith_agrees (seed : Bytes) (s : Block) :
    encryptOneBlockWith E substitute permute s.toList seed = .ok (L.encryptBlock E seed s).toList := by
  unfold encryptOneBlockWith Layers.encryptBlock
  rw [rounds_eq, foldlM_agrees fun r s => encryptRoundWith_agrees h seed s r.isLt, List.foldl_map]

theorem decryptOneBlockWith_agrees (seed : Bytes) (s : Block) :
    decryptOneBlockWith E unpermute unsubstitute s.toList seed =
      .ok (L.decryptBlock E seed s).toList := by
  unfold decryptOneBlockWith Layers.decryptBlock
  rw [rounds_eq, ← List.map_reverse,
    foldlM_agrees fun r s => decryptRoundWith_agrees h seed s r.isLt, List.foldl_map]

end

/-- The version 4 layers of the reference are those over the shared tables. -/
theorem computes_tables {p : Hash → Table 256} {q : Hash → Table 32}
    (hp : ∀ seed : Hash, permutationFromSeed E seed.toList = .ok (values (p seed)))
    (hq : ∀ seed : Hash, smallPermutation E seed.toList blockBytes = .ok (values (q seed))) :
    Computes (tableLayers E p q) (preSubstitute E) (postUnsubstitute E) (permutePositions E)
      (unpermutePositions E) where
  substitute seed s := preSubstitute_agrees (hp seed) s
  unsubstitute seed s := postUnsubstitute_agrees (hp seed) s
  permute seed s := by
    unfold permutePositions
    rw [hq, ok_bind]
    exact applyPositionPermutation_agrees s (q seed)
  unpermute seed s := by
    unfold unpermutePositions
    rw [hq, ok_bind]
    exact invertPositionPermutation_agrees s (q seed)

end Krcm.Py
