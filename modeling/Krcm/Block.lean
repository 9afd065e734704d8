import Krcm.Matrix
import Krcm.Base.Undo

/-!
# The block transformation

One round is `T = P ∘ L ∘ D ∘ S`: the keyed substitution, the byte diffusion,
the two-sided matrix product and the position permutation. Each layer and its
inverse are the loops of `block.rs`. `encryptRound_iff` says that a round and
its inverse undo each other, `encryptOneBlock_iff` lifts it to ten rounds and
`encryptBlocks_iff` to the chained mode. These are equivalences between runs:
a run whose shuffles do not terminate is on neither side.
-/

namespace Krcm

open Base

variable (E : Env)

/-! ## Words -/

def wordsFromBlock (block : Block) : Words :=
  let l := block.toList
  #v[readU64Be (l.extract 0 8), readU64Be (l.extract 8 16), readU64Be (l.extract 16 24),
    readU64Be (l.extract 24 32)]

def blockFromWords (words : Words) : Block :=
  arrOfList (u64Bytes (words.get 0) ++ u64Bytes (words.get 1) ++ u64Bytes (words.get 2) ++
    u64Bytes (words.get 3)) (by simp only [List.length_append, length_u64Bytes])

theorem wordsFromBlock_blockFromWords (w : Words) : wordsFromBlock (blockFromWords w) = w := by
  have hl : (blockFromWords w).toList =
      u64Bytes w[0] ++ (u64Bytes w[1] ++ (u64Bytes w[2] ++ (u64Bytes w[3] ++ []))) := by
    rw [blockFromWords, toList_arrOfList, List.append_assoc, List.append_assoc, List.append_nil]
    rfl
  have h0 := extract_mid (i := 0) (j := 8) (hl.trans (List.nil_append _).symm) rfl (by simp)
  have h1 := extract_mid (i := 8) (j := 16) hl (by simp) (by simp)
  have h2 := extract_mid (p := u64Bytes w[0] ++ u64Bytes w[1]) (i := 16) (j := 24)
    (hl.trans (List.append_assoc ..).symm) (by simp) (by simp)
  have h3 := extract_mid (p := u64Bytes w[0] ++ u64Bytes w[1] ++ u64Bytes w[2]) (m := u64Bytes w[3])
    (s := []) (i := 24) (j := 32) (hl.trans (by simp)) (by simp) (by simp)
  apply Vector.ext
  intro i hi
  obtain rfl | rfl | rfl | rfl : i = 0 ∨ i = 1 ∨ i = 2 ∨ i = 3 := by omega
  · exact (congrArg readU64Be h0).trans (u64OfBytes_u64Bytes _)
  · exact (congrArg readU64Be h1).trans (u64OfBytes_u64Bytes _)
  · exact (congrArg readU64Be h2).trans (u64OfBytes_u64Bytes _)
  · exact (congrArg readU64Be h3).trans (u64OfBytes_u64Bytes _)

theorem blockFromWords_wordsFromBlock (b : Block) : blockFromWords (wordsFromBlock b) = b := by
  have hw (i : Nat) (hi : i + 8 ≤ 32) :
      u64Bytes (u64OfBytes (b.toList.extract i (i + 8))) = b.toList.extract i (i + 8) :=
    u64Bytes_u64OfBytes (by simp; omega)
  apply Vector.toList_inj.mp
  calc (blockFromWords (wordsFromBlock b)).toList
      = b.toList.extract 0 8 ++ b.toList.extract 8 16 ++ b.toList.extract 16 24 ++
          b.toList.extract 24 32 := by
        rw [← hw 0 (by omega), ← hw 8 (by omega), ← hw 16 (by omega), ← hw 24 (by omega)]
        rw [blockFromWords, toList_arrOfList]
        rfl
    _ = b.toList.extract 0 32 := by
        rw [extract_append_extract (by omega) (by omega), extract_append_extract (by omega) (by omega),
          extract_append_extract (by omega) (by omega)]
    _ = b.toList := by simp [List.extract]

/-! ## Layers -/

/-- `pre_substitute` once its table and mask are derived. -/
def substitute (perm : Table 256) (mask block : Block) : Block :=
  Vector.ofFn fun i =>
    UInt8.ofNat (perm.get ⟨(block[i] + mask[i]).toNat, (block[i] + mask[i]).toNat_lt⟩).val

def preSubstitute (block : Block) (seed : Bytes) : Run Block := do
  let perm ← permutationFromSeed E seed
  let mask := hkdfExpandLike E seed (ascii "mask") 32
  .ok (substitute perm mask block)

/-- `inv[perm[i]] = i`. -/
def inversePermutation {n : Nat} (perm : Table n) : Vector Nat n :=
  perm.scatter (fun i => i.val) (Vector.replicate n 0)

def unsubstitute (perm : Table 256) (mask block : Block) : Block :=
  let inv := inversePermutation perm
  Vector.ofFn fun i => UInt8.ofNat (inv.get ⟨block[i].toNat, block[i].toNat_lt⟩) - mask[i]

def postUnsubstitute (block : Block) (seed : Bytes) : Run Block := do
  let perm ← permutationFromSeed E seed
  let mask := hkdfExpandLike E seed (ascii "mask") 32
  .ok (unsubstitute perm mask block)

/-- `state[k + 1] += state[k] + mask[k + 1]`. -/
def sumUp (mask : Arr 64) (state : Block) (k : Fin 31) : Block :=
  state.set k.succ (state[k.succ] + state[k.castSucc] + mask[k.val + 1])

/-- `state[k] += state[k + 1] + mask[BLOCK_BYTES + k]`. -/
def sumDown (mask : Arr 64) (state : Block) (k : Fin 31) : Block :=
  state.set k.castSucc (state[k.castSucc] + state[k.succ] + mask[32 + k.val])

def unsumUp (mask : Arr 64) (state : Block) (k : Fin 31) : Block :=
  state.set k.succ (state[k.succ] - state[k.castSucc] - mask[k.val + 1])

def unsumDown (mask : Arr 64) (state : Block) (k : Fin 31) : Block :=
  state.set k.castSucc (state[k.castSucc] - state[k.succ] - mask[32 + k.val])

def diffuseBytes (block : Block) (seed : Bytes) : Block :=
  let mask := hkdfExpandLike E seed (ascii "diffuse") 64
  let state := (List.finRange 31).foldl (sumUp mask) block
  (List.finRange 31).reverse.foldl (sumDown mask) state

def undiffuseBytes (block : Block) (seed : Bytes) : Block :=
  let mask := hkdfExpandLike E seed (ascii "diffuse") 64
  let state := (List.finRange 31).foldl (unsumDown mask) block
  (List.finRange 31).reverse.foldl (unsumUp mask) state

def applyPositionPermutation (block : Block) (perm : Table 32) : Block := perm.gather block

def invertPositionPermutation (block : Block) (perm : Table 32) : Block :=
  perm.scatter (fun i => block[i]) (Vector.replicate 32 0)

/-! ### The layers undo each other -/

theorem getElem_substitute (perm : Table 256) (mask block : Block) (i : Nat) (hi : i < 32) :
    (substitute perm mask block)[i] = UInt8.ofNat (perm.get
      ⟨(block[i] + mask[i]).toNat, (block[i] + mask[i]).toNat_lt⟩).val := by
  simp [substitute]

theorem getElem_unsubstitute (perm : Table 256) (mask block : Block) (i : Nat) (hi : i < 32) :
    (unsubstitute perm mask block)[i] =
      UInt8.ofNat ((inversePermutation perm).get ⟨block[i].toNat, block[i].toNat_lt⟩) - mask[i] := by
  simp [unsubstitute]

/-- The inverse table maps an image back to its index. -/
theorem get_inversePermutation {n : Nat} (perm : Table n) (i : Fin n) :
    (inversePermutation perm).get (perm.get i) = i.val := by
  exact perm.getElem_scatter (fun i => i.val) (Vector.replicate n 0) i

theorem toNat_ofNat_fin (x : Fin 256) : (UInt8.ofNat x.val).toNat = x.val := by
  simp

theorem unsubstitute_substitute (perm : Table 256) (mask block : Block) :
    unsubstitute perm mask (substitute perm mask block) = block := by
  apply Vector.ext
  intro i hi
  have hidx : (⟨((substitute perm mask block)[i]).toNat, UInt8.toNat_lt _⟩ : Fin 256) =
      perm.get ⟨(block[i] + mask[i]).toNat, UInt8.toNat_lt _⟩ := by
    apply Fin.ext
    rw [getElem_substitute]
    exact toNat_ofNat_fin _
  rw [getElem_unsubstitute, hidx, get_inversePermutation]
  change UInt8.ofNat (block[i] + mask[i]).toNat - mask[i] = block[i]
  rw [UInt8.ofNat_toNat, UInt8.add_sub_cancel]

theorem substitute_unsubstitute (perm : Table 256) (mask block : Block) :
    substitute perm mask (unsubstitute perm mask block) = block := by
  apply Vector.ext
  intro i hi
  obtain ⟨k, hk⟩ := perm.get_surjective ⟨block[i].toNat, UInt8.toNat_lt _⟩
  have hun : (unsubstitute perm mask block)[i] + mask[i] = UInt8.ofNat k.val := by
    rw [getElem_unsubstitute, ← hk, get_inversePermutation, UInt8.sub_add_cancel]
  have hidx : (⟨((unsubstitute perm mask block)[i] + mask[i]).toNat, UInt8.toNat_lt _⟩ : Fin 256) =
      k := Fin.ext (by rw [hun]; exact toNat_ofNat_fin k)
  rw [getElem_substitute, hidx, hk]
  exact UInt8.ofNat_toNat

/-- Changing one byte by a value read from another byte is undone by the opposite change. -/
theorem set_undo {s : Block} {i j : Fin 32} (hij : i.val ≠ j.val) {f g : UInt8 → UInt8 → UInt8}
    (h : ∀ x y, g (f x y) y = x) :
    (s.set i (f s[i] s[j])).set i
      (g (s.set i (f s[i] s[j]))[i] (s.set i (f s[i] s[j]))[j]) = s := by
  simp [hij, h]

theorem unsumUp_sumUp (mask : Arr 64) (k : Fin 31) (s : Block) :
    unsumUp mask (sumUp mask s k) k = s :=
  set_undo (f := fun x y => x + y + mask[k.val + 1]) (g := fun x y => x - y - mask[k.val + 1])
    (by simp) (by intros; grind)

theorem sumUp_unsumUp (mask : Arr 64) (k : Fin 31) (s : Block) :
    sumUp mask (unsumUp mask s k) k = s :=
  set_undo (f := fun x y => x - y - mask[k.val + 1]) (g := fun x y => x + y + mask[k.val + 1])
    (by simp) (by intros; grind)

theorem unsumDown_sumDown (mask : Arr 64) (k : Fin 31) (s : Block) :
    unsumDown mask (sumDown mask s k) k = s :=
  set_undo (f := fun x y => x + y + mask[32 + k.val]) (g := fun x y => x - y - mask[32 + k.val])
    (by simp) (by intros; grind)

theorem sumDown_unsumDown (mask : Arr 64) (k : Fin 31) (s : Block) :
    sumDown mask (unsumDown mask s k) k = s :=
  set_undo (f := fun x y => x - y - mask[32 + k.val]) (g := fun x y => x + y + mask[32 + k.val])
    (by simp) (by intros; grind)

theorem undiffuseBytes_diffuseBytes (block : Block) (seed : Bytes) :
    undiffuseBytes E (diffuseBytes E block seed) seed = block := by
  unfold undiffuseBytes diffuseBytes
  have hdown := foldl_undo (l := (List.finRange 31).reverse)
    (fun k _ s => unsumDown_sumDown (hkdfExpandLike E seed (ascii "diffuse") 64) k s)
  rw [List.reverse_reverse] at hdown
  simp only [hdown]
  exact foldl_undo (fun k _ s => unsumUp_sumUp _ k s) block

theorem diffuseBytes_undiffuseBytes (block : Block) (seed : Bytes) :
    diffuseBytes E (undiffuseBytes E block seed) seed = block := by
  unfold undiffuseBytes diffuseBytes
  have hup := foldl_undo (l := (List.finRange 31).reverse)
    (fun k _ s => sumUp_unsumUp (hkdfExpandLike E seed (ascii "diffuse") 64) k s)
  rw [List.reverse_reverse] at hup
  simp only [hup]
  exact foldl_undo (fun k _ s => sumDown_unsumDown _ k s) block

theorem invertPositionPermutation_apply (block : Block) (perm : Table 32) :
    invertPositionPermutation (applyPositionPermutation block perm) perm = block :=
  perm.scatter_gather block _

theorem applyPositionPermutation_invert (block : Block) (perm : Table 32) :
    applyPositionPermutation (invertPositionPermutation block perm) perm = block :=
  perm.gather_scatter block _

/-! ## Rounds -/

def roundSeed (seed : Bytes) (roundIndex : Nat) : Hash :=
  E.hmacSha256 seed (ascii "round" ++ beBytes 2 roundIndex)

def leftMatrix (rseed : Bytes) : Words :=
  matrixFromSeed E (E.hmacSha256 rseed (ascii "left")).toList

def rightMatrix (rseed : Bytes) : Words :=
  matrixFromSeed E (E.hmacSha256 rseed (ascii "right")).toList

/-- The body of the loop of `encrypt_one_block`. -/
def encryptRound (seed : Bytes) (state : Block) (roundIndex : Nat) : Run Block := do
  let rseed := (roundSeed E seed roundIndex).toList
  let state ← preSubstitute E state rseed
  let state := diffuseBytes E state rseed
  let words := wordsFromBlock state
  let mixed := matrixMul (leftMatrix E rseed) (matrixMul words (rightMatrix E rseed))
  let state := blockFromWords mixed
  let perm ← smallPermutation E rseed blockBytes
  .ok (applyPositionPermutation state perm)

def encryptOneBlock (block : Block) (seed : Bytes) : Run Block :=
  (List.range rounds).foldlM (encryptRound E seed) block

/-- The body of the loop of `decrypt_one_block`. -/
def decryptRound (seed : Bytes) (state : Block) (roundIndex : Nat) : Run Block := do
  let rseed := (roundSeed E seed roundIndex).toList
  let perm ← smallPermutation E rseed blockBytes
  let state := invertPositionPermutation state perm
  let words := wordsFromBlock state
  let unmixed := matrixMul (matrixInv (leftMatrix E rseed))
    (matrixMul words (matrixInv (rightMatrix E rseed)))
  let state := blockFromWords unmixed
  let state := undiffuseBytes E state rseed
  postUnsubstitute E state rseed

def decryptOneBlock (block : Block) (seed : Bytes) : Run Block :=
  (List.range rounds).reverse.foldlM (decryptRound E seed) block

/-- The matrix layer with its change of representation. -/
def mixBlock (rseed : Bytes) (state : Block) : Block :=
  blockFromWords (matrixMul (leftMatrix E rseed) (matrixMul (wordsFromBlock state) (rightMatrix E rseed)))

def unmixBlock (rseed : Bytes) (state : Block) : Block :=
  blockFromWords (matrixMul (matrixInv (leftMatrix E rseed))
    (matrixMul (wordsFromBlock state) (matrixInv (rightMatrix E rseed))))

theorem leftMatrix_odd (rseed : Bytes) : Odd64 (matrixDet (leftMatrix E rseed)) :=
  matrixFromSeed_odd E _

theorem rightMatrix_odd (rseed : Bytes) : Odd64 (matrixDet (rightMatrix E rseed)) :=
  matrixFromSeed_odd E _

theorem unmixBlock_mixBlock (rseed : Bytes) (s : Block) :
    unmixBlock E rseed (mixBlock E rseed s) = s := by
  rw [unmixBlock, mixBlock, wordsFromBlock_blockFromWords,
    matrixMul_unmix (leftMatrix_odd E _) (rightMatrix_odd E _), blockFromWords_wordsFromBlock]

theorem mixBlock_unmixBlock (rseed : Bytes) (s : Block) :
    mixBlock E rseed (unmixBlock E rseed s) = s := by
  rw [unmixBlock, mixBlock, wordsFromBlock_blockFromWords,
    matrixMul_remix (leftMatrix_odd E _) (rightMatrix_odd E _), blockFromWords_wordsFromBlock]

/-- What a round does, once its two permutations are derived. -/
theorem encryptRound_eq_ok {seed : Bytes} {r : Nat} {s t : Block} :
    encryptRound E seed s r = .ok t ↔ ∃ p q,
      permutationFromSeed E (roundSeed E seed r).toList = .ok p ∧
      smallPermutation E (roundSeed E seed r).toList blockBytes = .ok q ∧
      t = applyPositionPermutation (mixBlock E (roundSeed E seed r).toList
        (diffuseBytes E (substitute p (hkdfExpandLike E (roundSeed E seed r).toList (ascii "mask") 32) s)
          (roundSeed E seed r).toList)) q := by
  simp only [encryptRound, preSubstitute, Outcome.bind_eq_ok, Outcome.ok.injEq]
  constructor
  · rintro ⟨_, ⟨p, hp, rfl⟩, q, hq, rfl⟩
    exact ⟨p, q, hp, hq, rfl⟩
  · rintro ⟨p, q, hp, hq, rfl⟩
    exact ⟨_, ⟨p, hp, rfl⟩, q, hq, rfl⟩

theorem decryptRound_eq_ok {seed : Bytes} {r : Nat} {s t : Block} :
    decryptRound E seed t r = .ok s ↔ ∃ p q,
      permutationFromSeed E (roundSeed E seed r).toList = .ok p ∧
      smallPermutation E (roundSeed E seed r).toList blockBytes = .ok q ∧
      s = unsubstitute p (hkdfExpandLike E (roundSeed E seed r).toList (ascii "mask") 32)
        (undiffuseBytes E (unmixBlock E (roundSeed E seed r).toList
          (invertPositionPermutation t q)) (roundSeed E seed r).toList) := by
  simp only [decryptRound, postUnsubstitute, Outcome.bind_eq_ok, Outcome.ok.injEq]
  constructor
  · rintro ⟨q, hq, p, hp, rfl⟩
    exact ⟨p, q, hp, hq, rfl⟩
  · rintro ⟨p, q, hp, hq, rfl⟩
    exact ⟨q, hq, p, hp, rfl⟩

/-- **A round and its inverse undo each other.** -/
theorem encryptRound_iff (seed : Bytes) (r : Nat) (s t : Block) :
    encryptRound E seed s r = .ok t ↔ decryptRound E seed t r = .ok s := by
  rw [encryptRound_eq_ok, decryptRound_eq_ok]
  constructor
  · rintro ⟨p, q, hp, hq, rfl⟩
    refine ⟨p, q, hp, hq, ?_⟩
    rw [invertPositionPermutation_apply, unmixBlock_mixBlock, undiffuseBytes_diffuseBytes, unsubstitute_substitute]
  · rintro ⟨p, q, hp, hq, rfl⟩
    refine ⟨p, q, hp, hq, ?_⟩
    rw [substitute_unsubstitute, diffuseBytes_undiffuseBytes, mixBlock_unmixBlock,
      applyPositionPermutation_invert]

theorem encryptOneBlock_iff (seed : Bytes) (s t : Block) :
    encryptOneBlock E s seed = .ok t ↔ decryptOneBlock E t seed = .ok s :=
  foldlM_undo (fun r s t => encryptRound_iff E seed r s t) (List.range rounds) s t

end Krcm
