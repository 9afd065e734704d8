import Krcm.Blocks

/-!
# The block engine

Both block transformations of the project are ten rounds of a keyed byte
substitution, the diffusion, the matrix product and a keyed permutation of
positions; they differ in the two keyed layers. `Layers` is a choice of these,
invertible by construction, and the engine over it is a bijection on blocks
and in the chained mode. The engine of `block.rs` is the one over the tables it
derives (`encryptBlocks_eq_layers`).
-/

namespace Krcm

open Base Outcome

/-- A substitution with its inverse, and a table of positions, for each round seed. -/
structure Layers where
  substitute : Hash → Block → Block
  unsubstitute : Hash → Block → Block
  position : Hash → Table 32
  unsubstitute_substitute : ∀ seed s, unsubstitute seed (substitute seed s) = s
  substitute_unsubstitute : ∀ seed s, substitute seed (unsubstitute seed s) = s

namespace Layers

variable (L : Layers) (E : Env)

def encryptRound (seed : Bytes) (s : Block) (r : Nat) : Block :=
  let rseed := roundSeed E seed r
  applyPositionPermutation
    (mixBlock E rseed.toList (diffuseBytes E (L.substitute rseed s) rseed.toList)) (L.position rseed)

def decryptRound (seed : Bytes) (s : Block) (r : Nat) : Block :=
  let rseed := roundSeed E seed r
  L.unsubstitute rseed (undiffuseBytes E
    (unmixBlock E rseed.toList (invertPositionPermutation s (L.position rseed))) rseed.toList)

def encryptBlock (seed : Bytes) (s : Block) : Block :=
  (List.range rounds).foldl (L.encryptRound E seed) s

def decryptBlock (seed : Bytes) (s : Block) : Block :=
  (List.range rounds).reverse.foldl (L.decryptRound E seed) s

/-- A block under the seed of its index and feedback. -/
def encryptStep (encKey : EncKey) (nonce : Bytes) (i : Nat) (feedback : Bytes) (x : Block) : Block :=
  L.encryptBlock E (blockSeed E encKey nonce i feedback).toList x

def decryptStep (encKey : EncKey) (nonce : Bytes) (i : Nat) (feedback : Bytes) (y : Block) : Block :=
  L.decryptBlock E (blockSeed E encKey nonce i feedback).toList y

/-- The chained mode over whole blocks. -/
def encryptBlocks (encKey : EncKey) (nonce : Bytes) (xs : List Block) : List Block :=
  mapChain (L.encryptStep E encKey nonce) (fun _ encrypted => encrypted.toList) 0 nonce xs

def decryptBlocks (encKey : EncKey) (nonce : Bytes) (ys : List Block) : List Block :=
  mapChain (L.decryptStep E encKey nonce) (fun encrypted _ => encrypted.toList) 0 nonce ys

/-! ## Inverses -/

theorem decryptRound_encryptRound (seed : Bytes) (r : Nat) (s : Block) :
    L.decryptRound E seed (L.encryptRound E seed s r) r = s := by
  unfold encryptRound decryptRound
  dsimp only
  rw [invertPositionPermutation_apply, unmixBlock_mixBlock, undiffuseBytes_diffuseBytes,
    L.unsubstitute_substitute]

theorem encryptRound_decryptRound (seed : Bytes) (r : Nat) (s : Block) :
    L.encryptRound E seed (L.decryptRound E seed s r) r = s := by
  unfold encryptRound decryptRound
  dsimp only
  rw [L.substitute_unsubstitute, diffuseBytes_undiffuseBytes, mixBlock_unmixBlock,
    applyPositionPermutation_invert]

theorem decryptBlock_encryptBlock (seed : Bytes) (s : Block) :
    L.decryptBlock E seed (L.encryptBlock E seed s) = s :=
  foldl_undo (fun r _ s => L.decryptRound_encryptRound E seed r s) s

theorem encryptBlock_decryptBlock (seed : Bytes) (s : Block) :
    L.encryptBlock E seed (L.decryptBlock E seed s) = s := by
  have h := @foldl_undo _ _ (L.decryptRound E seed) (L.encryptRound E seed)
    (List.range rounds).reverse (fun r _ s => L.encryptRound_decryptRound E seed r s) s
  rwa [List.reverse_reverse] at h

theorem decryptBlocks_encryptBlocks (encKey : EncKey) (nonce : Bytes) (xs : List Block) :
    L.decryptBlocks E encKey nonce (L.encryptBlocks E encKey nonce xs) = xs :=
  mapChain_undo (f := L.encryptStep E encKey nonce) (g := L.decryptStep E encKey nonce)
    (fun _ encrypted => encrypted.toList) (fun _ _ _ => L.decryptBlock_encryptBlock E _ _) 0 nonce xs

theorem encryptBlocks_decryptBlocks (encKey : EncKey) (nonce : Bytes) (ys : List Block) :
    L.encryptBlocks E encKey nonce (L.decryptBlocks E encKey nonce ys) = ys :=
  mapChain_undo (f := L.decryptStep E encKey nonce) (g := L.encryptStep E encKey nonce)
    (fun encrypted _ => encrypted.toList) (fun _ _ _ => L.encryptBlock_decryptBlock E _ _) 0 nonce ys

@[simp] theorem length_encryptBlocks (encKey : EncKey) (nonce : Bytes) (xs : List Block) :
    (L.encryptBlocks E encKey nonce xs).length = xs.length := length_mapChain _ _ _ _ _

@[simp] theorem length_decryptBlocks (encKey : EncKey) (nonce : Bytes) (ys : List Block) :
    (L.decryptBlocks E encKey nonce ys).length = ys.length := length_mapChain _ _ _ _ _

end Layers

/-! ## The engine of block.rs -/

variable {E : Env}

/-- The layers over derived tables. -/
def tableLayers (E : Env) (p : Hash → Table 256) (q : Hash → Table 32) : Layers where
  substitute seed s := substitute (p seed) (hkdfExpandLike E seed.toList (ascii "mask") 32) s
  unsubstitute seed s := unsubstitute (p seed) (hkdfExpandLike E seed.toList (ascii "mask") 32) s
  position := q
  unsubstitute_substitute _ _ := unsubstitute_substitute _ _ _
  substitute_unsubstitute _ _ := substitute_unsubstitute _ _ _

/-- `p` and `q` are the tables the shuffles of `block.rs` return. -/
structure Derives (E : Env) (p : Hash → Table 256) (q : Hash → Table 32) : Prop where
  bytes : ∀ seed : Hash, permutationFromSeed E seed.toList = .ok (p seed)
  positions : ∀ seed : Hash, smallPermutation E seed.toList blockBytes = .ok (q seed)

section
variable {p : Hash → Table 256} {q : Hash → Table 32} (h : Derives E p q)
include h

theorem encryptOneBlock_eq_layers (seed : Bytes) (s : Block) :
    encryptOneBlock E s seed = .ok ((tableLayers E p q).encryptBlock E seed s) := by
  have hround : encryptRound E seed = fun s r => .ok ((tableLayers E p q).encryptRound E seed s r) := by
    funext s r
    exact (encryptRound_eq_ok E).mpr ⟨_, _, h.bytes _, h.positions _, rfl⟩
  unfold encryptOneBlock
  rw [hround]
  exact List.foldlM_pure

theorem encryptStep_eq_layers (encKey : EncKey) (nonce : Bytes) (i : Nat) (fb : Bytes) (x : Block) :
    encryptStep E encKey nonce i fb x =
      .ok ((tableLayers E p q).encryptStep E encKey nonce i fb x) :=
  encryptOneBlock_eq_layers h _ x

theorem encryptBlocks_eq_layers (encKey : EncKey) (nonce : Bytes) (xs : List Block) :
    encryptBlocks E (joinBlocks xs) encKey nonce =
      .ok (joinBlocks ((tableLayers E p q).encryptBlocks E encKey nonce xs)) := by
  have hchain : chain (encryptStep E encKey nonce) (fun _ encrypted => encrypted.toList) 0 nonce xs =
      .ok ((tableLayers E p q).encryptBlocks E encKey nonce xs) :=
    chain_pure (encryptStep_eq_layers h encKey nonce) 0 nonce xs
  exact encryptBlocks_eq_ok.mpr ⟨xs, _, hchain, rfl, rfl⟩

theorem decryptBlocks_eq_layers (encKey : EncKey) (nonce : Bytes) (ys : List Block) :
    decryptBlocks E (joinBlocks ys) encKey nonce =
      .ok (joinBlocks ((tableLayers E p q).decryptBlocks E encKey nonce ys)) := by
  refine (encryptBlocks_iff _ _).mp ?_
  rw [encryptBlocks_eq_layers h, Layers.encryptBlocks_decryptBlocks]

end

/-! ## Zero hashes -/

/-- A single block, where all rounds are alike. -/
theorem Layers.encryptBlocks_alike {L : Layers} {f : Block → Block}
    (h : ∀ seed s r, L.encryptRound E seed s r = f s) (encKey : EncKey) (nonce : Bytes) (s : Block) :
    L.encryptBlocks E encKey nonce [s] = [(List.range rounds).foldl (fun s _ => f s) s] := by
  have hround (seed : Bytes) : L.encryptRound E seed = fun s _ => f s :=
    funext fun s => funext fun r => h seed s r
  unfold encryptBlocks mapChain encryptStep encryptBlock
  rw [hround]
  rfl

/-- The diffusion under a zero mask. -/
def spread (s : Block) : Block :=
  (List.finRange 31).reverse.foldl (sumDown (Vector.replicate 64 0))
    ((List.finRange 31).foldl (sumUp (Vector.replicate 64 0)) s)

/-- A round of tables that add one. -/
def turn (s : Block) : Block := Vector.ofFn fun i => (spread (s.map (· + 1)))[i + 1]

section
variable (hz : ∀ k d, E.hmacSha256 k d = Vector.replicate 32 0)
include hz

theorem mixBlock_zero (seed : Bytes) (s : Block) : mixBlock E seed s = s := by
  unfold mixBlock leftMatrix rightMatrix
  rw [matrixFromSeed_zero hz, matrixFromSeed_zero hz, matrixMul_one, blockFromWords_wordsFromBlock]

theorem diffuseBytes_zero (seed : Bytes) (s : Block) : diffuseBytes E s seed = spread s := by
  unfold diffuseBytes spread
  rw [hkdfExpandLike_zero hz]

/-- The derived tables add one. -/
theorem Derives.get_zero {p : Hash → Table 256} {q : Hash → Table 32} (h : Derives E p q)
    (hf : 0 < E.fuel) :
    (∀ seed k, (p seed).get k = k + 1) ∧ ∀ seed k, (q seed).get k = k + 1 := by
  constructor
  · intro seed k
    obtain ⟨t, ht, hget⟩ :=
      shuffleFromSeed_zero hz hf (ascii "perm") seed.toList (n := 255) (by decide)
    rw [ok.inj ((h.bytes seed).symm.trans ht), hget]
  · intro seed k
    obtain ⟨t, ht, hget⟩ :=
      shuffleFromSeed_zero hz hf (ascii "small-perm") seed.toList (n := 31) (by decide)
    rw [ok.inj ((h.positions seed).symm.trans ht), hget]

theorem encryptRound_tables_zero {p : Hash → Table 256} {q : Hash → Table 32}
    (hp : ∀ seed k, (p seed).get k = k + 1) (hq : ∀ seed k, (q seed).get k = k + 1)
    (seed : Bytes) (s : Block) (r : Nat) : (tableLayers E p q).encryptRound E seed s r = turn s := by
  have hbyte (x : UInt8) : UInt8.ofNat ((⟨x.toNat, x.toNat_lt⟩ : Fin 256) + 1).val = x + 1 := by
    apply UInt8.toNat_inj.mp
    rw [UInt8.toNat_ofNat', Fin.val_add, UInt8.toNat_add]
    exact Nat.mod_mod _ _
  have hsubstitute (rseed : Hash) : (tableLayers E p q).substitute rseed s = s.map (· + 1) := by
    apply Vector.ext
    intro i hi
    have hmask : s[i] + (hkdfExpandLike E rseed.toList (ascii "mask") 32)[i] = s[i] := by
      rw [hkdfExpandLike_zero hz, Vector.getElem_replicate, UInt8.add_zero]
    refine (getElem_substitute _ _ _ i hi).trans ?_
    simp only [hmask, hp, hbyte, Vector.getElem_map]
  unfold Layers.encryptRound
  dsimp only
  rw [mixBlock_zero hz, diffuseBytes_zero hz, hsubstitute]
  exact Table.gather_of_get (hq _) _

end

end Krcm
