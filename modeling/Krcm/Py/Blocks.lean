import Krcm.V4.Header
import Krcm.Py.Affine

/-!
# The chained mode of the Python reference

`_encrypt_blocks` and `_decrypt_blocks` with their two bodies: the native one
that `krcm-py` exports (version 4 only, where the extension is installed) and
the one in Python. Both are the engine over the shared tables, so installing
the extension changes no result (`native_agrees`).
-/

namespace Krcm.Py

open Base Outcome

section model
variable (E : Env)

/-! ## lib.rs of krcm-py -/

/-- `.map_err(py_error)`. -/
def pyError {α : Type} : Run α → PyRun α
  | .ok a => .ok a
  | .err _ => .err .valueError
  | .panic => .panic
  | .timeout => .timeout

def encKeyFromSlice (encKey : Bytes) : PyRun EncKey := do
  let key ← okOr (tryIntoArray 32 encKey) .valueError
  .ok ⟨key⟩

def nativeEncryptBlocks (padded encKey nonce : Bytes) (version : UInt8) : PyRun Bytes := do
  rejectIf (version ≠ 4) .valueError
  rejectIf (nonce.length ≠ 16) .valueError
  let key ← encKeyFromSlice encKey
  pyError (Krcm.encryptBlocks E padded key nonce)

def nativeDecryptBlocks (ciphertext encKey nonce : Bytes) (version : UInt8) : PyRun Bytes := do
  rejectIf (version ≠ 4) .valueError
  rejectIf (nonce.length ≠ 16) .valueError
  let key ← encKeyFromSlice encKey
  pyError (Krcm.decryptBlocks E ciphertext key nonce)

/-! ## core.py -/

def blockSeed (encKey nonce : Bytes) (blockIndex : Nat) (feedback : Bytes) : PyRun Bytes := do
  let indexBytes ← toBytes blockIndex 8
  let label := ascii "block" ++ nonce ++ indexBytes ++ (E.sha256 feedback).toList
  .ok (E.hmacSha256 encKey label).toList

/-- The body of both loops over the blocks, with the transformation of a block. -/
def blockStep (transform : (block seed : Bytes) → PyRun Bytes) (encKey nonce : Bytes)
    (blockIndex : Nat) (feedback block : Bytes) : PyRun Bytes := do
  let seed ← blockSeed E encKey nonce blockIndex feedback
  transform block seed

/-- `_encrypt_blocks` in Python. -/
def pureEncryptBlocks (padded encKey nonce : Bytes) (version : Int) : PyRun Bytes := do
  rejectIf (padded.length % blockBytes ≠ 0) .valueError
  let encryptBlock := if version = 3 then encryptOneBlockV3 E else encryptOneBlock E
  let ciphertext ← chain (blockStep E encryptBlock encKey nonce) (fun _ encrypted => encrypted) 0
    nonce (chunks blockBytes padded)
  .ok ciphertext.flatten

/-- `_decrypt_blocks` in Python. -/
def pureDecryptBlocks (ciphertext encKey nonce : Bytes) (version : Int) : PyRun Bytes := do
  rejectIf (ciphertext.length % blockBytes ≠ 0) .formatError
  let decryptBlock := if version = 3 then decryptOneBlockV3 E else decryptOneBlock E
  let padded ← chain (blockStep E decryptBlock encKey nonce) (fun encrypted _ => encrypted) 0
    nonce (chunks blockBytes ciphertext)
  .ok padded.flatten

/-- `_encrypt_blocks`; `native` says that the extension is installed. -/
def encryptBlocks (native : Bool) (padded encKey nonce : Bytes) (version : Int) : PyRun Bytes :=
  if native ∧ version = 4 then nativeEncryptBlocks E padded encKey nonce 4
  else pureEncryptBlocks E padded encKey nonce version

def decryptBlocks (native : Bool) (ciphertext encKey nonce : Bytes) (version : Int) : PyRun Bytes :=
  if native ∧ version = 4 then nativeDecryptBlocks E ciphertext encKey nonce 4
  else pureDecryptBlocks E ciphertext encKey nonce version

end model

variable {E : Env}

/-! ## The engine -/

/-- Up to `2 ^ 64` blocks the index fits its field. -/
theorem blockSeed_agrees (encKey : EncKey) (nonce : Bytes) {i : Nat} (hi : i < 2 ^ 64) (fb : Bytes) :
    blockSeed E encKey.key.toList nonce i fb = .ok (Krcm.blockSeed E encKey nonce i fb).toList := by
  unfold blockSeed
  rw [toBytes_ok (by omega), ok_bind]
  rfl

section
variable {L : Layers} {substitute unsubstitute permute unpermute : (state seed : Bytes) → PyRun Bytes}
  (h : Computes L substitute unsubstitute permute unpermute)
include h

theorem encryptStep_agrees (encKey : EncKey) (nonce : Bytes) (i : Nat) (fb : Bytes) (x : Block)
    (hi : i < 2 ^ 64) :
    blockStep E (encryptOneBlockWith E substitute permute) encKey.key.toList nonce i fb x.toList =
      .ok (L.encryptStep E encKey nonce i fb x).toList := by
  unfold blockStep
  rw [blockSeed_agrees encKey nonce hi, ok_bind]
  exact encryptOneBlockWith_agrees h _ x

theorem decryptStep_agrees (encKey : EncKey) (nonce : Bytes) (i : Nat) (fb : Bytes) (x : Block)
    (hi : i < 2 ^ 64) :
    blockStep E (decryptOneBlockWith E unpermute unsubstitute) encKey.key.toList nonce i fb x.toList =
      .ok (L.decryptStep E encKey nonce i fb x).toList := by
  unfold blockStep
  rw [blockSeed_agrees encKey nonce hi, ok_bind]
  exact decryptOneBlockWith_agrees h _ x

theorem encryptChain_agrees (encKey : EncKey) (nonce : Bytes) {xs : List Block}
    (hxs : xs.length ≤ 2 ^ 64) :
    chain (blockStep E (encryptOneBlockWith E substitute permute) encKey.key.toList nonce)
        (fun _ encrypted => encrypted) 0 nonce (chunks blockBytes (joinBlocks xs)) =
      .ok ((L.encryptBlocks E encKey nonce xs).map Vector.toList) := by
  unfold joinBlocks Layers.encryptBlocks
  rw [chunks_flatten_vectors (by decide)]
  exact chain_eq_mapChain (fun i fb x hi => encryptStep_agrees h encKey nonce i fb x hi)
    (fun _ _ => rfl) (by omega)

theorem decryptChain_agrees (encKey : EncKey) (nonce : Bytes) {ys : List Block}
    (hys : ys.length ≤ 2 ^ 64) :
    chain (blockStep E (decryptOneBlockWith E unpermute unsubstitute) encKey.key.toList nonce)
        (fun encrypted _ => encrypted) 0 nonce (chunks blockBytes (joinBlocks ys)) =
      .ok ((L.decryptBlocks E encKey nonce ys).map Vector.toList) := by
  unfold joinBlocks Layers.decryptBlocks
  rw [chunks_flatten_vectors (by decide)]
  exact chain_eq_mapChain (fun i fb y hi => decryptStep_agrees h encKey nonce i fb y hi)
    (fun _ _ => rfl) (by omega)

end

/-! ## The shared tables -/

/-- `p` and `q` are the tables both programs shuffle. -/
structure SharedTables (E : Env) (p : Hash → Table 256) (q : Hash → Table 32) : Prop where
  derives : Derives E p q
  bytes : ∀ seed : Hash, permutationFromSeed E seed.toList = .ok (values (p seed))
  positions : ∀ seed : Hash, smallPermutation E seed.toList blockBytes = .ok (values (q seed))

theorem ShufflesAgree.sharedTables (h : ShufflesAgree E) : ∃ p q, SharedTables E p q := by
  choose p hp using fun seed => (h seed).1
  choose q hq using fun seed => (h seed).2
  exact ⟨p, q, ⟨fun seed => (hp seed).1, fun seed => (hq seed).1⟩, fun seed => (hp seed).2,
    fun seed => (hq seed).2⟩

/-- The layers of a version of the reference. -/
def layersOf (E : Env) (p : Hash → Table 256) (q : Hash → Table 32) (version : Int) : Layers :=
  if version = 3 then affineLayers E else tableLayers E p q

theorem layersOf_three (E : Env) (p : Hash → Table 256) (q : Hash → Table 32) :
    layersOf E p q 3 = affineLayers E := if_pos rfl

theorem layersOf_ne {version : Int} (h : version ≠ 3) (E : Env) (p : Hash → Table 256)
    (q : Hash → Table 32) : layersOf E p q version = tableLayers E p q := if_neg h

theorem exists_joinBlocks {x : Bytes} (h : x.length % 32 = 0) : ∃ xs, x = joinBlocks xs :=
  ⟨_, (joinBlocks_chunksExact h).symm⟩

theorem nativeEncryptBlocks_eq (x : Bytes) (encKey : EncKey) (nonce : Nonce) :
    nativeEncryptBlocks E x encKey.key.toList nonce.toList 4 =
      pyError (Krcm.encryptBlocks E x encKey nonce.toList) := by
  unfold nativeEncryptBlocks encKeyFromSlice
  rw [rejectIf_false (by decide), ok_bind, rejectIf_false (by simp), ok_bind, tryIntoArray_toList]
  rfl

theorem nativeDecryptBlocks_eq (y : Bytes) (encKey : EncKey) (nonce : Nonce) :
    nativeDecryptBlocks E y encKey.key.toList nonce.toList 4 =
      pyError (Krcm.decryptBlocks E y encKey nonce.toList) := by
  unfold nativeDecryptBlocks encKeyFromSlice
  rw [rejectIf_false (by decide), ok_bind, rejectIf_false (by simp), ok_bind, tryIntoArray_toList]
  rfl

theorem pyError_eq_ok {α : Type} {run : Run α} {a : α} : pyError run = .ok a ↔ run = .ok a := by
  cases run <;> simp [pyError]

theorem joinBlocks_injective {xs ys : List Block} (h : joinBlocks xs = joinBlocks ys) : xs = ys := by
  rw [← chunksExact_joinBlocks xs, h, chunksExact_joinBlocks]

/-- A run that is a function of whole blocks and refuses all else. -/
theorem returns_iff_of {run : PyRun Bytes} {x y : Bytes} (g : List Block → List Block)
    (hblocks : ∀ xs, x = joinBlocks xs → run = .ok (joinBlocks (g xs)))
    (haligned : ∀ y, run = .ok y → x.length % 32 = 0) :
    run = .ok y ↔ ∃ xs, x = joinBlocks xs ∧ y = joinBlocks (g xs) := by
  refine ⟨fun h => ?_, fun ⟨xs, hxs, hy⟩ => by rw [hblocks xs hxs, hy]⟩
  obtain ⟨xs, hxs⟩ := exists_joinBlocks (haligned y h)
  exact ⟨xs, hxs, ok.inj (h.symm.trans (hblocks xs hxs))⟩

/-- The block index bounds what a run encrypts. -/
theorem encryptBlocks_bound {native : Bool} {x y : Bytes} {encKey : EncKey} {nonce : Nonce}
    {version : Int} (h : encryptBlocks E native x encKey.key.toList nonce.toList version = .ok y)
    (hy : y.length ≤ 2 ^ 69) : x.length ≤ 2 ^ 69 := by
  unfold encryptBlocks at h
  split at h
  · rw [nativeEncryptBlocks_eq] at h
    have hlen := (encryptBlocks_length (pyError_eq_ok.mp h)).1
    omega
  · simp only [pureEncryptBlocks, bind_eq_ok, rejectIf_eq_ok, not_not] at h
    obtain ⟨_, hmod, blocks, hchain, -⟩ := h
    have hstep (i : Nat) (fb block z : Bytes) (hs : blockStep E
        (if version = 3 then encryptOneBlockV3 E else encryptOneBlock E) encKey.key.toList
          nonce.toList i fb block = .ok z) : i < 2 ^ 64 := by
      obtain ⟨seed, hseed, -⟩ := bind_eq_ok.mp hs
      obtain ⟨indexBytes, hindex, -⟩ := bind_eq_ok.mp hseed
      exact (toBytes_eq_ok.mp hindex).1
    have hcount := chain_index_lt hstep hchain (Nat.zero_le _)
    rw [length_chunks] at hcount
    dsimp only [blockBytes] at hcount hmod
    omega

section
variable {p : Hash → Table 256} {q : Hash → Table 32} (hS : SharedTables E p q) (native : Bool)
  (version : Int) (encKey : EncKey) (nonce : Nonce)
include hS

theorem pureEncryptBlocks_agrees {xs : List Block} (hxs : xs.length ≤ 2 ^ 64) :
    pureEncryptBlocks E (joinBlocks xs) encKey.key.toList nonce.toList version =
      .ok (joinBlocks ((layersOf E p q version).encryptBlocks E encKey nonce.toList xs)) := by
  unfold pureEncryptBlocks
  rw [rejectIf_false (by rw [length_joinBlocks]; simp), ok_bind]
  by_cases hv : version = 3
  · subst hv
    rw [layersOf_three]
    exact bind_eq_ok.mpr ⟨_, encryptChain_agrees computes_affine encKey _ hxs, rfl⟩
  · rw [layersOf_ne hv]
    dsimp only
    rw [if_neg hv]
    exact bind_eq_ok.mpr
      ⟨_, encryptChain_agrees (computes_tables hS.bytes hS.positions) encKey _ hxs, rfl⟩

theorem pureDecryptBlocks_agrees {ys : List Block} (hys : ys.length ≤ 2 ^ 64) :
    pureDecryptBlocks E (joinBlocks ys) encKey.key.toList nonce.toList version =
      .ok (joinBlocks ((layersOf E p q version).decryptBlocks E encKey nonce.toList ys)) := by
  unfold pureDecryptBlocks
  rw [rejectIf_false (by rw [length_joinBlocks]; simp), ok_bind]
  by_cases hv : version = 3
  · subst hv
    rw [layersOf_three]
    exact bind_eq_ok.mpr ⟨_, decryptChain_agrees computes_affine encKey _ hys, rfl⟩
  · rw [layersOf_ne hv]
    dsimp only
    rw [if_neg hv]
    exact bind_eq_ok.mpr
      ⟨_, decryptChain_agrees (computes_tables hS.bytes hS.positions) encKey _ hys, rfl⟩

/-- **What `_encrypt_blocks` returns**: the whole blocks of `x` under the engine of the version, by
either body. -/
theorem encryptBlocks_returns_iff {x y : Bytes} (hx : x.length ≤ 2 ^ 69) :
    encryptBlocks E native x encKey.key.toList nonce.toList version = .ok y ↔
      ∃ xs, x = joinBlocks xs ∧
        y = joinBlocks ((layersOf E p q version).encryptBlocks E encKey nonce.toList xs) := by
  refine returns_iff_of ((layersOf E p q version).encryptBlocks E encKey nonce.toList)
    (fun xs hxs => ?_) fun y h => ?_
  · subst hxs
    rw [length_joinBlocks] at hx
    unfold encryptBlocks
    split
    · next hnative =>
      rw [nativeEncryptBlocks_eq, encryptBlocks_eq_layers hS.derives,
        layersOf_ne (by rw [hnative.2]; decide)]
      rfl
    · exact pureEncryptBlocks_agrees hS version encKey nonce (by omega)
  · unfold encryptBlocks at h
    split at h
    · rw [nativeEncryptBlocks_eq] at h
      exact (encryptBlocks_length (pyError_eq_ok.mp h)).2
    · obtain ⟨_, hreject, -⟩ := bind_eq_ok.mp h
      exact not_not.mp (rejectIf_eq_ok.mp hreject)

theorem decryptBlocks_returns_iff {x y : Bytes} (hy : y.length ≤ 2 ^ 69) :
    decryptBlocks E native y encKey.key.toList nonce.toList version = .ok x ↔
      ∃ ys, y = joinBlocks ys ∧
        x = joinBlocks ((layersOf E p q version).decryptBlocks E encKey nonce.toList ys) := by
  refine returns_iff_of ((layersOf E p q version).decryptBlocks E encKey nonce.toList)
    (fun ys hys => ?_) fun x h => ?_
  · subst hys
    rw [length_joinBlocks] at hy
    unfold decryptBlocks
    split
    · next hnative =>
      rw [nativeDecryptBlocks_eq, decryptBlocks_eq_layers hS.derives,
        layersOf_ne (by rw [hnative.2]; decide)]
      rfl
    · exact pureDecryptBlocks_agrees hS version encKey nonce (by omega)
  · unfold decryptBlocks at h
    split at h
    · rw [nativeDecryptBlocks_eq] at h
      exact (decryptBlocks_length (pyError_eq_ok.mp h)).2
    · obtain ⟨_, hreject, -⟩ := bind_eq_ok.mp h
      exact not_not.mp (rejectIf_eq_ok.mp hreject)

/-- The two directions undo each other, in every version and by either body. -/
theorem decryptBlocks_iff {x y : Bytes} (hy : y.length ≤ 2 ^ 69) :
    decryptBlocks E native y encKey.key.toList nonce.toList version = .ok x ↔
      encryptBlocks E native x encKey.key.toList nonce.toList version = .ok y := by
  rw [decryptBlocks_returns_iff hS native version encKey nonce hy]
  constructor
  · rintro ⟨ys, hys, hx⟩
    have hlen : x.length = y.length := by
      rw [hx, hys, length_joinBlocks, length_joinBlocks, Layers.length_decryptBlocks]
    refine (encryptBlocks_returns_iff hS native version encKey nonce (hlen ▸ hy)).mpr ⟨_, hx, ?_⟩
    rw [Layers.encryptBlocks_decryptBlocks, hys]
  · intro h
    obtain ⟨xs, hxs, hy'⟩ := (encryptBlocks_returns_iff hS native version encKey nonce
      (encryptBlocks_bound h hy)).mp h
    exact ⟨_, hy', by rw [Layers.decryptBlocks_encryptBlocks, hxs]⟩

end

/-! ## The extension -/

/-- **Installing the extension changes no result**: with enough fuel for the rejection loops the
native bodies return what the Python bodies return, on whole blocks and on nothing else. -/
theorem native_agrees (E : Env) (hT : SamplingTerminates E) :
    ∃ n, ∀ m, n ≤ m → ∀ (encKey : Hash) (nonce : Nonce) (x : Bytes), x.length < 2 ^ 64 →
      (∀ y, nativeEncryptBlocks (E.withFuel m) x encKey.toList nonce.toList 4 = .ok y ↔
        pureEncryptBlocks (E.withFuel m) x encKey.toList nonce.toList 4 = .ok y) ∧
      (∀ y, nativeDecryptBlocks (E.withFuel m) x encKey.toList nonce.toList 4 = .ok y ↔
        pureDecryptBlocks (E.withFuel m) x encKey.toList nonce.toList 4 = .ok y) ∧
      ((∃ y, pureEncryptBlocks (E.withFuel m) x encKey.toList nonce.toList 4 = .ok y) ↔
        x.length % blockBytes = 0) ∧
      ((∃ y, pureDecryptBlocks (E.withFuel m) x encKey.toList nonce.toList 4 = .ok y) ↔
        x.length % blockBytes = 0) := by
  obtain ⟨n, hn⟩ := hT.fuel
  refine ⟨n, fun m hm encKey nonce x hx => ?_⟩
  obtain ⟨p, q, hS⟩ := (hn m hm).sharedTables
  have hsize : x.length ≤ 2 ^ 69 := by omega
  have hencrypt (native : Bool) (y : Bytes) :=
    @encryptBlocks_returns_iff _ _ _ hS native 4 ⟨encKey⟩ nonce x y hsize
  have hdecrypt (native : Bool) (y : Bytes) :=
    @decryptBlocks_returns_iff _ _ _ hS native 4 ⟨encKey⟩ nonce y x hsize
  refine ⟨fun y => (hencrypt true y).trans (hencrypt false y).symm,
    fun y => (hdecrypt true y).trans (hdecrypt false y).symm, ⟨fun ⟨y, hy⟩ => ?_, fun hmod => ?_⟩,
    ⟨fun ⟨y, hy⟩ => ?_, fun hmod => ?_⟩⟩
  · obtain ⟨xs, hxs, -⟩ := (hencrypt false y).mp hy
    rw [hxs, length_joinBlocks, Nat.mul_mod_left]
  · obtain ⟨xs, hxs⟩ := exists_joinBlocks hmod
    exact ⟨_, (hencrypt false _).mpr ⟨xs, hxs, rfl⟩⟩
  · obtain ⟨xs, hxs, -⟩ := (hdecrypt false y).mp hy
    rw [hxs, length_joinBlocks, Nat.mul_mod_left]
  · obtain ⟨xs, hxs⟩ := exists_joinBlocks hmod
    exact ⟨_, (hdecrypt false _).mpr ⟨xs, hxs, rfl⟩⟩

theorem native_agrees_two_blocks : ∃ n y,
    nativeEncryptBlocks (Env.zero.withFuel n) (List.replicate 64 7) (List.replicate 32 1)
        (List.replicate 16 2) 4 = .ok y ∧
      pureEncryptBlocks (Env.zero.withFuel n) (List.replicate 64 7) (List.replicate 32 1)
        (List.replicate 16 2) 4 = .ok y := by
  obtain ⟨n, hn⟩ := native_agrees Env.zero (samplingTerminates_of_zero fun _ _ => rfl)
  obtain ⟨hencrypt, -, hreturns, -⟩ := hn n le_rfl (Vector.replicate 32 1) (Vector.replicate 16 2)
    (List.replicate 64 7) (by decide)
  obtain ⟨y, hy⟩ := hreturns.mpr (by decide)
  exact ⟨n, y, (hencrypt y).mpr hy, hy⟩

/-! ## Version 3 -/

/-- The seed of a block under a key of any length. -/
def seedOf (E : Env) (encKey nonce : Bytes) (blockIndex : Nat) (feedback : Bytes) : Hash :=
  E.hmacSha256 encKey
    (ascii "block" ++ nonce ++ beBytes 8 blockIndex ++ (E.sha256 feedback).toList)

theorem blockSeed_eq (encKey nonce : Bytes) {i : Nat} (hi : i < 2 ^ 64) (fb : Bytes) :
    blockSeed E encKey nonce i fb = .ok (seedOf E encKey nonce i fb).toList := by
  unfold blockSeed
  rw [toBytes_ok (by omega), ok_bind]
  rfl

/-- The affine engine on whole blocks. -/
def affineEncryptStep (E : Env) (encKey nonce : Bytes) (i : Nat) (fb : Bytes) (x : Block) : Block :=
  (affineLayers E).encryptBlock E (seedOf E encKey nonce i fb).toList x

def affineDecryptStep (E : Env) (encKey nonce : Bytes) (i : Nat) (fb : Bytes) (y : Block) : Block :=
  (affineLayers E).decryptBlock E (seedOf E encKey nonce i fb).toList y

def affineEncrypt (E : Env) (encKey nonce : Bytes) (xs : List Block) : List Block :=
  mapChain (affineEncryptStep E encKey nonce) (fun _ encrypted => encrypted.toList) 0 nonce xs

def affineDecrypt (E : Env) (encKey nonce : Bytes) (ys : List Block) : List Block :=
  mapChain (affineDecryptStep E encKey nonce) (fun encrypted _ => encrypted.toList) 0 nonce ys

theorem affineDecrypt_affineEncrypt (encKey nonce : Bytes) (xs : List Block) :
    affineDecrypt E encKey nonce (affineEncrypt E encKey nonce xs) = xs :=
  mapChain_undo (f := affineEncryptStep E encKey nonce) (g := affineDecryptStep E encKey nonce)
    (fun _ encrypted => encrypted.toList)
    (fun _ _ _ => (affineLayers E).decryptBlock_encryptBlock E _ _) 0 nonce xs

theorem affineEncrypt_affineDecrypt (encKey nonce : Bytes) (ys : List Block) :
    affineEncrypt E encKey nonce (affineDecrypt E encKey nonce ys) = ys :=
  mapChain_undo (f := affineDecryptStep E encKey nonce) (g := affineEncryptStep E encKey nonce)
    (fun encrypted _ => encrypted.toList)
    (fun _ _ _ => (affineLayers E).encryptBlock_decryptBlock E _ _) 0 nonce ys

/-- The extension refuses version 3, so the Python bodies run whether or not it is installed. -/
theorem encryptBlocks_three (native : Bool) (encKey nonce : Bytes) {xs : List Block}
    (hxs : xs.length ≤ 2 ^ 64) : encryptBlocks E native (joinBlocks xs) encKey nonce 3 =
      .ok (joinBlocks (affineEncrypt E encKey nonce xs)) := by
  have hstep (i : Nat) (fb : Bytes) (x : Block) (hi : i < 2 ^ 64) :
      blockStep E (encryptOneBlockV3 E) encKey nonce i fb x.toList =
        .ok (affineEncryptStep E encKey nonce i fb x).toList := by
    unfold blockStep
    rw [blockSeed_eq encKey nonce hi, ok_bind]
    exact encryptOneBlockWith_agrees computes_affine _ x
  have hchain : chain (blockStep E (encryptOneBlockV3 E) encKey nonce)
      (fun _ encrypted => encrypted) 0 nonce (chunks blockBytes (joinBlocks xs)) =
        .ok ((affineEncrypt E encKey nonce xs).map Vector.toList) := by
    unfold joinBlocks affineEncrypt
    rw [chunks_flatten_vectors (by decide)]
    exact chain_eq_mapChain hstep (fun _ _ => rfl) (by omega)
  unfold encryptBlocks pureEncryptBlocks
  rw [if_neg (by simp), rejectIf_false (by rw [length_joinBlocks]; simp), ok_bind]
  dsimp only
  rw [if_pos rfl, hchain, ok_bind]
  rfl

theorem decryptBlocks_three (native : Bool) (encKey nonce : Bytes) {ys : List Block}
    (hys : ys.length ≤ 2 ^ 64) : decryptBlocks E native (joinBlocks ys) encKey nonce 3 =
      .ok (joinBlocks (affineDecrypt E encKey nonce ys)) := by
  have hstep (i : Nat) (fb : Bytes) (y : Block) (hi : i < 2 ^ 64) :
      blockStep E (decryptOneBlockV3 E) encKey nonce i fb y.toList =
        .ok (affineDecryptStep E encKey nonce i fb y).toList := by
    unfold blockStep
    rw [blockSeed_eq encKey nonce hi, ok_bind]
    exact decryptOneBlockWith_agrees computes_affine _ y
  have hchain : chain (blockStep E (decryptOneBlockV3 E) encKey nonce)
      (fun encrypted _ => encrypted) 0 nonce (chunks blockBytes (joinBlocks ys)) =
        .ok ((affineDecrypt E encKey nonce ys).map Vector.toList) := by
    unfold joinBlocks affineDecrypt
    rw [chunks_flatten_vectors (by decide)]
    exact chain_eq_mapChain hstep (fun _ _ => rfl) (by omega)
  unfold decryptBlocks pureDecryptBlocks
  rw [if_neg (by simp), rejectIf_false (by rw [length_joinBlocks]; simp), ok_bind]
  dsimp only
  rw [if_pos rfl, hchain, ok_bind]
  rfl

/-- The parameters of a seed are derived, and both are invertible. -/
theorem affineParams_invertible (seed : Hash) :
    (∃ a b invA, byteAffineParams seed.toList = .ok (a, b, invA) ∧ a * invA % 256 = 1) ∧
      ∃ a b, positionAffineParams seed.toList = .ok (a, b) ∧
        ((List.range 32).map fun i => (a * i + b) % 32).Perm (List.range 32) := by
  constructor
  · refine ⟨_, _, _, byteAffineParams_agrees seed, ?_⟩
    have h := congrArg UInt8.toNat (byteInverse_mul seed)
    rwa [UInt8.mul_comm, UInt8.toNat_mul] at h
  · refine ⟨_, _, positionAffineParams_agrees seed, ?_⟩
    have hodd := positionMultiplier_odd seed
    have hnodup : ((List.range 32).map fun i =>
        ((seed[2].toNat ||| 1) % 32 * i + seed[3].toNat % 32) % 32).Nodup := by
      refine List.Nodup.map_on (fun i hi j hj h => ?_) List.nodup_range
      exact affine_injective hodd _ (List.mem_range.mp hi) (List.mem_range.mp hj) h
    refine (List.subperm_of_subset hnodup fun k hk => ?_).perm_of_length_le (by simp)
    obtain ⟨i, -, rfl⟩ := List.mem_map.mp hk
    exact List.mem_range.mpr (Nat.mod_lt _ (by decide))

/-- **The version 3 engine is invertible**, under keys and nonces of any length and whatever the
seeds; `2 ^ 64` blocks are all the eight bytes of the block index can count. -/
theorem engine_v3 (E : Env) (native : Bool) (encKey nonce x : Bytes) (haligned : x.length % 32 = 0)
    (hx : x.length ≤ 32 * 2 ^ 64) :
    (∃ y, encryptBlocks E native x encKey nonce 3 = .ok y ∧
        decryptBlocks E native y encKey nonce 3 = .ok x) ∧
      (∃ y, decryptBlocks E native x encKey nonce 3 = .ok y ∧
        encryptBlocks E native y encKey nonce 3 = .ok x) ∧
      ∀ seed : Hash,
        (∃ a b invA, byteAffineParams seed.toList = .ok (a, b, invA) ∧ a * invA % 256 = 1) ∧
          ∃ a b, positionAffineParams seed.toList = .ok (a, b) ∧
            ((List.range 32).map fun i => (a * i + b) % 32).Perm (List.range 32) := by
  obtain ⟨xs, rfl⟩ := exists_joinBlocks haligned
  rw [length_joinBlocks] at hx
  have hxs : xs.length ≤ 2 ^ 64 := by omega
  refine ⟨⟨_, encryptBlocks_three native encKey nonce hxs, ?_⟩,
    ⟨_, decryptBlocks_three native encKey nonce hxs, ?_⟩, affineParams_invertible⟩
  · have hlen : (affineEncrypt E encKey nonce xs).length = xs.length := length_mapChain _ _ _ _ _
    rw [decryptBlocks_three native encKey nonce (hlen ▸ hxs), affineDecrypt_affineEncrypt]
  · have hlen : (affineDecrypt E encKey nonce xs).length = xs.length := length_mapChain _ _ _ _ _
    rw [encryptBlocks_three native encKey nonce (hlen ▸ hxs), affineEncrypt_affineDecrypt]

theorem engine_v3_two_blocks : ∃ y,
    encryptBlocks Env.zero true (List.replicate 64 7) [1, 2] [3] 3 = .ok y ∧
      decryptBlocks Env.zero true y [1, 2] [3] 3 = .ok (List.replicate 64 7) :=
  (engine_v3 Env.zero true [1, 2] [3] (List.replicate 64 7) (by decide) (by decide)).1

end Krcm.Py
