import Krcm.Block
import Krcm.Kdf

/-!
# The chained mode

`encrypt_blocks` and `decrypt_blocks`: the blocks of a byte string, each under
a seed derived from the key, the nonce, its index and the ciphertext block
before it. Encryption feeds its output back and decryption its input, so the
two are chains that undo each other (`encryptBlocks_iff`).
-/

namespace Krcm

open Base

variable (E : Env)

/-- The message under `block_seed`. -/
def blockMessage (nonce : Bytes) (blockIndex : Nat) (feedback : Bytes) : Bytes :=
  ascii "block" ++ nonce ++ beBytes 8 blockIndex ++ (E.sha256 feedback).toList

def blockSeed (encKey : EncKey) (nonce : Bytes) (blockIndex : Nat) (feedback : Bytes) : Hash :=
  E.hmacSha256 encKey.key.toList (blockMessage E nonce blockIndex feedback)

def encryptStep (encKey : EncKey) (nonce : Bytes) (blockIndex : Nat) (feedback : Bytes)
    (block : Block) : Run Block :=
  encryptOneBlock E block (blockSeed E encKey nonce blockIndex feedback).toList

def decryptStep (encKey : EncKey) (nonce : Bytes) (blockIndex : Nat) (feedback : Bytes)
    (block : Block) : Run Block :=
  decryptOneBlock E block (blockSeed E encKey nonce blockIndex feedback).toList

/-- `concat` of the blocks a loop appended. -/
def joinBlocks (blocks : List Block) : Bytes := (blocks.map Vector.toList).flatten

def encryptBlocks (padded : Bytes) (encKey : EncKey) (nonce : Bytes) : Run Bytes := do
  Outcome.rejectIf (padded.length % blockBytes ≠ 0) .invalidParameter
  let ciphertext ← chain (encryptStep E encKey nonce) (fun _ encrypted => encrypted.toList) 0 nonce
    (chunksExact blockBytes padded)
  .ok (joinBlocks ciphertext)

def decryptBlocks (ciphertext : Bytes) (encKey : EncKey) (nonce : Bytes) : Run Bytes := do
  Outcome.rejectIf (ciphertext.length % blockBytes ≠ 0) .format
  let padded ← chain (decryptStep E encKey nonce) (fun encrypted _ => encrypted.toList) 0 nonce
    (chunksExact blockBytes ciphertext)
  .ok (joinBlocks padded)

/-! ## Specifications -/

theorem length_joinBlocks (bs : List Block) : (joinBlocks bs).length = bs.length * 32 :=
  length_flatten_vectors bs

theorem chunksExact_joinBlocks (bs : List Block) : chunksExact blockBytes (joinBlocks bs) = bs :=
  chunksExact_flatten (by omega) bs

theorem joinBlocks_chunksExact {x : Bytes} (h : x.length % 32 = 0) :
    joinBlocks (chunksExact blockBytes x) = x :=
  flatten_chunksExact (by omega) h

variable {E} {encKey : EncKey} {nonce : Bytes}

theorem encryptBlocks_eq_ok {x y : Bytes} : encryptBlocks E x encKey nonce = .ok y ↔
    ∃ xs ys, chain (encryptStep E encKey nonce) (fun _ encrypted => encrypted.toList) 0 nonce xs =
      .ok ys ∧ x = joinBlocks xs ∧ y = joinBlocks ys := by
  simp only [encryptBlocks, Outcome.bind_eq_ok, Outcome.rejectIf_eq_ok, Outcome.ok.injEq]
  constructor
  · rintro ⟨_, hlen, ys, hys, rfl⟩
    exact ⟨_, ys, hys, (joinBlocks_chunksExact (not_not.mp hlen)).symm, rfl⟩
  · rintro ⟨xs, ys, hys, rfl, rfl⟩
    refine ⟨(), by simp [length_joinBlocks], ys, ?_, rfl⟩
    rw [chunksExact_joinBlocks]
    exact hys

theorem decryptBlocks_eq_ok {x y : Bytes} : decryptBlocks E y encKey nonce = .ok x ↔
    ∃ xs ys, chain (decryptStep E encKey nonce) (fun encrypted _ => encrypted.toList) 0 nonce ys =
      .ok xs ∧ x = joinBlocks xs ∧ y = joinBlocks ys := by
  simp only [decryptBlocks, Outcome.bind_eq_ok, Outcome.rejectIf_eq_ok, Outcome.ok.injEq]
  constructor
  · rintro ⟨_, hlen, xs, hxs, rfl⟩
    exact ⟨xs, _, hxs, rfl, (joinBlocks_chunksExact (not_not.mp hlen)).symm⟩
  · rintro ⟨xs, ys, hxs, rfl, rfl⟩
    refine ⟨(), by simp [length_joinBlocks], xs, ?_, rfl⟩
    rw [chunksExact_joinBlocks]
    exact hxs

/-- **Encryption and decryption of the chained mode undo each other.** -/
theorem encryptBlocks_iff (x y : Bytes) :
    encryptBlocks E x encKey nonce = .ok y ↔ decryptBlocks E y encKey nonce = .ok x := by
  have hchain (xs ys : List Block) := chain_undo (fun _ y => y.toList)
    (fun i fb s t => encryptOneBlock_iff E (blockSeed E encKey nonce i fb).toList s t) 0 nonce xs ys
  rw [encryptBlocks_eq_ok, decryptBlocks_eq_ok]
  constructor
  · rintro ⟨xs, ys, h, hx, hy⟩
    exact ⟨xs, ys, (hchain xs ys).mp h, hx, hy⟩
  · rintro ⟨xs, ys, h, hx, hy⟩
    exact ⟨xs, ys, (hchain xs ys).mpr h, hx, hy⟩

theorem encryptBlocks_length {x y : Bytes} (h : encryptBlocks E x encKey nonce = .ok y) :
    y.length = x.length ∧ x.length % 32 = 0 := by
  obtain ⟨xs, ys, hc, rfl, rfl⟩ := encryptBlocks_eq_ok.mp h
  simp [length_joinBlocks, length_chain hc]

theorem decryptBlocks_length {x y : Bytes} (h : decryptBlocks E y encKey nonce = .ok x) :
    x.length = y.length ∧ y.length % 32 = 0 := by
  have := encryptBlocks_length ((encryptBlocks_iff x y).mpr h)
  omega

/-- The feedback of a block: the nonce, then the ciphertext block before. -/
def feedbackAt (nonce ciphertext : Bytes) (blockIndex : Nat) : Bytes :=
  match blockIndex with
  | 0 => nonce
  | b + 1 => ciphertext.extract (32 * b) (32 * (b + 1))

theorem extract_joinBlocks {ys : List Block} {b : Nat} {t : Block} (h : ys[b]? = some t) :
    (joinBlocks ys).extract (32 * b) (32 * (b + 1)) = t.toList := by
  obtain ⟨hb, ht⟩ := List.getElem?_eq_some_iff.mp h
  have hchunk : (chunksExact 32 (joinBlocks ys))[b]? = some t := by
    rw [← h]
    exact congrArg (·[b]?) (chunksExact_joinBlocks ys)
  obtain ⟨hlt, hget⟩ := List.getElem?_eq_some_iff.mp hchunk
  rw [← hget]
  simp only [chunksExact, List.getElem_map, List.getElem_finRange, List.extract]
  rw [show 32 * (b + 1) - 32 * b = 32 by omega, Nat.mul_comm 32 b]
  rfl

/-- Every block is encrypted under the seed of its index and of the block before it. -/
theorem encryptBlocks_feedbackAt {x y : Bytes} (h : encryptBlocks E x encKey nonce = .ok y) {b : Nat}
    (hb : b < y.length / 32) : ∃ s t : Block, s.toList = x.extract (32 * b) (32 * (b + 1)) ∧
      t.toList = y.extract (32 * b) (32 * (b + 1)) ∧
      encryptOneBlock E s (blockSeed E encKey nonce b (feedbackAt nonce y b)).toList = .ok t := by
  obtain ⟨xs, ys, hchain, rfl, rfl⟩ := encryptBlocks_eq_ok.mp h
  rw [length_joinBlocks, Nat.mul_div_cancel _ (by omega)] at hb
  have hbx : b < xs.length := by rwa [← length_chain hchain]
  have hx := List.getElem?_eq_getElem hbx
  have hy := List.getElem?_eq_getElem hb
  obtain ⟨fb, hstep, h0, hsucc⟩ := chain_getElem hchain b _ _ hx hy
  refine ⟨xs[b], ys[b], (extract_joinBlocks hx).symm, (extract_joinBlocks hy).symm, ?_⟩
  have hfb : fb = feedbackAt nonce (joinBlocks ys) b := by
    cases b with
    | zero => exact h0 rfl
    | succ c =>
      obtain ⟨x', y', -, hy', rfl⟩ := hsucc c rfl
      exact (extract_joinBlocks hy').symm
  rw [Nat.zero_add, encryptStep, hfb] at hstep
  exact hstep

/-- The block mode has no checked arithmetic. -/
theorem encryptBlocks_withChecks (b : Bool) (x : Bytes) (encKey : EncKey) (nonce : Bytes) :
    encryptBlocks (E.withChecks b) x encKey nonce = encryptBlocks E x encKey nonce := by
  have hround : encryptRound (E.withChecks b) = encryptRound E := by
    funext seed s r
    simp only [encryptRound, preSubstitute, permutationFromSeed, smallPermutation,
      shuffleFromSeed_withChecks]
    rfl
  have hstep : encryptStep (E.withChecks b) encKey nonce = encryptStep E encKey nonce := by
    funext i fb block
    unfold encryptStep encryptOneBlock
    rw [hround]
    rfl
  simp only [encryptBlocks, hstep]

/-! ## Termination -/

section
variable (hE : E.ShufflesReturn)
include hE

theorem encryptOneBlock_returns (block : Block) (seed : Bytes) :
    ∃ t, encryptOneBlock E block seed = .ok t := by
  refine foldlM_returns (fun r s => ?_) (List.range rounds) block
  obtain ⟨⟨p, hp⟩, q, hq⟩ := hE (roundSeed E seed r)
  exact ⟨_, (encryptRound_eq_ok E).mpr ⟨p, q, hp, hq, rfl⟩⟩

theorem decryptOneBlock_returns (block : Block) (seed : Bytes) :
    ∃ t, decryptOneBlock E block seed = .ok t := by
  refine foldlM_returns (fun r s => ?_) (List.range rounds).reverse block
  obtain ⟨⟨p, hp⟩, q, hq⟩ := hE (roundSeed E seed r)
  exact ⟨_, (decryptRound_eq_ok E).mpr ⟨p, q, hp, hq, rfl⟩⟩

theorem encryptBlocks_returns (encKey : EncKey) (nonce : Bytes) {x : Bytes} (hx : x.length % 32 = 0) :
    ∃ y, encryptBlocks E x encKey nonce = .ok y := by
  obtain ⟨ys, hys⟩ := chain_returns (fun _ y => y.toList)
    (fun i fb s => encryptOneBlock_returns hE s (blockSeed E encKey nonce i fb).toList) 0 nonce
    (chunksExact blockBytes x)
  exact ⟨_, encryptBlocks_eq_ok.mpr ⟨_, ys, hys, (joinBlocks_chunksExact hx).symm, rfl⟩⟩

theorem decryptBlocks_returns (encKey : EncKey) (nonce : Bytes) {y : Bytes} (hy : y.length % 32 = 0) :
    ∃ x, decryptBlocks E y encKey nonce = .ok x := by
  obtain ⟨xs, hxs⟩ := chain_returns (fun x _ => x.toList)
    (fun i fb s => decryptOneBlock_returns hE s (blockSeed E encKey nonce i fb).toList) 0 nonce
    (chunksExact blockBytes y)
  exact ⟨_, decryptBlocks_eq_ok.mpr ⟨xs, _, hxs, rfl, (joinBlocks_chunksExact hy).symm⟩⟩

theorem decryptBlocks_settles (encKey : EncKey) (nonce y : Bytes) :
    Outcome.Settles (decryptBlocks E y encKey nonce) := by
  by_cases hy : y.length % blockBytes = 0
  · obtain ⟨x, hx⟩ := decryptBlocks_returns hE encKey nonce hy
    rw [hx]
    exact Outcome.settles_ok x
  · unfold decryptBlocks
    rw [Outcome.rejectIf_true hy]
    exact Outcome.settles_err _

end

/-- **The block mode is a bijection** on the byte strings of whole blocks: with enough fuel for
the rejection loops both directions return and each is the inverse of the other. -/
theorem blockMode_bijection (E : Env) (hT : E.ShufflesTerminate) :
    ∃ n, ∀ m, n ≤ m → ∀ (encKey : EncKey) (nonce x : Bytes), x.length % blockBytes = 0 →
      (∃ y, encryptBlocks (E.withFuel m) x encKey nonce = .ok y ∧ y.length = x.length ∧
        decryptBlocks (E.withFuel m) y encKey nonce = .ok x) ∧
      ∃ y, decryptBlocks (E.withFuel m) x encKey nonce = .ok y ∧ y.length = x.length ∧
        encryptBlocks (E.withFuel m) y encKey nonce = .ok x := by
  obtain ⟨n, hn⟩ := hT.fuel
  refine ⟨n, fun m hm encKey nonce x hx => ⟨?_, ?_⟩⟩
  · obtain ⟨y, hy⟩ := encryptBlocks_returns (hn m hm) encKey nonce hx
    exact ⟨y, hy, (encryptBlocks_length hy).1, (encryptBlocks_iff x y).mp hy⟩
  · obtain ⟨y, hy⟩ := decryptBlocks_returns (hn m hm) encKey nonce hx
    exact ⟨y, hy, (decryptBlocks_length hy).1, (encryptBlocks_iff y x).mpr hy⟩

theorem blockMode_bijection_two_blocks : ∃ n y,
    encryptBlocks (Env.zero.withFuel n) (List.replicate 64 7) ⟨Vector.replicate 32 1⟩ [] = .ok y ∧
      y.length = 64 ∧
      decryptBlocks (Env.zero.withFuel n) y ⟨Vector.replicate 32 1⟩ [] =
        .ok (List.replicate 64 7) := by
  obtain ⟨n, hn⟩ := blockMode_bijection Env.zero Env.zero_shufflesTerminate
  obtain ⟨⟨y, he, hlen, hd⟩, -⟩ :=
    hn n le_rfl ⟨Vector.replicate 32 1⟩ [] (List.replicate 64 7) (by decide)
  exact ⟨n, y, he, by simpa using hlen, hd⟩

end Krcm
