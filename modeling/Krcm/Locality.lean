import Krcm.Blocks

/-!
# Locality of the chained mode

What a block of the input decides of the output, under one key and nonce. A
ciphertext block is decided by its plaintext block once the ciphertext block
before it is the same, and the other way round (`encryptBlocks_blockAt`). So
equal beginnings encrypt to equal beginnings and different ones to different
ones, and a damaged ciphertext block damages its own plaintext block, at most
the next, and no other.
-/

namespace Krcm

open Base

/-- Block `b` of a byte string. -/
def blockAt (x : Bytes) (b : Nat) : Bytes := x.extract (32 * b) (32 * (b + 1))

theorem blockAt_eq (x : Bytes) (b : Nat) : blockAt x b = (x.drop (32 * b)).take 32 := by
  unfold blockAt
  rw [List.extract_eq_take_drop, show 32 * (b + 1) - 32 * b = 32 by omega]

theorem blockAt_of_le {x : Bytes} {b : Nat} (h : x.length ≤ 32 * b) : blockAt x b = [] := by
  rw [blockAt_eq, List.drop_eq_nil_of_le h, List.take_nil]

/-- A beginning of whole blocks, and the block after it. -/
theorem take_succ_block (x : Bytes) (k : Nat) :
    x.take (32 * (k + 1)) = x.take (32 * k) ++ blockAt x k := by
  rw [blockAt_eq, ← List.take_add]
  rfl

/-- The feedback of a block is decided by the ciphertext before it. -/
theorem feedbackAt_congr {nonce y y' : Bytes} {b : Nat} (h : y.take (32 * b) = y'.take (32 * b)) :
    feedbackAt nonce y b = feedbackAt nonce y' b := by
  cases b with
  | zero => rfl
  | succ c =>
    show y.extract _ _ = y'.extract _ _
    rw [List.extract_eq_take_drop, List.extract_eq_take_drop, ← List.drop_take, ← List.drop_take, h]

section
variable {E : Env} {encKey : EncKey} {nonce x x' y y' : Bytes}
  (h : encryptBlocks E x encKey nonce = .ok y) (h' : encryptBlocks E x' encKey nonce = .ok y')
include h h'

/-- **A block decides its image** once the feedback is the same, and is decided by it. -/
theorem encryptBlocks_blockAt {b : Nat} (hb : 32 * (b + 1) ≤ y.length) (hb' : 32 * (b + 1) ≤ y'.length)
    (hfb : feedbackAt nonce y b = feedbackAt nonce y' b) :
    blockAt x b = blockAt x' b ↔ blockAt y b = blockAt y' b := by
  obtain ⟨s, t, hs, ht, hstep⟩ := encryptBlocks_feedbackAt h (b := b) (by omega)
  obtain ⟨s', t', hs', ht', hstep'⟩ := encryptBlocks_feedbackAt h' (b := b) (by omega)
  rw [← hfb] at hstep'
  unfold blockAt
  rw [← hs, ← hs', ← ht, ← ht', Vector.toList_inj, Vector.toList_inj]
  constructor
  · rintro rfl
    exact Outcome.ok.inj (hstep.symm.trans hstep')
  · rintro rfl
    rw [encryptOneBlock_iff] at hstep hstep'
    exact Outcome.ok.inj (hstep.symm.trans hstep')

theorem encryptBlocks_take {k : Nat} (hk : 32 * k ≤ y.length) (hk' : 32 * k ≤ y'.length) :
    x.take (32 * k) = x'.take (32 * k) ↔ y.take (32 * k) = y'.take (32 * k) := by
  have hx := (encryptBlocks_length h).1
  have hx' := (encryptBlocks_length h').1
  induction k with
  | zero => simp
  | succ k ih =>
    have hlen (z z' : Bytes) (hz : 32 * k ≤ z.length) (hz' : 32 * k ≤ z'.length) :
        z.take (32 * (k + 1)) = z'.take (32 * (k + 1)) ↔
          z.take (32 * k) = z'.take (32 * k) ∧ blockAt z k = blockAt z' k := by
      rw [take_succ_block, take_succ_block]
      refine ⟨fun heq => List.append_inj heq ?_, fun ⟨hfront, hblock⟩ => by rw [hfront, hblock]⟩
      rw [List.length_take, List.length_take]
      omega
    rw [hlen x x' (by omega) (by omega), hlen y y' (by omega) (by omega)]
    constructor
    · rintro ⟨hfront, hblock⟩
      have hy := (ih (by omega) (by omega)).mp hfront
      exact ⟨hy, (encryptBlocks_blockAt h h' hk hk' (feedbackAt_congr hy)).mp hblock⟩
    · rintro ⟨hy, hblock⟩
      exact ⟨(ih (by omega) (by omega)).mpr hy,
        (encryptBlocks_blockAt h h' hk hk' (feedbackAt_congr hy)).mpr hblock⟩

/-- Where the lengths agree, blocks past the end do. -/
theorem blockAt_iff (hlen : y.length = y'.length) {b : Nat}
    (hfb : feedbackAt nonce y b = feedbackAt nonce y' b) :
    blockAt x b = blockAt x' b ↔ blockAt y b = blockAt y' b := by
  have hx := encryptBlocks_length h
  have hx' := encryptBlocks_length h'
  by_cases hb : 32 * (b + 1) ≤ y.length
  · exact encryptBlocks_blockAt h h' hb (hlen ▸ hb) hfb
  · rw [@blockAt_of_le x b (by omega), @blockAt_of_le x' b (by omega), @blockAt_of_le y b (by omega),
      @blockAt_of_le y' b (by omega)]

end

/-- A byte string of whole blocks is decided by them. -/
theorem eq_of_blockAt {y y' : Bytes} (hlen : y.length = y'.length) (hmod : y.length % 32 = 0)
    (h : ∀ b, blockAt y b = blockAt y' b) : y = y' := by
  have hfront (k : Nat) : y.take (32 * k) = y'.take (32 * k) := by
    induction k with
    | zero => rfl
    | succ k ih => rw [take_succ_block, take_succ_block, ih, h]
  have hall := hfront (y.length / 32)
  rwa [List.take_of_length_le (by omega), List.take_of_length_le (by omega)] at hall

/-- **What a block decides.** Under one key and nonce, two inputs begin with the same `k` blocks iff
their ciphertexts do, and a ciphertext block decides its plaintext block together with the ciphertext
block before it and nothing else. So where two ciphertexts differ in block `j` alone, the plaintexts
differ in block `j`, and agree in all blocks but `j` and `j + 1`. -/
theorem blockMode_local (E : Env) (encKey : EncKey) (nonce x x' y y' : Bytes)
    (h : encryptBlocks E x encKey nonce = .ok y) (h' : encryptBlocks E x' encKey nonce = .ok y') :
    (∀ k, 32 * k ≤ y.length → 32 * k ≤ y'.length →
      (x.take (32 * k) = x'.take (32 * k) ↔ y.take (32 * k) = y'.take (32 * k))) ∧
    (∀ b, 32 * (b + 1) ≤ y.length → 32 * (b + 1) ≤ y'.length →
      feedbackAt nonce y b = feedbackAt nonce y' b →
      (blockAt x b = blockAt x' b ↔ blockAt y b = blockAt y' b)) ∧
    ∀ j, y.length = y'.length → (∀ b, b ≠ j → blockAt y b = blockAt y' b) →
      (∀ b, b ≠ j → b ≠ j + 1 → blockAt x b = blockAt x' b) ∧
        (blockAt x j = blockAt x' j ↔ y = y') := by
  refine ⟨fun k hk hk' => encryptBlocks_take h h' hk hk',
    fun b hb hb' hfb => encryptBlocks_blockAt h h' hb hb' hfb, fun j hlen hsame => ?_⟩
  have hfb {b : Nat} (hb : b ≠ j + 1) : feedbackAt nonce y b = feedbackAt nonce y' b := by
    cases b with
    | zero => rfl
    | succ c => exact hsame c fun heq => hb (congrArg Nat.succ heq)
  refine ⟨fun b hb hb' => (blockAt_iff h h' hlen (hfb hb')).mpr (hsame b hb), ?_⟩
  rw [blockAt_iff h h' hlen (hfb (by omega))]
  refine ⟨fun hj => eq_of_blockAt hlen (by have := encryptBlocks_length h; omega) fun b => ?_,
    fun heq => by rw [heq]⟩
  by_cases hb : b = j
  · rw [hb, hj]
  · exact hsame b hb

theorem blockMode_local_two_blocks : ∃ n y y',
    encryptBlocks (Env.zero.withFuel n) (List.replicate 64 7) ⟨Vector.replicate 32 1⟩ [] = .ok y ∧
      encryptBlocks (Env.zero.withFuel n) (List.replicate 32 7 ++ List.replicate 32 8)
        ⟨Vector.replicate 32 1⟩ [] = .ok y' ∧
      y.take 32 = y'.take 32 ∧ y.take 64 ≠ y'.take 64 := by
  obtain ⟨n, hn⟩ := Env.zero_shufflesTerminate.fuel
  obtain ⟨y, hy⟩ := @encryptBlocks_returns _ (hn n le_rfl) ⟨Vector.replicate 32 1⟩ []
    (List.replicate 64 7) (by decide)
  obtain ⟨y', hy'⟩ := @encryptBlocks_returns _ (hn n le_rfl) ⟨Vector.replicate 32 1⟩ []
    (List.replicate 32 7 ++ List.replicate 32 8) (by decide)
  have hlen := (encryptBlocks_length hy).1
  have hlen' := (encryptBlocks_length hy').1
  rw [List.length_replicate] at hlen
  rw [List.length_append, List.length_replicate, List.length_replicate] at hlen'
  obtain ⟨hfront, -, -⟩ := blockMode_local _ _ _ _ _ _ _ hy hy'
  refine ⟨n, y, y', hy, hy', (hfront 1 (by omega) (by omega)).mp (by decide), fun hall => ?_⟩
  exact absurd ((hfront 2 (by omega) (by omega)).mpr hall) (by decide)

end Krcm
