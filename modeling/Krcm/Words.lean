import Krcm.Stream

/-!
# The words of a stream

`hkdf_expand_64` is `hkdf_expand_like` at length 64, and a longer expansion
begins with every shorter one. A stream read from its beginning is then the
concatenation of the expansions at 0, 64, 128, ..: after `n` calls of
`take_u64` it is `Stream.after n`, and the next word is `word n`
(`takeU64_after`).
-/

namespace Krcm

open Base Outcome

variable {E : Env}

/-! ## Expansions -/

/-- The loop only appends. -/
theorem prefix_hkdfLoop (key label : Bytes) (length : Nat) :
    ∀ (k : Nat) (out previous : Bytes) (counter : UInt32),
      out <+: hkdfLoop E key label length k out previous counter
  | 0, out, _, _ => List.prefix_rfl
  | k + 1, out, previous, counter => by
    unfold hkdfLoop
    split
    · exact (List.prefix_append _ _).trans (prefix_hkdfLoop key label length k _ _ _)
    · exact List.prefix_rfl

/-- The loop for a longer output goes on where the loop for a shorter one stops. -/
theorem hkdfLoop_prefix (key label : Bytes) {a b : Nat} (hab : a ≤ b) :
    ∀ {k m : Nat} (out previous : Bytes) (counter : UInt32), k ≤ m →
      hkdfLoop E key label a k out previous counter <+: hkdfLoop E key label b m out previous counter
  | 0, _, _, _, _, _ => prefix_hkdfLoop _ _ _ _ _ _ _
  | k + 1, 0, _, _, _, hk => absurd hk (Nat.not_succ_le_zero k)
  | k + 1, m + 1, out, previous, counter, hk => by
    by_cases hlt : out.length < a
    · unfold hkdfLoop
      rw [if_pos hlt, if_pos (hlt.trans_le hab)]
      exact hkdfLoop_prefix key label hab _ _ _ (Nat.le_of_succ_le_succ hk)
    · have hstop : hkdfLoop E key label a (k + 1) out previous counter = out := by
        unfold hkdfLoop
        rw [if_neg hlt]
      rw [hstop]
      exact prefix_hkdfLoop _ _ _ _ _ _ _

theorem toList_hkdfExpandLike (key label : Bytes) (length : Nat) :
    (hkdfExpandLike E key label length).toList =
      (hkdfLoop E key label length length [] [] 1).take length := by
  simp [hkdfExpandLike]

/-- **A longer expansion begins with the shorter one.** -/
theorem hkdfExpandLike_prefix (key label : Bytes) {a b : Nat} (hab : a ≤ b) :
    (hkdfExpandLike E key label a).toList <+: (hkdfExpandLike E key label b).toList := by
  have hloop : hkdfLoop E key label a a [] [] 1 <+: hkdfLoop E key label b b [] [] 1 :=
    hkdfLoop_prefix key label hab [] [] 1 hab
  rw [toList_hkdfExpandLike, toList_hkdfExpandLike]
  calc (hkdfLoop E key label a a [] [] 1).take a
      <+: (hkdfLoop E key label b b [] [] 1).take a := hloop.take a
    _ <+: (hkdfLoop E key label b b [] [] 1).take b := List.take_prefix_take_left hab

/-- The two messages of an expansion to 64 bytes. -/
theorem hkdfLoop_64 (key label : Bytes) :
    hkdfLoop E key label 64 64 [] [] 1 = (hkdfExpand64 E key label).toList := by
  have h1 : beBytes 4 (1 : UInt32).toNat = [0, 0, 0, 1] := rfl
  have h2 : beBytes 4 (1 + 1 : UInt32).toNat = [0, 0, 0, 2] := rfl
  unfold hkdfLoop
  rw [if_pos (by decide)]
  unfold hkdfLoop
  rw [if_pos (by simp)]
  unfold hkdfLoop
  rw [if_neg (by simp), h1, h2]
  unfold hkdfExpand64
  simp only [List.nil_append]
  exact Vector.toList_append.symm

/-- **`hkdf_expand_64` is `hkdf_expand_like` at 64.** -/
theorem hkdfExpand64_eq (key label : Bytes) :
    hkdfExpand64 E key label = hkdfExpandLike E key label 64 := by
  apply Vector.toList_inj.mp
  rw [toList_hkdfExpandLike, hkdfLoop_64, List.take_of_length_le (by simp)]

/-! ## Streams -/

section
variable (E) (seed label : Bytes)

/-- The expansion that fills bytes `64 * i` up to `64 * (i + 1)` of the stream. -/
def expansion (i : Nat) : Arr 64 := hkdfExpandLike E seed (label ++ beBytes 4 (64 * i)) 64

def expansions (k : Nat) : Bytes :=
  ((List.range k).map fun i => (expansion E seed label i).toList).flatten

/-- The stream after `n` words. -/
def Stream.after (n : Nat) : Stream := ⟨expansions E seed label ((n + 7) / 8), 8 * n⟩

/-- The word at byte `8 * n` of the stream. -/
def word (n : Nat) : UInt64 :=
  u64OfBytes ((expansion E seed label (n / 8)).toList.extract (8 * (n % 8)) (8 * (n % 8) + 8))

/-- The stream and cursor of a caller after `n` calls of `take_u64`. -/
def streamAfter : Nat → Run Stream
  | 0 => .ok .empty
  | n + 1 => do
    let s ← streamAfter n
    let (_, s) ← takeU64 E seed label s
    .ok s

end

variable {seed label : Bytes}

theorem expansions_succ (k : Nat) : expansions E seed label (k + 1) =
    expansions E seed label k ++ (expansion E seed label k).toList := by
  simp [expansions, List.range_succ]

theorem length_expansions (k : Nat) : (expansions E seed label k).length = 64 * k := by
  induction k with
  | zero => rfl
  | succ k ih =>
    rw [expansions_succ, List.length_append, ih, Vector.length_toList]
    omega

theorem Stream.after_zero : Stream.after E seed label 0 = .empty := rfl

/-- The buffer that call `n` reads: an expansion is appended where eight words were read. -/
theorem refill_after (n : Nat) :
    (if (Stream.after E seed label n).cursor + 8 > (Stream.after E seed label n).stream.length then
      (Stream.after E seed label n).stream ++ (hkdfExpand64 E seed
        (label ++ beBytes 4 (Stream.after E seed label n).stream.length)).toList
    else (Stream.after E seed label n).stream) = expansions E seed label (n / 8 + 1) := by
  unfold Stream.after
  dsimp only
  rw [length_expansions]
  by_cases hfull : n % 8 = 0
  · have hk : (n + 7) / 8 = n / 8 := by omega
    rw [if_pos (by omega), hk, hkdfExpand64_eq, expansions_succ]
    rfl
  · have hk : (n + 7) / 8 = n / 8 + 1 := by omega
    rw [if_neg (by omega), hk]

/-- **A call of `take_u64` returns the next word.** -/
theorem takeU64_after (n : Nat) : takeU64 E seed label (.after E seed label n) =
    .ok (word E seed label n, .after E seed label (n + 1)) := by
  have hskip : (expansions E seed label (n / 8)).length ≤ 8 * n := by
    rw [length_expansions]
    omega
  have hoffset : 8 * n - (expansions E seed label (n / 8)).length = 8 * (n % 8) := by
    rw [length_expansions]
    omega
  have hend : 8 * n + 8 - (expansions E seed label (n / 8)).length = 8 * (n % 8) + 8 := by
    rw [length_expansions]
    omega
  have hchunk : (slice (expansions E seed label (n / 8 + 1)) (8 * n) (8 * n + 8) : Run Bytes) =
      .ok ((expansion E seed label (n / 8)).toList.extract (8 * (n % 8)) (8 * (n % 8) + 8)) := by
    rw [expansions_succ, slice_skip hskip (by omega), hoffset, hend,
      slice_ok (by omega) (by rw [Vector.length_toList]; omega), List.extract_eq_take_drop]
  have hnext : (n + 1 + 7) / 8 = n / 8 + 1 := by omega
  unfold takeU64
  rw [refill_after]
  dsimp only [Stream.after]
  rw [hchunk, ok_bind, hnext]
  rfl

theorem streamAfter_eq (n : Nat) : streamAfter E seed label n = .ok (.after E seed label n) := by
  induction n with
  | zero => rfl
  | succ n ih =>
    unfold streamAfter
    rw [ih, ok_bind, takeU64_after, ok_bind]

/-- Streams are as the shuffles expect them. -/
theorem Stream.aligned_after (n : Nat) : (Stream.after E seed label n).Aligned := by
  unfold Stream.Aligned Stream.after
  dsimp only
  rw [length_expansions]
  omega

/-- The rejection loop returns the first accepted word. -/
theorem drawLoop_after {limit : Nat} :
    ∀ {k m : Nat} {r : UInt64} {s' : Stream},
      drawLoop E seed label limit k (.after E seed label m) = .ok (r, s') →
        ∃ m', m ≤ m' ∧ r = word E seed label m' ∧ s' = .after E seed label (m' + 1) ∧
          (word E seed label m').toNat < limit ∧
          ∀ j, m ≤ j → j < m' → limit ≤ (word E seed label j).toNat
  | 0, _, _, _, h => nomatch h
  | k + 1, m, r, s', h => by
    unfold drawLoop at h
    rw [takeU64_after, ok_bind] at h
    by_cases hge : (word E seed label m).toNat ≥ limit
    · simp only [hge, ↓reduceIte] at h
      obtain ⟨m', hm, hr, hs, hlt, hrejected⟩ := drawLoop_after h
      refine ⟨m', by omega, hr, hs, hlt, fun j hj hj' => ?_⟩
      rcases Nat.eq_or_lt_of_le hj with rfl | hlater
      · exact hge
      · exact hrejected j hlater hj'
    · simp only [hge, ↓reduceIte] at h
      cases h
      exact ⟨m, le_rfl, rfl, rfl, Nat.lt_of_not_le hge, fun j hj hj' => absurd hj' (by omega)⟩

theorem drawIndex_after {i m : Nat} {j : Fin (i + 1)} {s' : Stream}
    (h : drawIndex E seed label i (.after E seed label m) = .ok (j, s')) :
    ∃ m', m ≤ m' ∧ s' = .after E seed label (m' + 1) ∧
      (word E seed label m').toNat < rejectionLimit (i + 1) ∧
      j.val = (word E seed label m').toNat % (i + 1) := by
  obtain ⟨⟨r, s1⟩, hr, h⟩ := bind_eq_ok.mp h
  obtain ⟨m', hm, rfl, rfl, hlt, -⟩ := drawLoop_after hr
  cases h
  exact ⟨m', hm, rfl, hlt, rfl⟩

/-- Up to `2 ^ 29` words no two expansions of a stream share their label. -/
theorem expansion_label_injective {i j : Nat} (hi : i < 2 ^ 26) (hj : j < 2 ^ 26)
    (h : label ++ beBytes 4 (64 * i) = label ++ beBytes 4 (64 * j)) : i = j := by
  have hbytes := List.append_cancel_left h
  have hoffset : 64 * i = 64 * j := beBytes_inj (by omega) (by omega) hbytes
  omega

end Krcm
