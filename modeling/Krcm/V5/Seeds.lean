import Krcm.V5.TwoRuns

/-!
# Block seeds under reused nonces

A block seed is the last of three nested hashes: of the block message over the
segment nonce, of the segment message over the synthetic IV, and of the header
and the inner plaintext. Each message determines what it is built from, so
equal seeds lead back, hash by hash, to equal positions and plaintexts, or to
a collision between two messages the runs did hash.
-/

namespace Krcm

open Base Outcome

/-- Two distinct messages with one value. -/
def Collision {α : Type} (f : Bytes → α) (m₁ m₂ : Bytes) : Prop := m₁ ≠ m₂ ∧ f m₁ = f m₂

theorem eq_or_collision {α : Type} {f : Bytes → α} {m₁ m₂ : Bytes} (h : f m₁ = f m₂) :
    m₁ = m₂ ∨ Collision f m₁ m₂ := by
  by_cases heq : m₁ = m₂
  · exact .inl heq
  · exact .inr ⟨heq, h⟩

/-! ## Messages determine their parts -/

theorem blockMessage_inj {E : Env} {n₁ n₂ : Nonce} {b e : Nat} {f₁ f₂ : Bytes} (hb : b < 2 ^ 64)
    (he : e < 2 ^ 64) (h : blockMessage E n₁.toList b f₁ = blockMessage E n₂.toList e f₂) :
    n₁ = n₂ ∧ b = e := by
  simp only [blockMessage, List.append_assoc] at h
  obtain ⟨hn, h⟩ := List.append_inj (List.append_cancel_left h) (by simp)
  obtain ⟨hi, -⟩ := List.append_inj h (by simp)
  exact ⟨Vector.toList_inj.mp hn, beBytes_inj (by omega) (by omega) hi⟩

theorem segmentMessage_inj {n₁ n₂ : Nonce} {v₁ v₂ : Hash} {i j : UInt64}
    (h : segmentMessage n₁ v₁ i = segmentMessage n₂ v₂ j) : n₁ = n₂ ∧ v₁ = v₂ ∧ i = j := by
  simp only [segmentMessage, List.append_assoc] at h
  obtain ⟨hn, h⟩ := List.append_inj (List.append_cancel_left h) (by simp)
  obtain ⟨hv, hi⟩ := List.append_inj h (by simp)
  exact ⟨Vector.toList_inj.mp hn, Vector.toList_inj.mp hv, u64Bytes_inj hi⟩

theorem sivMessage_inj {h₁ h₂ : Arr headerV5Size} {inner₁ inner₂ : Bytes}
    (h : sivMessage h₁.toList inner₁ = sivMessage h₂.toList inner₂) :
    h₁ = h₂ ∧ inner₁ = inner₂ := by
  simp only [sivMessage, List.append_assoc] at h
  obtain ⟨-, h⟩ := List.append_inj (List.append_cancel_left h) (by simp)
  obtain ⟨hh, h⟩ := List.append_inj h (by simp)
  exact ⟨Vector.toList_inj.mp hh, (List.append_inj h (by simp)).2⟩

/-! ## Seeds of a run -/

/-- The nonce of a segment of the run. -/
def SealedV5.nonceOf (E : Env) (s : SealedV5) (i : Nat) : Nonce :=
  segmentNonce E s.keys s.publicNonce s.frame.syntheticIv (.ofNat i)

/-- The run has a block `b` in segment `i`, and `f` is what is fed back to it. -/
def FeedsAt (E : Env) (opts : EncryptV5Options) (s : SealedV5) (i b : Nat) (f : Bytes) : Prop :=
  ∃ piece cipher, (chunks opts.chunkSize s.inner)[i]? = some piece ∧
    encryptBlocks E (pad piece) s.keys.encKey (s.nonceOf E i).toList = .ok cipher ∧
    b < cipher.length / 32 ∧ f = feedbackAt (s.nonceOf E i).toList cipher b

variable {E : Env} {data₁ data₂ password₁ password₂ : Bytes} {opts₁ opts₂ : EncryptV5Options}
  {coins₁ coins₂ : Coins} {s₁ s₂ : SealedV5} {i j b e : Nat} {f₁ f₂ : Bytes}

/-- Every block of a run is encrypted under its block seed. -/
theorem SealedBy.feedsAt (h : SealedBy E data₁ password₁ opts₁ coins₁ s₁) {piece : Bytes}
    (hi : (chunks opts₁.chunkSize s₁.inner)[i]? = some piece) (hb : b < piece.length / 32 + 1) :
    ∃ f, FeedsAt E opts₁ s₁ i b f ∧ ∃ x y : Block,
      x.toList = (pad piece).extract (32 * b) (32 * (b + 1)) ∧
      encryptOneBlock E x (blockSeed E s₁.keys.encKey (s₁.nonceOf E i).toList b f).toList = .ok y := by
  obtain ⟨segments, hh, hp, -⟩ := h.segments
  rw [← hp, List.getElem?_map] at hi
  obtain ⟨⟨plain, cipher⟩, hs, rfl⟩ := Option.map_eq_some_iff.mp hi
  have hc := hh.sealed.getElem hs
  rw [Nat.zero_add] at hc
  have hlen : b < cipher.length / 32 := by
    rw [(encryptBlocks_length hc).1, length_pad]
    dsimp only at hb ⊢
    omega
  obtain ⟨x, y, hx, -, hstep⟩ := encryptBlocks_feedbackAt hc hlen
  exact ⟨_, ⟨plain, cipher, by rw [← hp, List.getElem?_map, hs]; rfl, hc, hlen, rfl⟩, x, y, hx, hstep⟩

/-- Positions are words. -/
theorem FeedsAt.position (h : SealedBy E data₁ password₁ opts₁ coins₁ s₁)
    (hd : data₁.length < 2 ^ 64) (hf : FeedsAt E opts₁ s₁ i b f₁) : i < 2 ^ 64 ∧ b < 2 ^ 64 := by
  obtain ⟨piece, cipher, hpiece, hc, hb, -⟩ := hf
  obtain ⟨hi, hget⟩ := List.getElem?_eq_some_iff.mp hpiece
  have hsize := opts₁.chunkSize_lt
  have hmin : 32 ≤ opts₁.chunkSize := le_max_right _ _
  refine ⟨?_, ?_⟩
  · have hpad := randomPaddingLen_le opts₁.paddingPolicy coins₁
    have hinner := length_packInner (E := E) data₁ opts₁.paddingPolicy coins₁
    rw [← h.inner] at hinner
    rw [length_chunks] at hi
    refine hi.trans ((Nat.div_lt_iff_lt_mul opts₁.chunkSize_pos).mpr ?_)
    omega
  · have hlen : piece.length ≤ opts₁.chunkSize := by
      rw [← hget, getElem_chunks, List.length_take]
      exact Nat.min_le_left _ _
    rw [(encryptBlocks_length hc).1, length_pad] at hb
    omega

/-- **Equal seeds come from equal positions of equal runs, or from a collision**: of the block
seed, of the truncated segment nonce, or of the synthetic IV. -/
theorem seeds_agree_or_collide (h₁ : sealV5 E data₁ password₁ opts₁ coins₁ = .ok s₁)
    (h₂ : sealV5 E data₂ password₂ opts₂ coins₂ = .ok s₂) (hkeys : s₁.keys = s₂.keys)
    (hd₁ : data₁.length < 2 ^ 64) (hd₂ : data₂.length < 2 ^ 64) (hf₁ : FeedsAt E opts₁ s₁ i b f₁)
    (hf₂ : FeedsAt E opts₂ s₂ j e f₂)
    (hseed : blockSeed E s₁.keys.encKey (s₁.nonceOf E i).toList b f₁ =
      blockSeed E s₂.keys.encKey (s₂.nonceOf E j).toList e f₂) :
    (i = j ∧ b = e ∧ s₁.frame.publicHeader = s₂.frame.publicHeader ∧ s₁.inner = s₂.inner ∧
        data₁ = data₂) ∨
      Collision (E.hmacSha256 s₁.keys.encKey.key.toList)
        (blockMessage E (s₁.nonceOf E i).toList b f₁)
        (blockMessage E (s₂.nonceOf E j).toList e f₂) ∨
      Collision (fun m => (E.hmacSha256 s₁.keys.segmentKey.key.toList m).toList.take 16)
        (segmentMessage s₁.publicNonce s₁.frame.syntheticIv (.ofNat i))
        (segmentMessage s₂.publicNonce s₂.frame.syntheticIv (.ofNat j)) ∨
      Collision (E.hmacSha256 s₁.keys.sivKey.key.toList)
        (sivMessage s₁.frame.publicHeader.toList s₁.inner)
        (sivMessage s₂.frame.publicHeader.toList s₂.inner) := by
  have hb₁ := sealV5_eq_ok.mp h₁
  have hb₂ := sealV5_eq_ok.mp h₂
  obtain ⟨hi, hb⟩ := hf₁.position hb₁ hd₁
  obtain ⟨hj, he⟩ := hf₂.position hb₂ hd₂
  rw [← hkeys] at hseed
  unfold blockSeed at hseed
  rcases eq_or_collision hseed with heq | hc
  · obtain ⟨hnonce, hbe⟩ := blockMessage_inj hb he heq
    have hdigest := congrArg Vector.toList hnonce
    simp only [SealedV5.nonceOf, segmentNonce, toList_arrOfList, ← hkeys] at hdigest
    rcases eq_or_collision
      (f := fun m => (E.hmacSha256 s₁.keys.segmentKey.key.toList m).toList.take 16) hdigest with
      heq | hc
    · obtain ⟨-, hsiv, hij⟩ := segmentMessage_inj heq
      rw [hb₁.siv, hb₂.siv, ← hkeys] at hsiv
      rcases eq_or_collision (f := E.hmacSha256 s₁.keys.sivKey.key.toList) hsiv with heq | hc
      · obtain ⟨hheader, hinner⟩ := sivMessage_inj heq
        have hdata := hb₁.inner.symm.trans (hinner.trans hb₂.inner)
        have hnat := congrArg UInt64.toNat hij
        rw [UInt64.toNat_ofNat', UInt64.toNat_ofNat', Nat.mod_eq_of_lt hi, Nat.mod_eq_of_lt hj]
          at hnat
        exact .inl ⟨hnat, hbe, hheader, hinner, packInner_inj hd₁ hd₂ hdata⟩
      · exact .inr (.inr (.inr hc))
    · exact .inr (.inr (.inl hc))
  · exact .inr (.inl hc)

theorem seeds_collide_small : ∃ n s₁ s₂ f₁ f₂,
    sealV5 (Env.zero.withFuel n) [7] [1] (smallOptions 128) .zero = .ok s₁ ∧
      sealV5 (Env.zero.withFuel n) [8] [1] (smallOptions 128) .zero = .ok s₂ ∧
      FeedsAt (Env.zero.withFuel n) (smallOptions 128) s₁ 0 0 f₁ ∧
      FeedsAt (Env.zero.withFuel n) (smallOptions 128) s₂ 0 0 f₂ ∧
      (Collision (Env.zero.hmacSha256 s₁.keys.encKey.key.toList)
          (blockMessage (Env.zero.withFuel n) (s₁.nonceOf (Env.zero.withFuel n) 0).toList 0 f₁)
          (blockMessage (Env.zero.withFuel n) (s₂.nonceOf (Env.zero.withFuel n) 0).toList 0 f₂) ∨
        Collision (fun m => (Env.zero.hmacSha256 s₁.keys.segmentKey.key.toList m).toList.take 16)
          (segmentMessage s₁.publicNonce s₁.frame.syntheticIv 0)
          (segmentMessage s₂.publicNonce s₂.frame.syntheticIv 0) ∨
        Collision (Env.zero.hmacSha256 s₁.keys.sivKey.key.toList)
          (sivMessage s₁.frame.publicHeader.toList s₁.inner)
          (sivMessage s₂.frame.publicHeader.toList s₂.inner)) := by
  obtain ⟨n, hn⟩ := Env.zero_shufflesTerminate.fuel
  obtain ⟨s₁, h₁, -⟩ := zero_seals (hn n le_rfl) [7] 128 (by decide) (by decide)
  obtain ⟨s₂, h₂, -⟩ := zero_seals (hn n le_rfl) [8] 128 (by decide) (by decide)
  have hheader := ok.inj (h₁.header.symm.trans (h₁.publicNonce.trans h₂.publicNonce.symm ▸ h₂.header))
  obtain ⟨hkeys, -⟩ := h₁.keys_eq h₂ hheader
  -- Both inner plaintexts fit in one segment.
  have hone {data s} (h : SealedBy (Env.zero.withFuel n) data [1] (smallOptions 128) .zero s)
      (hd : data.length = 1) : (chunks (smallOptions 128).chunkSize s.inner)[0]? = some s.inner := by
    rw [chunks_of_le h.inner_ne_nil, List.getElem?_cons_zero]
    rw [h.inner, length_packInner, hd]
    decide
  obtain ⟨f₁, hf₁, -⟩ := @SealedBy.feedsAt _ _ _ _ _ _ 0 0 h₁ s₁.inner (hone h₁ rfl) (Nat.succ_pos _)
  obtain ⟨f₂, hf₂, -⟩ := @SealedBy.feedsAt _ _ _ _ _ _ 0 0 h₂ s₂.inner (hone h₂ rfl) (Nat.succ_pos _)
  have hr₁ := sealV5_eq_ok.mpr h₁
  have hr₂ := sealV5_eq_ok.mpr h₂
  refine ⟨n, s₁, s₂, f₁, f₂, hr₁, hr₂, hf₁, hf₂, ?_⟩
  rcases seeds_agree_or_collide hr₁ hr₂ hkeys (by decide) (by decide) hf₁ hf₂ rfl with
    ⟨-, -, -, -, hdata⟩ | hc
  · cases hdata
  · exact hc

end Krcm
