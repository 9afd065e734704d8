import Krcm.V5.TwoRuns
import Mathlib.Data.Int.CardIntervalMod
import Mathlib.Data.Set.Card

/-!
# What the clear part of a container hides

All of a container but the synthetic IV, the ciphertext and the tag is in the
clear. For given options, salt and public nonce it is decided by the padded
length of the plaintext alone (`SealedBy.clear_iff`), whatever the
plaintext, the password and the number of segments. `clear_draws` counts the
draws of the padding under which a plaintext gives a clear part.
-/

namespace Krcm

open Base Outcome

/-! ## The number of padding blocks -/

/-- The most blocks of padding `pack_inner` appends. -/
def PaddingPolicy.maxBlocks : PaddingPolicy → Nat
  | .minimalBlock => 0
  | .randomBlocks maxBlocks => min maxBlocks.toNat 15

/-- How many of the 256 bytes behind the number of blocks draw `k` blocks. The byte is reduced, so
the first counts are drawn once more where the number of counts does not divide 256. -/
def PaddingPolicy.draws (policy : PaddingPolicy) (k : Nat) : Nat :=
  if k ≤ policy.maxBlocks then
    256 / (policy.maxBlocks + 1) + if k < 256 % (policy.maxBlocks + 1) then 1 else 0
  else 0

/-- How many of them pad `n` bytes to `l` bytes. -/
def PaddingPolicy.drawsTo (policy : PaddingPolicy) (n l : Nat) : Nat :=
  if n ≤ l ∧ (l - n) % blockBytes = 0 then policy.draws ((l - n) / blockBytes) else 0

/-- The same draws with another byte behind the number of blocks. -/
def Coins.withCount (coins : Coins) (count : UInt8) : Coins := { coins with count := count }

@[simp] theorem Coins.withCount_count (coins : Coins) (count : UInt8) :
    (coins.withCount count).count = count := rfl

/-- The length of the plaintext and its random padding. -/
def paddedLength (data : Bytes) (policy : PaddingPolicy) (coins : Coins) : Nat :=
  data.length + randomPaddingLen policy coins

theorem toNat_min_fifteen (m : UInt8) : (min m 15).toNat = min m.toNat 15 := by
  have hmin : min m 15 = if m ≤ 15 then m else 15 := rfl
  rw [hmin]
  split
  · rename_i h
    exact (Nat.min_eq_left (UInt8.le_iff_toNat_le.mp h)).symm
  · rename_i h
    have hnat : 15 < m.toNat := Nat.lt_of_not_le fun hle => h (UInt8.le_iff_toNat_le.mpr hle)
    exact (Nat.min_eq_right hnat.le).symm

theorem randomPaddingLen_eq (policy : PaddingPolicy) (coins : Coins) :
    randomPaddingLen policy coins = 32 * (coins.count.toNat % (policy.maxBlocks + 1)) := by
  cases policy with
  | minimalBlock =>
    unfold PaddingPolicy.maxBlocks
    rw [Nat.mod_one]
    rfl
  | randomBlocks m =>
    have hmin := toNat_min_fifteen m
    have hsucc : (min m 15 + 1).toNat = min m.toNat 15 + 1 := by
      have hle := Nat.min_le_right m.toNat 15
      rw [UInt8.toNat_add, hmin, UInt8.toNat_one]
      exact Nat.mod_eq_of_lt (by omega)
    unfold randomPaddingLen PaddingPolicy.maxBlocks
    dsimp only
    split
    · rename_i hzero
      have hnat := congrArg UInt8.toNat hzero
      rw [hmin] at hnat
      rw [hnat]
      simp [Nat.mod_one]
    · rw [UInt8.toNat_mod, hsucc, Nat.mul_comm]

/-- The bytes that a modulus reduces to `k`. -/
theorem ncard_residue {n k : Nat} (hk : k < n) :
    {count : UInt8 | count.toNat % n = k}.ncard = 256 / n + if k < 256 % n then 1 else 0 := by
  have himage : Set.image UInt8.toNat {count : UInt8 | count.toNat % n = k} =
      ((Finset.range 256).filter fun x => x ≡ k [MOD n] : Finset Nat) := by
    ext x
    simp only [Set.mem_image, Set.mem_ofPred_eq, Finset.coe_filter, Finset.mem_range, Nat.ModEq,
      Nat.mod_eq_of_lt hk]
    constructor
    · rintro ⟨count, hcount, rfl⟩
      exact ⟨count.toNat_lt, hcount⟩
    · rintro ⟨hx, hmod⟩
      have hnat : (UInt8.ofNat x).toNat = x := by rw [UInt8.toNat_ofNat', Nat.mod_eq_of_lt hx]
      exact ⟨.ofNat x, by rw [hnat]; exact hmod, hnat⟩
  have hinj : Function.Injective UInt8.toNat := fun _ _ h => UInt8.toNat_inj.mp h
  rw [← Set.ncard_image_of_injective _ hinj, himage, Set.ncard_coe_finset,
    ← Nat.count_eq_card_filter_range, Nat.count_modEq_card 256 (by omega) k, Nat.mod_eq_of_lt hk]

/-- The bytes that draw `k` blocks. -/
theorem ncard_draws (policy : PaddingPolicy) (k : Nat) :
    {count : UInt8 | count.toNat % (policy.maxBlocks + 1) = k}.ncard = policy.draws k := by
  by_cases hk : k ≤ policy.maxBlocks
  · rw [PaddingPolicy.draws, if_pos hk, ncard_residue (Nat.lt_succ_of_le hk)]
  · have hempty : {count : UInt8 | count.toNat % (policy.maxBlocks + 1) = k} = ∅ := by
      apply Set.eq_empty_of_forall_notMem
      intro count hcount
      rw [Set.mem_ofPred_eq] at hcount
      have hlt : count.toNat % (policy.maxBlocks + 1) < policy.maxBlocks + 1 :=
        Nat.mod_lt _ (Nat.succ_pos _)
      omega
    rw [PaddingPolicy.draws, if_neg hk, hempty, Set.ncard_empty]

/-- The bytes that pad `n` bytes to `l` bytes. -/
theorem ncard_drawsTo (policy : PaddingPolicy) (n l : Nat) :
    {count : UInt8 | n + 32 * (count.toNat % (policy.maxBlocks + 1)) = l}.ncard =
      policy.drawsTo n l := by
  by_cases hreach : n ≤ l ∧ (l - n) % blockBytes = 0
  · rw [PaddingPolicy.drawsTo, if_pos hreach, ← ncard_draws]
    dsimp only [blockBytes] at hreach ⊢
    congr 1
    ext count
    rw [Set.mem_ofPred_eq, Set.mem_ofPred_eq]
    omega
  · have hempty : {count : UInt8 | n + 32 * (count.toNat % (policy.maxBlocks + 1)) = l} = ∅ := by
      apply Set.eq_empty_of_forall_notMem
      intro count hcount
      rw [Set.mem_ofPred_eq] at hcount
      dsimp only [blockBytes] at hreach
      omega
    rw [PaddingPolicy.drawsTo, if_neg hreach, hempty, Set.ncard_empty]

/-- The counts are drawn equally often only where their number divides 256. -/
theorem draws_even_iff (policy : PaddingPolicy) :
    (∀ k ≤ policy.maxBlocks, policy.draws k = policy.draws 0) ↔
      256 % (policy.maxBlocks + 1) = 0 := by
  have hfirst : policy.draws 0 =
      256 / (policy.maxBlocks + 1) + if 0 < 256 % (policy.maxBlocks + 1) then 1 else 0 :=
    if_pos (Nat.zero_le _)
  constructor
  · intro h
    have hlast := h policy.maxBlocks le_rfl
    have hrem : 256 % (policy.maxBlocks + 1) < policy.maxBlocks + 1 := Nat.mod_lt _ (Nat.succ_pos _)
    rw [hfirst, PaddingPolicy.draws, if_pos le_rfl, if_neg (by omega)] at hlast
    split at hlast <;> omega
  · intro hdvd k hk
    rw [hfirst, PaddingPolicy.draws, if_pos hk, hdvd]
    rfl

/-! ## The table and the length of the plaintext -/

variable {E : Env} {data₁ data₂ password₁ password₂ : Bytes} {opts opts₁ opts₂ : EncryptV5Options}
  {coins₁ coins₂ : Coins} {s₁ s₂ : SealedV5}

/-- The lengths of the pieces are decided by the length of the whole. -/
theorem map_length_chunks {α : Type} {n : Nat} (hn : 0 < n) :
    ∀ {l₁ l₂ : List α}, l₁.length = l₂.length →
      (chunks n l₁).map List.length = (chunks n l₂).map List.length := by
  intro l₁
  induction hk : l₁.length using Nat.strong_induction_on generalizing l₁ with
  | _ k ih =>
    intro l₂ hlen
    by_cases hnil : l₁ = []
    · subst hnil
      rw [List.length_nil] at hk
      rw [List.length_eq_zero_iff.mp (hlen.symm.trans hk.symm)]
    · have hpos := List.length_pos_iff.mpr hnil
      have hnil₂ : l₂ ≠ [] := List.length_pos_iff.mp (by omega)
      rw [chunks_cons hn hnil, chunks_cons hn hnil₂, List.map_cons, List.map_cons,
        List.length_take, List.length_take, hk, hlen]
      congr 1
      apply ih (k - n) (by omega)
      · rw [List.length_drop, hk]
      · rw [List.length_drop, hlen]

/-- Pieces have at most the chunk size. -/
theorem length_le_of_mem_chunks {α : Type} {n : Nat} {l piece : List α} (h : piece ∈ chunks n l) :
    piece.length ≤ n := by
  obtain ⟨i, hi, rfl⟩ := List.getElem_of_mem h
  rw [getElem_chunks, List.length_take]
  exact Nat.min_le_left _ _

/-- The lengths the table of a run records. -/
def pieceLengths (pieces : List Bytes) : List SegmentLengths :=
  (pieces.map List.length).map fun n => (.ofNat n, .ofNat (32 * (n / 32 + 1)))

theorem SealedBy.table (h : SealedBy E data₁ password₁ opts₁ coins₁ s₁) :
    s₁.frame.segmentTable = serializeSegmentTable
      (runningEntries 0 0 0 (pieceLengths (chunks opts₁.chunkSize s₁.inner))) := by
  obtain ⟨segments, hh, hp, -⟩ := h.segments
  rw [hh.table, ← hp]
  congr 2
  unfold lengthsOf pieceLengths
  rw [List.map_map, List.map_map]
  apply List.map_congr_left
  intro segment hmem
  rw [hh.sealed.length_ciphertext segment hmem]
  rfl

theorem map_toNat_pieceLengths {pieces : List Bytes} (h : ∀ piece ∈ pieces, piece.length < 2 ^ 64) :
    (pieceLengths pieces).map (fun l => l.1.toNat) = pieces.map List.length := by
  unfold pieceLengths
  rw [List.map_map, List.map_map]
  apply List.map_congr_left
  intro piece hmem
  exact (UInt64.toNat_ofNat'.trans (Nat.mod_eq_of_lt (h piece hmem)))

theorem length_eq_of_pieceLengths {size : Nat} (hs : 0 < size) (hlt : size < 2 ^ 64)
    {inner₁ inner₂ : Bytes}
    (h : pieceLengths (chunks size inner₁) = pieceLengths (chunks size inner₂)) :
    inner₁.length = inner₂.length := by
  have hsum (inner : Bytes) :
      ((pieceLengths (chunks size inner)).map fun l => l.1.toNat).sum = inner.length := by
    rw [map_toNat_pieceLengths fun _ hmem => (length_le_of_mem_chunks hmem).trans_lt hlt,
      ← List.length_flatten, flatten_chunks hs]
  rw [← hsum inner₁, h, hsum inner₂]

/-- **The table shows the length of the inner plaintext** and nothing else of it. -/
theorem SealedBy.table_eq_iff (h₁ : SealedBy E data₁ password₁ opts₁ coins₁ s₁)
    (h₂ : SealedBy E data₂ password₂ opts₂ coins₂ s₂) (hsize : opts₁.chunkSize = opts₂.chunkSize) :
    s₁.frame.segmentTable = s₂.frame.segmentTable ↔ s₁.inner.length = s₂.inner.length := by
  rw [h₁.table, h₂.table, hsize]
  constructor
  · intro h
    exact length_eq_of_pieceLengths opts₂.chunkSize_pos opts₂.chunkSize_lt (serialize_running_inj h)
  · intro h
    unfold pieceLengths
    rw [map_length_chunks opts₂.chunkSize_pos h]

/-! ## The clear part -/

theorem Frame.length_clear (frame : Frame) :
    frame.clear.length = 93 + frame.segmentTable.length := by
  have hm : magicV5.length = 8 := by decide
  simp only [Frame.clear, List.length_append, hm, length_beBytes, Vector.length_toList,
    List.length_cons, List.length_nil, headerV5Size]
  omega

/-- The clear part shows the header and the table. -/
theorem Frame.parts_of_clear {f g : Frame} (h : f.clear = g.clear) :
    f.publicHeader = g.publicHeader ∧ f.segmentTable = g.segmentTable := by
  have hlen := congrArg List.length h
  rw [f.length_clear, g.length_clear] at hlen
  refine ⟨?_, Frame.table_of_clear (by omega) h⟩
  have hfront : (magicV5 ++ [5] ++ beBytes 4 headerV5Size ++ f.publicHeader.toList).length =
      (magicV5 ++ [5] ++ beBytes 4 headerV5Size ++ g.publicHeader.toList).length := by
    simp only [List.length_append, Vector.length_toList]
  exact Vector.toList_inj.mp (List.append_cancel_left (List.append_inj h hfront).1)

/-- Runs with one header and one chunk size show the same where the inner plaintexts are equally
long. -/
theorem SealedBy.clear_eq (h₁ : SealedBy E data₁ password₁ opts₁ coins₁ s₁)
    (h₂ : SealedBy E data₂ password₂ opts₂ coins₂ s₂) (hsize : opts₁.chunkSize = opts₂.chunkSize)
    (hheader : s₁.frame.publicHeader = s₂.frame.publicHeader)
    (hinner : s₁.inner.length = s₂.inner.length) : s₁.frame.clear = s₂.frame.clear := by
  have htable := (h₁.table_eq_iff h₂ hsize).mpr hinner
  have hciphertext : s₁.frame.ciphertext.length = s₂.frame.ciphertext.length := by
    have hbytes : s₁.frame.bytes.length = s₂.frame.bytes.length := by
      rw [h₁.length_bytes, h₂.length_bytes, hsize, hinner]
    rw [length_frame, length_frame, htable, h₁.tag, h₂.tag, Vector.length_toList,
      Vector.length_toList] at hbytes
    omega
  rw [Frame.clear, Frame.clear, hheader, htable, hciphertext]

theorem SealedBy.length_inner (h : SealedBy E data₁ password₁ opts₁ coins₁ s₁) :
    s₁.inner.length = 76 + paddedLength data₁ opts₁.paddingPolicy coins₁ := by
  rw [h.inner, length_packInner, paddedLength, Nat.add_assoc]

/-- Two runs with one salt and one public nonce, given or drawn. -/
structure SamePublic (opts : EncryptV5Options) (coins₁ coins₂ : Coins) : Prop where
  salt : opts.salt.getD coins₁.salt = opts.salt.getD coins₂.salt
  publicNonce : opts.publicNonce.getD coins₁.publicNonce = opts.publicNonce.getD coins₂.publicNonce

theorem SealedBy.header_eq (h₁ : SealedBy E data₁ password₁ opts coins₁ s₁)
    (h₂ : SealedBy E data₂ password₂ opts coins₂ s₂) (hpublic : SamePublic opts coins₁ coins₂) :
    s₁.frame.publicHeader = s₂.frame.publicHeader := by
  have hh := h₁.header
  rw [h₁.publicNonce, hpublic.salt, hpublic.publicNonce, ← h₂.publicNonce, h₂.header] at hh
  exact (ok.inj hh).symm

/-- **What two runs show is the same exactly where their padded plaintexts are equally long.** -/
theorem SealedBy.clear_iff (h₁ : SealedBy E data₁ password₁ opts coins₁ s₁)
    (h₂ : SealedBy E data₂ password₂ opts coins₂ s₂) (hpublic : SamePublic opts coins₁ coins₂) :
    s₁.frame.clear = s₂.frame.clear ↔
      paddedLength data₁ opts.paddingPolicy coins₁ =
        paddedLength data₂ opts.paddingPolicy coins₂ := by
  constructor
  · intro h
    have hinner := (h₁.table_eq_iff h₂ rfl).mp (Frame.parts_of_clear h).2
    rw [h₁.length_inner, h₂.length_inner] at hinner
    omega
  · intro h
    refine h₁.clear_eq h₂ rfl (h₁.header_eq h₂ hpublic) ?_
    rw [h₁.length_inner, h₂.length_inner, h]

/-- A clear part can come of any plaintext that is padded to the length it shows, under any
password. -/
theorem SealedBy.shown_iff (hE : E.ShufflesReturn) (hS : E.ScryptAccepts) (hpw : password₂ ≠ [])
    (h : SealedBy E data₁ password₁ opts coins₁ s₁) (hlen : s₁.frame.bytes.length < 2 ^ 64)
    (hpublic : SamePublic opts coins₂ coins₁) :
    (∃ s₂, sealV5 E data₂ password₂ opts coins₂ = .ok s₂ ∧ s₂.frame.clear = s₁.frame.clear) ↔
      paddedLength data₂ opts.paddingPolicy coins₂ =
        paddedLength data₁ opts.paddingPolicy coins₁ := by
  constructor
  · rintro ⟨s₂, h₂, hclear⟩
    exact ((sealV5_eq_ok.mp h₂).clear_iff h hpublic).mp hclear
  · intro hpadded
    obtain ⟨root₁, hroot₁, -⟩ := h.keys
    obtain ⟨-, -, hk⟩ := (deriveRootKey_returns_iff hS).mp ⟨root₁, hroot₁⟩
    obtain ⟨root, hroot⟩ := deriveRootKey_ok hS hpw
      (show (opts.salt.getD coins₂.salt).toList.length = saltBytes from Vector.length_toList) hk
    have hheader := h.header
    rw [h.publicNonce, ← hpublic.salt, ← hpublic.publicNonce] at hheader
    rw [h.length_bytes, h.length_inner, ← hpadded, paddedLength, ← Nat.add_assoc] at hlen
    obtain ⟨s₂, h₂⟩ := sealV5_returns_of_header hE hroot hheader hlen
    exact ⟨s₂, sealV5_eq_ok.mpr h₂, (h₂.clear_iff h hpublic).mpr hpadded⟩

/-- **What the random padding hides.** Whatever a run shows, another plaintext under another
password shows the same, with one salt and public nonce, for exactly the draws that pad it to the
same length. -/
theorem clear_draws (hE : E.ShufflesReturn) (hS : E.ScryptAccepts) (hpw : password₂ ≠ [])
    (h : sealV5 E data₁ password₁ opts coins₁ = .ok s₁) (hlen : s₁.frame.bytes.length < 2 ^ 64)
    (hpublic : SamePublic opts coins₂ coins₁) (data₂ : Bytes) :
    {count : UInt8 | ∃ s₂, sealV5 E data₂ password₂ opts (coins₂.withCount count) = .ok s₂ ∧
      s₂.frame.clear = s₁.frame.clear}.ncard =
      opts.paddingPolicy.drawsTo data₂.length (paddedLength data₁ opts.paddingPolicy coins₁) := by
  rw [← ncard_drawsTo]
  congr 1
  ext count
  have hcount : SamePublic opts (coins₂.withCount count) coins₁ :=
    ⟨hpublic.salt, hpublic.publicNonce⟩
  rw [Set.mem_ofPred_eq, (sealV5_eq_ok.mp h).shown_iff hE hS hpw hlen hcount, Set.mem_ofPred_eq,
    paddedLength, randomPaddingLen_eq, Coins.withCount_count]

/-- `smallOptions` with up to `maxBlocks` blocks of random padding. -/
def paddedOptions (maxBlocks : UInt8) : EncryptV5Options :=
  { smallOptions 128 with paddingPolicy := .randomBlocks maxBlocks }

/-- A byte in two blocks of padding, and 33 bytes that 24 of 256 draws pad to as much. -/
theorem clear_draws_small : ∃ n s₁,
    sealV5 (Env.zero.withFuel n) [7] [1] (paddedOptions 10) (Coins.zero.withCount 2) = .ok s₁ ∧
      {count : UInt8 | ∃ s₂, sealV5 (Env.zero.withFuel n) (List.replicate 33 0) [2]
        (paddedOptions 10) (Coins.zero.withCount count) = .ok s₂ ∧
          s₂.frame.clear = s₁.frame.clear}.ncard = 24 := by
  obtain ⟨n, hn⟩ := Env.zero_shufflesTerminate.fuel
  have hS : (Env.zero.withFuel n).ScryptAccepts := fun _ _ _ _ _ _ => ⟨_, rfl⟩
  have hk : (paddedOptions 10).kdf.Admitted := by decide
  obtain ⟨s₁, h₁⟩ := @sealV5_returns _ [7] [1] (paddedOptions 10) (Coins.zero.withCount 2)
    (hn n le_rfl) hS (List.cons_ne_nil _ _) hk (by decide) (by decide)
  have hlen : s₁.frame.bytes.length < 2 ^ 64 := by
    rw [h₁.length_bytes, h₁.length_inner]
    decide
  have hpw : ([2] : Bytes) ≠ [] := List.cons_ne_nil _ _
  refine ⟨n, s₁, sealV5_eq_ok.mpr h₁, ?_⟩
  exact clear_draws (hn n le_rfl) hS hpw (sealV5_eq_ok.mpr h₁) hlen ⟨rfl, rfl⟩ _

end Krcm
