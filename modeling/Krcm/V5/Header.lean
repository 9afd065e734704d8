import Krcm.Kdf
import Mathlib.Data.Nat.Log

/-!
# The v5 public header

`pack_public_header` and `parse_public_header` of `format_v5.rs`. Parsing
undoes packing (`parsePublicHeader_pack`), so that a header determines the key
derivation parameters, the salt and the public nonce. The segment size leaves
only the logarithm of its next power of two in the header.
-/

namespace Krcm

open Base Outcome

inductive PaddingPolicy where
  | minimalBlock
  | randomBlocks (maxBlocks : UInt8)
  deriving DecidableEq, Repr

structure EncryptV5Options where
  kdf : KdfParams
  paddingPolicy : PaddingPolicy
  segmentSize : UInt64
  workers : UInt64
  salt : Option Salt
  publicNonce : Option Nonce

structure ParsedHeader where
  kdf : KdfParams
  salt : Salt
  publicNonce : Nonce
  deriving DecidableEq

/-- `requested_segment_size.max(BLOCK_BYTES)`. -/
def EncryptV5Options.chunkSize (opts : EncryptV5Options) : Nat :=
  max opts.segmentSize.toNat blockBytes

/-- `x.next_power_of_two()` of a `usize`: past `2 ^ 63` a panic, or zero. -/
def Env.nextPowerOfTwo (E : Env) (x : Nat) : Run Nat := E.add (2 ^ Nat.clog 2 x - 1) 1

/-- `x.trailing_zeros()` of a `usize`. -/
def trailingZeros (x : Nat) : Nat := ((List.range 64).takeWhile fun i => !x.testBit i).length

/-- Bytes 10 to 24: `kdf_id`, `flags`, `pbkdf2_iterations`, `scrypt_n_log2`, `scrypt_r` and
`scrypt_p`. -/
def packKdf : KdfParams → Run (Arr 15)
  | .pbkdf2 iterations => do
    rejectIf (iterations = 0 ∨ iterations > maxPbkdf2Iterations) .invalidParameter
    .ok (arrOfList ([1, 0] ++ u32Bytes iterations ++ List.replicate 9 0) (by simp))
  | .scrypt nLog2 r p => do
    rejectIf (nLog2 > 15 ∨ r = 0 ∨ r > 8 ∨ p = 0 ∨ p > 2) .invalidParameter
    .ok (arrOfList ([2, 0] ++ List.replicate 4 0 ++ [nLog2] ++ u32Bytes r ++ u32Bytes p) (by simp))

def PaddingPolicy.byte : PaddingPolicy → UInt8
  | .minimalBlock => 0
  | .randomBlocks _ => 1

def packPublicHeader (E : Env) (opts : EncryptV5Options) (salt : Salt) (publicNonce : Nonce) :
    Run (Arr headerV5Size) := do
  let kdf ← packKdf opts.kdf
  let power ← E.nextPowerOfTwo opts.chunkSize
  let segmentSizeLog2 := UInt8.ofNat (trailingZeros power)
  .ok (arrOfList (magicV5 ++ [5, 1] ++ kdf.toList ++ [segmentSizeLog2, opts.paddingPolicy.byte] ++
    List.replicate 5 0 ++ salt.toList ++ publicNonce.toList) (by simp [magicV5, ascii]))

def parseKdf (header : Bytes) : Run KdfParams := do
  let kdfId ← index header 10
  if kdfId = 1 then do
    let iterations ← slice header 12 16
    .ok (.pbkdf2 (u32OfBytes iterations))
  else if kdfId = 2 then do
    let nLog2 ← index header 16
    let r ← slice header 17 21
    let p ← slice header 21 25
    .ok (.scrypt nLog2 (u32OfBytes r) (u32OfBytes p))
  else
    .err .invalidParameter

def parsePublicHeader (header : Bytes) : Run ParsedHeader := do
  rejectIf (header.length ≠ headerV5Size) .format
  let magic ← slice header 0 8
  rejectIf (magic ≠ magicV5) .format
  let version ← index header 8
  rejectIf (version ≠ 5) .format
  let headerVersion ← index header 9
  rejectIf (headerVersion ≠ 1) .format
  let flags ← index header 11
  rejectIf (flags ≠ 0) .format
  let reserved ← slice header 27 32
  rejectIf (reserved.any fun b => b ≠ 0) .format
  let padPolicy ← index header 26
  rejectIf (padPolicy > 1) .invalidParameter
  let kdf ← parseKdf header
  let salt ← sliceVec header 32 16
  let publicNonce ← sliceVec header 48 16
  .ok ⟨kdf, salt, publicNonce⟩

/-! ## The segment size byte -/

theorem nextPowerOfTwo_ok {E : Env} {x : Nat} (h : x ≤ 2 ^ 63) :
    E.nextPowerOfTwo x = .ok (2 ^ Nat.clog 2 x) := by
  have hk : 2 ^ Nat.clog 2 x ≤ 2 ^ 63 := Nat.pow_le_pow_right (by omega) (Nat.clog_le_of_le_pow h)
  have hpos : 0 < 2 ^ Nat.clog 2 x := by positivity
  unfold Env.nextPowerOfTwo
  rw [Env.add_ok (by omega), Nat.sub_add_cancel hpos]

/-! ## Parsing undoes packing -/

theorem packKdf_ok {params : KdfParams} (h : params.Admitted) : ∃ v, packKdf params = .ok v := by
  cases params with
  | pbkdf2 iterations =>
    obtain ⟨h0, hm⟩ := h
    exact ⟨_, by rw [packKdf, rejectIf_false (by simp [h0, hm]), ok_bind]⟩
  | scrypt nLog2 r p =>
    obtain ⟨hn, h0, h8, hp0, h2⟩ := h
    exact ⟨_, by rw [packKdf, rejectIf_false (by simp [hn, h0, h8, hp0, h2]), ok_bind]⟩

/-- Reading the key derivation fields back, behind the ten bytes before them. -/
theorem parseKdf_packKdf {params : KdfParams} {v : Arr 15} {q s : Bytes}
    (h : packKdf params = .ok v) (hq : q.length = 10) :
    parseKdf (q ++ (v.toList ++ s)) = .ok params := by
  cases params with
  | pbkdf2 iterations =>
    obtain ⟨-, -, hv⟩ := bind_eq_ok.mp h
    cases hv
    have hid : index (q ++ ([1, 0] ++ u32Bytes iterations ++ List.replicate 9 0 ++ s)) 10 =
        (.ok 1 : Run UInt8) := by
      simp [index_skip, hq, index_head]
    have hit : slice (q ++ ([1, 0] ++ u32Bytes iterations ++ List.replicate 9 0 ++ s)) 12 16 =
        (.ok (u32Bytes iterations) : Run Bytes) := by
      simp [slice_skip, hq, slice_cons, slice_head]
    unfold parseKdf
    rw [toList_arrOfList, hid, ok_bind, if_pos rfl, hit, ok_bind, u32OfBytes_u32Bytes]
  | scrypt nLog2 r p =>
    obtain ⟨-, -, hv⟩ := bind_eq_ok.mp h
    cases hv
    rw [toList_arrOfList]
    generalize hl : q ++ ([2, 0] ++ List.replicate 4 0 ++ [nLog2] ++ u32Bytes r ++ u32Bytes p ++ s) = l
    have hid : index l 10 = (.ok 2 : Run UInt8) := by
      simp [← hl, index_skip, hq, index_head]
    have hn : index l 16 = (.ok nLog2 : Run UInt8) := by
      simp [← hl, index_skip, hq, index_cons, index_head]
    have hr : slice l 17 21 = (.ok (u32Bytes r) : Run Bytes) := by
      simp [← hl, slice_skip, hq, slice_cons, slice_head]
    have hp : slice l 21 25 = (.ok (u32Bytes p) : Run Bytes) := by
      simp [← hl, slice_skip, hq, slice_cons, slice_head]
    unfold parseKdf
    rw [hid, ok_bind, if_neg (by decide), if_pos rfl, hn, ok_bind, hr, ok_bind, hp, ok_bind,
      u32OfBytes_u32Bytes, u32OfBytes_u32Bytes]

theorem packKdf_flags {params : KdfParams} {v : Arr 15} (h : packKdf params = .ok v) :
    ∃ kdfId rest, v.toList = kdfId :: 0 :: rest := by
  cases params with
  | pbkdf2 iterations =>
    obtain ⟨-, -, hv⟩ := bind_eq_ok.mp h
    cases hv
    exact ⟨1, _, rfl⟩
  | scrypt nLog2 r p =>
    obtain ⟨-, -, hv⟩ := bind_eq_ok.mp h
    cases hv
    exact ⟨2, _, rfl⟩

theorem packPublicHeader_ok {E : Env} {opts : EncryptV5Options} (hk : opts.kdf.Admitted)
    (hs : opts.segmentSize.toNat ≤ 2 ^ 63) (salt : Salt) (publicNonce : Nonce) :
    ∃ header, packPublicHeader E opts salt publicNonce = .ok header := by
  obtain ⟨kdf, hkdf⟩ := packKdf_ok hk
  have hc : opts.chunkSize ≤ 2 ^ 63 := max_le hs (by decide)
  exact ⟨_, by rw [packPublicHeader, hkdf, ok_bind, nextPowerOfTwo_ok hc, ok_bind]⟩

/-- **Parsing undoes packing.** -/
theorem parsePublicHeader_pack {E : Env} {opts : EncryptV5Options} {salt : Salt}
    {publicNonce : Nonce} {header : Arr headerV5Size}
    (h : packPublicHeader E opts salt publicNonce = .ok header) :
    parsePublicHeader header.toList = .ok ⟨opts.kdf, salt, publicNonce⟩ := by
  obtain ⟨kdf, hk, power, -, hv⟩ := by simpa only [packPublicHeader, bind_eq_ok] using h
  cases hv
  rw [toList_arrOfList]
  generalize UInt8.ofNat (trailingZeros power) = log2
  have hpol : ¬ opts.paddingPolicy.byte > 1 := by unfold PaddingPolicy.byte; split <;> decide
  generalize opts.paddingPolicy.byte = policy at hpol
  have hkdf := parseKdf_packKdf (q := magicV5 ++ [5, 1])
    (s := [log2, policy] ++ (List.replicate 5 0 ++ (salt.toList ++ publicNonce.toList))) hk (by decide)
  obtain ⟨kdfId, rest, hflags⟩ := packKdf_flags hk
  have hrest : rest.length = 13 := by simpa [hflags] using kdf.length_toList
  simp only [hflags, List.append_assoc] at hkdf ⊢
  have hsalt : sliceVec (salt.toList ++ publicNonce.toList) 0 16 = (.ok salt : Run Salt) :=
    sliceVec_head salt _
  have hnonce : sliceVec publicNonce.toList 0 16 = (.ok publicNonce : Run Nonce) := by
    simpa using sliceVec_head publicNonce []
  have hres : slice (0 :: 0 :: 0 :: 0 :: 0 :: (salt.toList ++ publicNonce.toList)) 0 5 =
      (.ok (List.replicate 5 0) : Run Bytes) :=
    slice_head (m := List.replicate 5 0) rfl
  unfold parsePublicHeader
  rw [rejectIf_false (by simp [hrest]), ok_bind, slice_head length_magicV5, ok_bind,
    rejectIf_false (by simp), ok_bind, hkdf]
  simp [slice_skip, index_skip, sliceVec_skip, slice_cons, index_cons, sliceVec_cons, index_head,
    hsalt, hnonce, hres, hrest, hpol, rejectIf]

theorem parseKdf_settles {header : Bytes} (hlen : header.length = headerV5Size) :
    Settles (parseKdf header) := by
  unfold parseKdf
  refine settles_bind (index_settles (by simp [hlen])) fun kdfId _ => ?_
  split_ifs
  · exact settles_bind (slice_settles (by omega) (by simp [hlen])) fun _ _ => settles_ok _
  · refine settles_bind (index_settles (by simp [hlen])) fun _ _ => ?_
    refine settles_bind (slice_settles (by omega) (by simp [hlen])) fun _ _ => ?_
    exact settles_bind (slice_settles (by omega) (by simp [hlen])) fun _ _ => settles_ok _
  · exact settles_err _

theorem parsePublicHeader_settles (header : Bytes) : Settles (parsePublicHeader header) := by
  by_cases hlen : header.length = headerV5Size
  · simp [parsePublicHeader, settles_bind_iff, parseKdf_settles hlen, slice_settles,
      sliceVec_settles, index_settles, hlen]
  · unfold parsePublicHeader
    rw [rejectIf_true hlen]
    exact settles_err _

end Krcm
