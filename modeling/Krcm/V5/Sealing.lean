import Krcm.V5.Opening

/-!
# What encryption writes

`sealV5_eq_ok` lists what a run of `encrypt_v5` has computed. `SealedBy.holds`
connects it with decryption: the frame holds the segments cut from the inner
plaintext. `sealedLength` is the length of the container, and a run whose
container is no longer than a `usize` counts returns (`sealV5_returns`).
-/

namespace Krcm

open Base Outcome

/-- The values a run of `encrypt_v5` has computed, in the order it computes them. -/
structure SealedBy (E : Env) (data password : Bytes) (opts : EncryptV5Options) (coins : Coins)
    (s : SealedV5) : Prop where
  publicNonce : s.publicNonce = opts.publicNonce.getD coins.publicNonce
  header : packPublicHeader E opts (opts.salt.getD coins.salt) s.publicNonce =
    .ok s.frame.publicHeader
  keys : ∃ root, deriveRootKey E password (opts.salt.getD coins.salt).toList opts.kdf = .ok root ∧
    s.keys = V5Keys.derive E root
  inner : s.inner = packInner E data opts.paddingPolicy coins
  siv : s.frame.syntheticIv = syntheticIv E s.keys s.frame.publicHeader.toList s.inner
  pieces : encryptPieces E s.keys s.publicNonce s.frame.syntheticIv
    (chunks opts.chunkSize s.inner) = .ok (s.frame.segmentTable, s.frame.ciphertext)
  tag : s.frame.tag = (tagV5 E s.keys s.frame.publicHeader.toList s.frame.syntheticIv
    s.frame.segmentTable s.frame.ciphertext).toList

variable {E : Env} {data password : Bytes} {opts : EncryptV5Options} {coins : Coins} {s : SealedV5}

theorem sealV5_eq_ok :
    sealV5 E data password opts coins = .ok s ↔ SealedBy E data password opts coins s := by
  simp only [sealV5, bind_eq_ok, encryptSegments_eq_ok, Prod.exists, ok.injEq]
  constructor
  · rintro ⟨header, hh, root, hr, table, ct, hp, hs⟩
    subst hs
    exact ⟨rfl, hh, ⟨root, hr, rfl⟩, rfl, rfl, hp, rfl⟩
  · intro h
    obtain ⟨root, hr, hk⟩ := h.keys
    obtain ⟨keys, publicNonce, inner, header, siv, table, ct, tag⟩ := s
    obtain ⟨hn, hh, -, hi, hsiv, hp, ht⟩ := h
    dsimp only at hn hh hk hi hsiv hp ht
    subst hn hk hi hsiv ht
    exact ⟨header, hh, root, hr, table, ct, hp, rfl⟩

theorem encryptV5_eq_ok {container : Bytes} : encryptV5 E data password opts coins = .ok container ↔
    ∃ s, SealedBy E data password opts coins s ∧ container = s.frame.bytes := by
  simp only [encryptV5, bind_eq_ok, sealV5_eq_ok, ok.injEq, eq_comm (a := container)]

theorem EncryptV5Options.chunkSize_pos (opts : EncryptV5Options) : 0 < opts.chunkSize :=
  Nat.lt_of_lt_of_le (by decide) (Nat.le_max_right _ _)

/-- The segments of a run: its inner plaintext cut to the chunk size. -/
theorem SealedBy.segments (h : SealedBy E data password opts coins s) :
    ∃ segments, Holds E s.keys s.publicNonce s.frame segments ∧
      segments.map Prod.fst = chunks opts.chunkSize s.inner ∧ plainOf segments = s.inner := by
  obtain ⟨segments, hs, hp, ht, hc⟩ := encryptPieces_eq_ok h.pieces
  have hplain : plainOf segments = s.inner := by
    unfold plainOf
    rw [← hp, flatten_chunks opts.chunkSize_pos]
  refine ⟨segments, ⟨?_, hs, ht, hc, by rw [hplain, h.siv], h.tag⟩, hp.symm, hplain⟩
  rintro rfl
  have hlen : s.inner.length = 0 := by rw [← hplain]; rfl
  rw [h.inner, length_packInner] at hlen
  omega

/-! ## The length of the container -/

/-- The table entry and the ciphertext of a segment of `n` bytes. -/
def segmentCost (n : Nat) : Nat := 40 + 32 * (n / 32 + 1)

/-- The length of a container around `n` inner bytes cut to `size`. -/
def sealedLength (size n : Nat) : Nat :=
  157 + n / size * segmentCost size + if n % size = 0 then 0 else segmentCost (n % size)

theorem segmentCost_chunks {size : Nat} (hs : 0 < size) (l : Bytes) :
    157 + ((chunks size l).map fun piece => segmentCost piece.length).sum =
      sealedLength size l.length := by
  induction hk : l.length using Nat.strong_induction_on generalizing l with
  | _ k ih =>
    by_cases hl : l = []
    · subst hl hk
      simp [sealedLength]
    · have hpos : 0 < l.length := List.length_pos_iff.mpr hl
      rw [chunks_cons hs hl, List.map_cons, List.sum_cons, List.length_take]
      have hrest := ih (l.drop size).length (by simp; omega) (l.drop size) rfl
      rw [List.length_drop, hk] at hrest
      rw [hk] at hpos ⊢
      by_cases hle : size ≤ k
      · have hdiv : (k - size) / size + 1 = k / size := by
          rw [Nat.div_eq_sub_div hs hle]
        have hmod : (k - size) % size = k % size := (Nat.mod_eq_sub_mod hle).symm
        rw [Nat.min_eq_left hle, sealedLength, ← hdiv, ← hmod, Nat.add_mul, Nat.one_mul]
        rw [sealedLength] at hrest
        omega
      · have hlt := Nat.lt_of_not_le hle
        rw [Nat.sub_eq_zero_of_le hlt.le] at hrest
        rw [Nat.min_eq_right hlt.le, sealedLength, Nat.div_eq_of_lt hlt, Nat.mod_eq_of_lt hlt,
          if_neg (by omega)]
        simp only [sealedLength, Nat.zero_div, Nat.zero_mod, ↓reduceIte] at hrest
        omega

theorem Sealed.cost {keys : V5Keys} {publicNonce : Nonce} {siv : Hash} {ordinal : Nat}
    {segments : List Segment} (h : Sealed E keys publicNonce siv ordinal segments) :
    ((segments.map Prod.fst).map fun piece => segmentCost piece.length).sum =
      segments.length * 40 + (ciphertextOf segments).length := by
  induction segments generalizing ordinal with
  | nil => rfl
  | cons segment segments ih =>
    have hlen := h.length_ciphertext segment List.mem_cons_self
    rw [List.map_cons, List.map_cons, List.sum_cons, ih h.2, ciphertextOf_cons, List.length_append,
      List.length_cons, segmentCost]
    omega

/-- The segments of a chunked plaintext, their entries and the 157 other bytes. -/
theorem Sealed.sealedLength {keys : V5Keys} {publicNonce : Nonce} {siv : Hash} {size : Nat}
    {inner : Bytes} {segments : List Segment} (h : Sealed E keys publicNonce siv 0 segments)
    (hs : 0 < size) (hp : segments.map Prod.fst = chunks size inner) :
    sealedLength size inner.length =
      157 + segments.length * 40 + (ciphertextOf segments).length := by
  rw [← segmentCost_chunks hs, ← hp, h.cost, Nat.add_assoc]

/-- A run writes a container of the computed length. -/
theorem SealedBy.length_bytes (h : SealedBy E data password opts coins s) :
    s.frame.bytes.length = sealedLength opts.chunkSize s.inner.length := by
  obtain ⟨segments, hh, hp, -⟩ := h.segments
  have hlen : (runningEntries 0 0 0 (lengthsOf segments)).length = segments.length := by
    rw [length_runningEntries, lengthsOf, List.length_map]
  rw [length_frame, hh.tag, Vector.length_toList, hh.table, length_serialize, hlen, hh.ciphertext,
    hh.sealed.sealedLength opts.chunkSize_pos hp]
  omega

/-! ## Runs that return -/

/-- A run whose root key is derived and whose header is packed returns. -/
theorem sealV5_returns_of_header (hE : E.ShufflesReturn) {root : RootKey} {header : Arr headerV5Size}
    (hr : deriveRootKey E password (opts.salt.getD coins.salt).toList opts.kdf = .ok root)
    (hh : packPublicHeader E opts (opts.salt.getD coins.salt)
      (opts.publicNonce.getD coins.publicNonce) = .ok header)
    (hlen : sealedLength opts.chunkSize
      (76 + data.length + randomPaddingLen opts.paddingPolicy coins) < 2 ^ 64) :
    ∃ s, SealedBy E data password opts coins s := by
  let publicNonce := opts.publicNonce.getD coins.publicNonce
  let keys := V5Keys.derive E root
  let inner := packInner E data opts.paddingPolicy coins
  let siv := syntheticIv E keys header.toList inner
  obtain ⟨segments, hseal, hp⟩ := exists_sealed hE keys publicNonce siv 0
    (chunks opts.chunkSize inner)
  rw [← length_packInner (E := E), hseal.sealedLength opts.chunkSize_pos hp] at hlen
  have hc : (ciphertextOf segments).length < 2 ^ 64 := by omega
  have hpl := hseal.plain_le.trans_lt hc
  have hpieces := encryptPieces_ok hseal (by rw [plainTotal_lengthsOf hpl]; exact hpl)
    (by rw [ciphertextTotal_lengthsOf hc]; exact hc)
  rw [hp] at hpieces
  exact ⟨⟨keys, publicNonce, inner, header, siv, _, _, (tagV5 E keys header.toList siv _ _).toList⟩,
    rfl, hh, ⟨root, hr, rfl⟩, rfl, rfl, hpieces, rfl⟩

/-- A run whose root key is derived returns. -/
theorem sealV5_returns_of_root (hE : E.ShufflesReturn) {root : RootKey}
    (hr : deriveRootKey E password (opts.salt.getD coins.salt).toList opts.kdf = .ok root)
    (hk : opts.kdf.Admitted) (hs : opts.segmentSize.toNat ≤ 2 ^ 63)
    (hlen : sealedLength opts.chunkSize
      (76 + data.length + randomPaddingLen opts.paddingPolicy coins) < 2 ^ 64) :
    ∃ s, SealedBy E data password opts coins s := by
  obtain ⟨header, hh⟩ := packPublicHeader_ok (E := E) hk hs (opts.salt.getD coins.salt)
    (opts.publicNonce.getD coins.publicNonce)
  exact sealV5_returns_of_header hE hr hh hlen

/-- **A run returns** when the password is not empty, the parameters are admitted, and the length
of its container is a `usize`. -/
theorem sealV5_returns (hE : E.ShufflesReturn) (hS : E.ScryptAccepts) (hpw : password ≠ [])
    (hk : opts.kdf.Admitted) (hs : opts.segmentSize.toNat ≤ 2 ^ 63)
    (hlen : sealedLength opts.chunkSize
      (76 + data.length + randomPaddingLen opts.paddingPolicy coins) < 2 ^ 64) :
    ∃ s, SealedBy E data password opts coins s := by
  obtain ⟨root, hr⟩ := deriveRootKey_ok hS hpw
    (show (opts.salt.getD coins.salt).toList.length = saltBytes from Vector.length_toList) hk
  exact sealV5_returns_of_root hE hr hk hs hlen

/-! ## The round trip -/

theorem SealedBy.parses (h : SealedBy E data password opts coins s)
    (hlen : s.frame.bytes.length < 2 ^ 64) : parseContainer E s.frame.bytes =
      .ok (s.frame, ⟨opts.kdf, opts.salt.getD coins.salt, s.publicNonce⟩) := by
  obtain ⟨segments, hh, -⟩ := h.segments
  exact hh.parseContainer (parsePublicHeader_pack h.header) hlen

/-- **What a run wrote opens again**, under the same password. -/
theorem SealedBy.decrypts (h : SealedBy E data password opts coins s)
    (hlen : s.frame.bytes.length < 2 ^ 64) : decryptV5 E s.frame.bytes password = .ok data := by
  obtain ⟨segments, hh, hp, hplain⟩ := h.segments
  obtain ⟨root, hr, hk⟩ := h.keys
  have hinner : 76 + data.length < 2 ^ 64 := by
    have hle := hh.plain_fits (ciphertext_lt s.frame hlen)
    rw [hplain, h.inner, length_packInner] at hle
    omega
  refine decryptV5_eq_ok.mpr ⟨s.frame, _, root, segments, rfl, hlen, parsePublicHeader_pack h.header,
    hr, hk ▸ hh, ?_⟩
  rw [hplain, h.inner]
  exact unpackInner_packInner _ _ hinner

/-! ## Small runs -/

def Coins.zero : Coins where
  salt := Vector.replicate 16 0
  publicNonce := Vector.replicate 16 0
  count := 0
  random n := Vector.replicate n 0
  order _ := Equiv.refl _

/-- One PBKDF2 iteration, minimal padding, one worker, and a drawn salt and nonce. -/
def smallOptions (segmentSize : UInt64) : EncryptV5Options where
  kdf := .pbkdf2 1
  paddingPolicy := .minimalBlock
  segmentSize := segmentSize
  workers := 1
  salt := none
  publicNonce := none

theorem zero_seals {n : Nat} (hn : (Env.zero.withFuel n).ShufflesReturn) (data : Bytes)
    (segmentSize : UInt64) (hs : segmentSize.toNat ≤ 2 ^ 63)
    (hlen : sealedLength (smallOptions segmentSize).chunkSize (76 + data.length) < 2 ^ 64) :
    ∃ s, SealedBy (Env.zero.withFuel n) data [1] (smallOptions segmentSize) .zero s ∧
      s.frame.bytes.length < 2 ^ 64 := by
  have hk : KdfParams.Admitted (.pbkdf2 1) := by decide
  obtain ⟨s, h⟩ := @sealV5_returns _ data [1] (smallOptions segmentSize) .zero hn
    (fun _ _ _ _ _ _ => ⟨_, rfl⟩) (by decide) hk hs hlen
  refine ⟨s, h, ?_⟩
  rw [h.length_bytes, h.inner, length_packInner]
  exact hlen

end Krcm
