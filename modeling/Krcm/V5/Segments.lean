import Krcm.Base.Collect
import Krcm.Blocks
import Krcm.Padding
import Krcm.V5.Table

/-!
# Segments

`encrypt_segments` and `decrypt_segments` of `format_v5.rs`. The segments of a
container are pairs of a plaintext piece and its ciphertext; `Sealed` says that
every ciphertext is the encryption of its piece under the nonce of its number.

`encryptPieces_eq_ok` and `decryptSegments_eq_ok` describe both directions over
the same sealed segments.
-/

namespace Krcm

open Base Outcome

section model

variable (E : Env) (keys : V5Keys) (publicNonce : Nonce) (syntheticIv : Hash)

/-- The message under `segment_nonce`. -/
def segmentMessage (segmentIndex : UInt64) : Bytes :=
  ascii "KRCM-v5-segment" ++ publicNonce.toList ++ syntheticIv.toList ++ u64Bytes segmentIndex

def segmentNonce (segmentIndex : UInt64) : Nonce :=
  let digest := E.hmacSha256 keys.segmentKey.key.toList
    (segmentMessage publicNonce syntheticIv segmentIndex)
  arrOfList (digest.toList.take 16) (by simp)

/-- The index, the plaintext length and the ciphertext of one segment. -/
def encryptSegment (index : UInt64) (plain : Bytes) : Run (UInt64 × UInt64 × Bytes) := do
  let nonce := segmentNonce E keys publicNonce syntheticIv index
  let ciphertext ← encryptBlocks E (pad plain) keys.encKey nonce.toList
  .ok (index, .ofNat plain.length, ciphertext)

/-- The loop of `encrypt_segments` over the encrypted segments. -/
def placeSegments (plainOffset ciphertextOffset : UInt64) :
    List (UInt64 × UInt64 × Bytes) → Run (List SegmentEntry × Bytes)
  | [] => .ok ([], [])
  | (index, plainLength, encryptedSegment) :: encrypted => do
    let ciphertextLength := UInt64.ofNat encryptedSegment.length
    let entry := ⟨index, plainOffset, plainLength, ciphertextOffset, ciphertextLength⟩
    let plainOffset ← E.addU64 plainOffset plainLength
    let ciphertextOffset ← E.addU64 ciphertextOffset ciphertextLength
    let (entries, ciphertext) ← placeSegments plainOffset ciphertextOffset encrypted
    .ok (entry :: entries, encryptedSegment ++ ciphertext)

/-- One task for each piece, the pieces numbered from `ordinal`. -/
def segmentTasks : (ordinal : Nat) → List Bytes → List (Run (UInt64 × UInt64 × Bytes))
  | _, [] => []
  | ordinal, plain :: plains =>
    encryptSegment E keys publicNonce syntheticIv (.ofNat ordinal) plain ::
      segmentTasks (ordinal + 1) plains

/-- `encrypt_segments` behind the chunking, its tasks collected one after the other. -/
def encryptPieces (plains : List Bytes) : Run (Bytes × Bytes) := do
  let encrypted ← collect (segmentTasks E keys publicNonce syntheticIv 0 plains)
  let (entries, ciphertext) ← placeSegments E 0 0 encrypted
  .ok (serializeSegmentTable entries, ciphertext)

/-- More than one worker on more than one segment: the tasks go to the thread pool. -/
def collectWith (workers : UInt64) (order : (n : Nat) → Equiv.Perm (Fin n))
    (tasks : List (Run (UInt64 × UInt64 × Bytes))) : Run (List (UInt64 × UInt64 × Bytes)) :=
  if workers > 1 ∧ tasks.length > 1 then parCollect tasks (order tasks.length) else collect tasks

def encryptSegments (inner : Bytes) (requestedSegmentSize workers : UInt64)
    (order : (n : Nat) → Equiv.Perm (Fin n)) : Run (Bytes × Bytes) := do
  let segmentSize := max requestedSegmentSize.toNat blockBytes
  let tasks := segmentTasks E keys publicNonce syntheticIv 0 (chunks segmentSize inner)
  let encrypted ← collectWith workers order tasks
  let (entries, ciphertext) ← placeSegments E 0 0 encrypted
  .ok (serializeSegmentTable entries, ciphertext)

def decryptSegments (ciphertext : Bytes) : List SegmentEntry → Run Bytes
  | [] => .ok []
  | entry :: entries => do
    let start := entry.ciphertextOffset.toNat
    let stop ← E.add start entry.ciphertextLength.toNat
    let nonce := segmentNonce E keys publicNonce syntheticIv entry.segmentIndex
    let encrypted ← slice ciphertext start stop
    let padded ← decryptBlocks E encrypted keys.encKey nonce.toList
    let plain ← unpad padded
    rejectIf (UInt64.ofNat plain.length ≠ entry.plainLength) .authentication
    let inner ← decryptSegments ciphertext entries
    .ok (plain ++ inner)

/-! ## Sealed segments -/

/-- A piece of the inner plaintext and its ciphertext. -/
abbrev Segment := Bytes × Bytes

/-- Every ciphertext is the encryption of its piece, the segments numbered from `ordinal`. -/
def Sealed : (ordinal : Nat) → List Segment → Prop
  | _, [] => True
  | ordinal, (plain, cipher) :: segments =>
    encryptBlocks E (pad plain) keys.encKey
      (segmentNonce E keys publicNonce syntheticIv (.ofNat ordinal)).toList = .ok cipher ∧
    Sealed (ordinal + 1) segments

def plainOf (segments : List Segment) : Bytes := (segments.map Prod.fst).flatten

def ciphertextOf (segments : List Segment) : Bytes := (segments.map Prod.snd).flatten

/-- The lengths the table records. -/
def lengthsOf (segments : List Segment) : List SegmentLengths :=
  segments.map fun s => (.ofNat s.1.length, .ofNat s.2.length)

/-- What the tasks of `encrypt_segments` return. -/
def numbered : (ordinal : Nat) → List Segment → List (UInt64 × UInt64 × Bytes)
  | _, [] => []
  | ordinal, (plain, cipher) :: segments =>
    (.ofNat ordinal, .ofNat plain.length, cipher) :: numbered (ordinal + 1) segments

end model

variable {E : Env} {keys : V5Keys} {publicNonce : Nonce} {syntheticIv : Hash}

theorem collect_segmentTasks {ordinal : Nat} {plains : List Bytes}
    {encrypted : List (UInt64 × UInt64 × Bytes)} :
    collect (segmentTasks E keys publicNonce syntheticIv ordinal plains) = .ok encrypted ↔
      ∃ segments, Sealed E keys publicNonce syntheticIv ordinal segments ∧
        plains = segments.map Prod.fst ∧ encrypted = numbered ordinal segments := by
  induction plains generalizing ordinal encrypted with
  | nil =>
    constructor
    · intro h
      cases h
      exact ⟨[], trivial, rfl, rfl⟩
    · intro h
      obtain ⟨segments, -, hp, he⟩ := h
      obtain rfl := List.map_eq_nil_iff.mp hp.symm
      rw [he]
      rfl
  | cons plain plains ih =>
    simp only [segmentTasks, collect, bind_eq_ok, encryptSegment, ih, ok.injEq]
    constructor
    · intro h
      obtain ⟨a, ⟨cipher, hc, ha⟩, rest, ⟨segments, hs, hp, hr⟩, h⟩ := h
      refine ⟨(plain, cipher) :: segments, ⟨hc, hs⟩, by rw [hp, List.map_cons], ?_⟩
      rw [← h, ← ha, hr, numbered]
    · intro h
      obtain ⟨segments, hs, hp, he⟩ := h
      cases segments with
      | nil => cases hp
      | cons segment segments =>
        obtain ⟨q, cipher⟩ := segment
        obtain ⟨rfl, rfl⟩ := List.cons.inj hp
        exact ⟨_, ⟨cipher, hs.1, rfl⟩, _, ⟨segments, hs.2, rfl, rfl⟩, he.symm⟩

theorem placeSegments_eq_ok {ordinal : Nat} {p c : UInt64} {segments : List Segment}
    {entries : List SegmentEntry} {ciphertext : Bytes}
    (h : placeSegments E p c (numbered ordinal segments) = .ok (entries, ciphertext)) :
    entries = runningEntries ordinal p c (lengthsOf segments) ∧
      ciphertext = ciphertextOf segments := by
  induction segments generalizing ordinal p c entries ciphertext with
  | nil =>
    cases h
    exact ⟨rfl, rfl⟩
  | cons segment segments ih =>
    obtain ⟨plain, cipher⟩ := segment
    simp only [numbered, placeSegments, bind_eq_ok] at h
    obtain ⟨p', hp, c', hc, ⟨es, ct⟩, hrest, h⟩ := h
    cases h
    obtain rfl := Env.addU64_eq_ok hp
    obtain rfl := Env.addU64_eq_ok hc
    obtain ⟨rfl, rfl⟩ := ih hrest
    exact ⟨rfl, rfl⟩

theorem placeSegments_ok {ordinal : Nat} {p c : UInt64} {segments : List Segment}
    (hp : p.toNat + plainTotal (lengthsOf segments) < 2 ^ 64)
    (hc : c.toNat + ciphertextTotal (lengthsOf segments) < 2 ^ 64) :
    placeSegments E p c (numbered ordinal segments) =
      .ok (runningEntries ordinal p c (lengthsOf segments), ciphertextOf segments) := by
  induction segments generalizing ordinal p c with
  | nil => rfl
  | cons segment segments ih =>
    obtain ⟨plain, cipher⟩ := segment
    simp only [lengthsOf, List.map_cons, plainTotal_cons, ciphertextTotal_cons] at hp hc
    have hp' : p.toNat + (UInt64.ofNat plain.length).toNat < 2 ^ 64 := by omega
    have hc' : c.toNat + (UInt64.ofNat cipher.length).toNat < 2 ^ 64 := by omega
    have hrest := @ih (ordinal + 1) (p + .ofNat plain.length) (c + .ofNat cipher.length)
      (by rw [toNat_add_of_fits hp', lengthsOf]; omega)
      (by rw [toNat_add_of_fits hc', lengthsOf]; omega)
    unfold numbered
    rw [placeSegments, Env.addU64_ok hp', ok_bind, Env.addU64_ok hc', ok_bind, hrest, ok_bind]
    rfl

/-! ## Encrypting the pieces -/

theorem encryptPieces_eq_ok {plains : List Bytes} {table ciphertext : Bytes}
    (h : encryptPieces E keys publicNonce syntheticIv plains = .ok (table, ciphertext)) :
    ∃ segments, Sealed E keys publicNonce syntheticIv 0 segments ∧ plains = segments.map Prod.fst ∧
      table = serializeSegmentTable (runningEntries 0 0 0 (lengthsOf segments)) ∧
      ciphertext = ciphertextOf segments := by
  simp only [encryptPieces, bind_eq_ok, collect_segmentTasks, ok.injEq, Prod.mk.injEq] at h
  obtain ⟨_, ⟨segments, hs, hp, rfl⟩, ⟨entries, ct⟩, hplace, rfl, rfl⟩ := h
  obtain ⟨rfl, rfl⟩ := placeSegments_eq_ok hplace
  exact ⟨segments, hs, hp, rfl, rfl⟩

theorem encryptPieces_ok {segments : List Segment}
    (hs : Sealed E keys publicNonce syntheticIv 0 segments)
    (hp : plainTotal (lengthsOf segments) < 2 ^ 64)
    (hc : ciphertextTotal (lengthsOf segments) < 2 ^ 64) :
    encryptPieces E keys publicNonce syntheticIv (segments.map Prod.fst) =
      .ok (serializeSegmentTable (runningEntries 0 0 0 (lengthsOf segments)),
        ciphertextOf segments) := by
  rw [encryptPieces, collect_segmentTasks.mpr ⟨segments, hs, rfl, rfl⟩, ok_bind,
    placeSegments_ok (by simpa using hp) (by simpa using hc), ok_bind]

/-- Neither the number of workers nor the order in which they finish matters. -/
theorem encryptSegments_eq_ok {inner : Bytes} {size workers : UInt64}
    {order : (n : Nat) → Equiv.Perm (Fin n)} {out : Bytes × Bytes} :
    encryptSegments E keys publicNonce syntheticIv inner size workers order = .ok out ↔
      encryptPieces E keys publicNonce syntheticIv (chunks (max size.toNat blockBytes) inner) =
        .ok out := by
  have hcollect (tasks : List (Run (UInt64 × UInt64 × Bytes)))
      (encrypted : List (UInt64 × UInt64 × Bytes)) :
      collectWith workers order tasks = .ok encrypted ↔ collect tasks = .ok encrypted := by
    unfold collectWith
    split
    · exact parCollect_eq_ok
    · exact Iff.rfl
  simp only [encryptSegments, encryptPieces, bind_eq_ok, hcollect]

theorem Sealed.length_ciphertext {ordinal : Nat} {segments : List Segment}
    (h : Sealed E keys publicNonce syntheticIv ordinal segments) :
    ∀ s ∈ segments, s.2.length = 32 * (s.1.length / 32 + 1) := by
  induction segments generalizing ordinal with
  | nil => exact nofun
  | cons segment segments ih =>
    obtain ⟨plain, cipher⟩ := segment
    obtain ⟨hc, hs⟩ := h
    exact List.forall_mem_cons.mpr ⟨(encryptBlocks_length hc).1.trans (length_pad plain), ih hs⟩

theorem Sealed.getElem {ordinal i : Nat} {segments : List Segment} {s : Segment}
    (h : Sealed E keys publicNonce syntheticIv ordinal segments) (hs : segments[i]? = some s) :
    encryptBlocks E (pad s.1) keys.encKey
      (segmentNonce E keys publicNonce syntheticIv (.ofNat (ordinal + i))).toList = .ok s.2 := by
  induction segments generalizing ordinal i with
  | nil => cases hs
  | cons segment segments ih =>
    obtain ⟨hc, hrest⟩ := h
    cases i with
    | zero =>
      cases hs
      exact hc
    | succ i =>
      rw [← Nat.add_assoc, Nat.add_right_comm]
      exact ih hrest hs

/-- Pieces can be sealed when the rejection loops return. -/
theorem exists_sealed (hE : E.ShufflesReturn) (keys : V5Keys) (publicNonce : Nonce)
    (syntheticIv : Hash) (ordinal : Nat) (plains : List Bytes) :
    ∃ segments, Sealed E keys publicNonce syntheticIv ordinal segments ∧
      segments.map Prod.fst = plains := by
  induction plains generalizing ordinal with
  | nil => exact ⟨[], trivial, rfl⟩
  | cons plain plains ih =>
    obtain ⟨segments, hs, hp⟩ := ih (ordinal + 1)
    obtain ⟨cipher, hc⟩ := encryptBlocks_returns hE keys.encKey
      (segmentNonce E keys publicNonce syntheticIv (.ofNat ordinal)).toList (length_pad_mod plain)
    exact ⟨(plain, cipher) :: segments, ⟨hc, hs⟩, by rw [List.map_cons, hp]⟩

/-! ## Lengths -/

@[simp] theorem plainOf_cons (s : Segment) (segments : List Segment) :
    plainOf (s :: segments) = s.1 ++ plainOf segments := rfl

@[simp] theorem ciphertextOf_cons (s : Segment) (segments : List Segment) :
    ciphertextOf (s :: segments) = s.2 ++ ciphertextOf segments := rfl

theorem plainTotal_lengthsOf {segments : List Segment} (h : (plainOf segments).length < 2 ^ 64) :
    plainTotal (lengthsOf segments) = (plainOf segments).length := by
  induction segments with
  | nil => rfl
  | cons segment segments ih =>
    rw [plainOf_cons, List.length_append] at h ⊢
    unfold lengthsOf
    rw [List.map_cons, plainTotal_cons, ← lengthsOf, ih (by omega)]
    simp only [UInt64.toNat_ofNat']
    omega

theorem ciphertextTotal_lengthsOf {segments : List Segment}
    (h : (ciphertextOf segments).length < 2 ^ 64) :
    ciphertextTotal (lengthsOf segments) = (ciphertextOf segments).length := by
  induction segments with
  | nil => rfl
  | cons segment segments ih =>
    rw [ciphertextOf_cons, List.length_append] at h ⊢
    unfold lengthsOf
    rw [List.map_cons, ciphertextTotal_cons, ← lengthsOf, ih (by omega)]
    simp only [UInt64.toNat_ofNat']
    omega

/-- The lengths of sealed segments pass the table parser. -/
theorem Sealed.admissible {segments : List Segment}
    (h : Sealed E keys publicNonce syntheticIv 0 segments)
    (hp : (plainOf segments).length < 2 ^ 64) (hc : (ciphertextOf segments).length < 2 ^ 64) :
    Admissible 0 0 (lengthsOf segments) := by
  refine ⟨fun l hl => ?_, by simpa [plainTotal_lengthsOf hp] using hp,
    by simpa [ciphertextTotal_lengthsOf hc] using hc⟩
  obtain ⟨s, hs, rfl⟩ := List.mem_map.mp hl
  have hlen := h.length_ciphertext s hs
  have hle : s.2.length ≤ (ciphertextOf segments).length :=
    (List.sublist_flatten_of_mem (List.mem_map_of_mem hs)).length_le
  have hnat : (UInt64.ofNat s.2.length).toNat = s.2.length := by
    rw [UInt64.toNat_ofNat', Nat.mod_eq_of_lt (by omega)]
  refine ⟨fun h0 => ?_, ?_⟩
  · have hzero : s.2.length = 0 := hnat.symm.trans (congrArg UInt64.toNat h0)
    omega
  · apply UInt64.toNat_inj.mp
    rw [UInt64.toNat_mod, hnat, hlen, UInt64.toNat_ofNat, Nat.mul_mod_right]
    rfl

/-! ## Decrypting -/

/-- The loop of `decrypt_segments`, started behind the ciphertext it has already used. -/
theorem decryptSegments_running {lengths : List SegmentLengths} {ordinal : Nat} {p c : UInt64}
    {used rest inner : Bytes} (hused : used.length = c.toNat) (ha : Admissible p c lengths)
    (hrest : rest.length = ciphertextTotal lengths) :
    decryptSegments E keys publicNonce syntheticIv (used ++ rest)
        (runningEntries ordinal p c lengths) = .ok inner ↔
      ∃ segments, Sealed E keys publicNonce syntheticIv ordinal segments ∧
        lengthsOf segments = lengths ∧ rest = ciphertextOf segments ∧ inner = plainOf segments := by
  induction lengths generalizing ordinal p c used rest inner with
  | nil =>
    obtain rfl := List.length_eq_zero_iff.mp hrest
    constructor
    · intro h
      cases h
      exact ⟨[], trivial, rfl, rfl, rfl⟩
    · intro h
      obtain ⟨segments, -, hl, -, hi⟩ := h
      obtain rfl := List.map_eq_nil_iff.mp hl
      rw [hi]
      rfl
  | cons l lengths ih =>
    obtain ⟨a, b⟩ := l
    obtain ⟨-, -, hcf, ha'⟩ := admissible_cons.mp ha
    rw [ciphertextTotal_cons] at hrest
    dsimp only at hcf ha' hrest
    -- The slice of this entry is the front of what is left.
    obtain ⟨x, rest', rfl, hx⟩ : ∃ x rest', rest = x ++ rest' ∧ x.length = b.toNat :=
      ⟨rest.take b.toNat, rest.drop b.toNat, (List.take_append_drop _ _).symm, by simp; omega⟩
    rw [List.length_append] at hrest
    have hslice : slice (used ++ (x ++ rest')) c.toNat (c.toNat + b.toNat) = (.ok x : Run Bytes) :=
      slice_mid rfl hused (by rw [hx])
    have hih (tail : Bytes) :=
      @ih (ordinal + 1) (p + a) (c + b) (used ++ x) rest' tail
        (by rw [toNat_add_of_fits hcf, List.length_append]; omega) ha' (by omega)
    simp only [runningEntries, decryptSegments, Env.add_ok hcf, ok_bind, hslice, bind_eq_ok,
      unpad_eq_ok, rejectIf_eq_ok, not_not, ok.injEq]
    constructor
    · intro h
      obtain ⟨padded, hd, plain, rfl, -, rfl, tail, htail, rfl⟩ := h
      rw [← List.append_assoc] at htail
      obtain ⟨segments, hs, hl, hr, ht⟩ := (hih tail).mp htail
      refine ⟨(plain, x) :: segments, ⟨(encryptBlocks_iff _ _).mpr hd, hs⟩, ?_, by rw [hr]; rfl,
        by rw [ht]; rfl⟩
      unfold lengthsOf
      rw [List.map_cons, ← lengthsOf, hl, hx, UInt64.ofNat_toNat]
    · intro h
      obtain ⟨segments, hs, hl, hr, hi⟩ := h
      cases segments with
      | nil => cases hl
      | cons segment segments =>
        obtain ⟨plain, cipher⟩ := segment
        obtain ⟨hc, hs⟩ := hs
        obtain ⟨hlens, hl'⟩ := List.cons.inj hl
        obtain ⟨hplain, rfl⟩ := Prod.mk.inj hlens
        -- No ciphertext is longer than all that is left, so its length does not wrap.
        have hlen := congrArg List.length hr
        simp only [ciphertextOf_cons, List.length_append] at hlen
        have hfits := ha.ciphertext_fits
        rw [ciphertextTotal_cons] at hfits
        dsimp only at hfits hx hrest
        have hsmall : cipher.length < 2 ^ 64 := by omega
        rw [UInt64.toNat_ofNat', Nat.mod_eq_of_lt hsmall] at hx
        obtain ⟨rfl, hr'⟩ := List.append_inj hr hx
        refine ⟨pad plain, (encryptBlocks_iff _ _).mp hc, plain, rfl, (), hplain, plainOf segments, ?_,
          hi.symm⟩
        rw [← List.append_assoc]
        exact (hih _).mpr ⟨segments, hs, hl', hr', rfl⟩

/-- **What decryption accepts**: the ciphertext of sealed segments of the recorded lengths. -/
theorem decryptSegments_eq_ok {lengths : List SegmentLengths} {ciphertext inner : Bytes}
    (ha : Admissible 0 0 lengths) (hlen : ciphertext.length = ciphertextTotal lengths) :
    decryptSegments E keys publicNonce syntheticIv ciphertext (runningEntries 0 0 0 lengths) =
        .ok inner ↔
      ∃ segments, Sealed E keys publicNonce syntheticIv 0 segments ∧
        lengthsOf segments = lengths ∧ ciphertext = ciphertextOf segments ∧
        inner = plainOf segments :=
  @decryptSegments_running E keys publicNonce syntheticIv lengths 0 0 0 [] ciphertext inner rfl ha hlen

/-- Every entry of a canonical table lies inside the ciphertext. -/
theorem mem_runningEntries {lengths : List SegmentLengths} {ordinal : Nat} {p c : UInt64}
    (ha : Admissible p c lengths) : ∀ entry ∈ runningEntries ordinal p c lengths,
      entry.ciphertextOffset.toNat + entry.ciphertextLength.toNat ≤
        c.toNat + ciphertextTotal lengths := by
  induction lengths generalizing ordinal p c with
  | nil => exact nofun
  | cons l lengths ih =>
    obtain ⟨-, -, hcf, ha'⟩ := admissible_cons.mp ha
    rw [ciphertextTotal_cons]
    refine List.forall_mem_cons.mpr ⟨by dsimp only; omega, fun entry he => ?_⟩
    have := ih ha' entry he
    rw [toNat_add_of_fits hcf] at this
    omega

theorem decryptSegments_settles (hE : E.ShufflesReturn) {ciphertext : Bytes}
    {entries : List SegmentEntry}
    (h : ∀ entry ∈ entries,
      entry.ciphertextOffset.toNat + entry.ciphertextLength.toNat ≤ ciphertext.length)
    (hlen : ciphertext.length < 2 ^ 64) :
    Settles (decryptSegments E keys publicNonce syntheticIv ciphertext entries) := by
  induction entries with
  | nil => exact settles_ok _
  | cons entry entries ih =>
    obtain ⟨hentry, hentries⟩ := List.forall_mem_cons.mp h
    rw [decryptSegments, Env.add_ok (by omega), ok_bind]
    refine settles_bind (slice_settles (Nat.le_add_right _ _) hentry) fun _ _ => ?_
    refine settles_bind (decryptBlocks_settles hE _ _ _) fun _ _ => ?_
    refine settles_bind (unpad_settles _) fun _ _ => ?_
    refine settles_bind rejectIf_settles fun _ _ => ?_
    exact settles_bind (ih hentries) fun _ _ => settles_ok _

end Krcm
