import Krcm.Words
import Krcm.Py.Runtime

/-!
# Key material and shuffles of the Python reference

`_hkdf_expand_like`, `_hkdf_expand_64` and the two shuffles of `core.py`. The
reference counts in integers where `block.rs` wraps; where a shuffle of the
reference returns, the other returns the same table (`shuffleFromSeed_agrees`).
-/

namespace Krcm.Py

open Base Outcome

section model
variable (E : Env)

/-- The loop of `_hkdf_expand_like`; every iteration appends 32 bytes, so `length` iterations are
more than it makes. -/
def hkdfLoop (key label : Bytes) (length : Int) : Nat → Bytes → Bytes → Nat → PyRun Bytes
  | 0, out, _, _ => .ok out
  | k + 1, out, previous, counter =>
    if out.length < length then do
      let counterBytes ← toBytes counter 4
      let previous := (E.hmacSha256 key (previous ++ label ++ counterBytes)).toList
      hkdfLoop key label length k (out ++ previous) previous (counter + 1)
    else .ok out

def hkdfExpandLike (key label : Bytes) (length : Int) : PyRun Bytes := do
  rejectIf (length < 0) .valueError
  let out ← hkdfLoop E key label length length.toNat [] [] 1
  .ok (out.take length.toNat)

def hkdfExpand64 (key label : Bytes) : Bytes :=
  let first := (E.hmacSha256 key (label ++ [0, 0, 0, 1])).toList
  let second := (E.hmacSha256 key (first ++ label ++ [0, 0, 0, 2])).toList
  first ++ second

/-- `stream.extend(..)`, where a word is not there. -/
def extendStream (seed label : Bytes) (s : Stream) : PyRun Bytes :=
  if s.cursor + 8 > s.stream.length then do
    let lenBytes ← toBytes s.stream.length 4
    .ok (s.stream ++ hkdfExpand64 E seed (label ++ lenBytes))
  else .ok s.stream

/-- The closure `take_u64` of both shuffles. -/
def takeU64 (seed label : Bytes) (s : Stream) : PyRun (Nat × Stream) := do
  let stream ← extendStream E seed label s
  .ok (beNat (stream.extract s.cursor (s.cursor + 8)), ⟨stream, s.cursor + 8⟩)

/-- The rejection loop of both shuffles. -/
def drawLoop (seed label : Bytes) (limit : Nat) : Nat → Stream → PyRun (Nat × Stream)
  | 0, _ => .timeout
  | k + 1, s => do
    let (r, s) ← takeU64 E seed label s
    if r ≥ limit then drawLoop seed label limit k s else .ok (r, s)

/-- `values[i], values[j] = values[j], values[i]`. -/
def swap (values : List Nat) (i j : Nat) : PyRun (List Nat) := do
  let x ← getItem values j
  let y ← getItem values i
  let values ← setItem values i x
  setItem values j y

/-- `for i in range(i, 0, -1)`. -/
def shuffleLoop (seed label : Bytes) : Nat → List Nat → Stream → PyRun (List Nat)
  | 0, values, _ => .ok values
  | i + 1, values, s => do
    let limit := 2 ^ 64 - 2 ^ 64 % (i + 2)
    let (r, s) ← drawLoop E seed label limit E.fuel s
    let j := r % (i + 2)
    let values ← swap values (i + 1) j
    shuffleLoop seed label i values s

/-- The common body of `_permutation_from_seed` and `_small_permutation`. -/
def shuffleFromSeed (label seed : Bytes) (size : Nat) : PyRun (List Nat) :=
  shuffleLoop E seed label (size - 1) (List.range size) Stream.empty

def permutationFromSeed (seed : Bytes) : PyRun (List Nat) :=
  shuffleFromSeed E (ascii "perm") seed 256

def smallPermutation (seed : Bytes) (size : Nat) : PyRun (List Nat) :=
  shuffleFromSeed E (ascii "small-perm") seed size

end model

variable {E : Env}

/-! ## Key material -/

/-- Below `2 ^ 32` iterations the counter of the reference is the wrapping one. -/
theorem hkdfLoop_agrees (key label : Bytes) (length : Nat) :
    ∀ (k : Nat) (out previous : Bytes) (counter : UInt32), counter.toNat + k ≤ 2 ^ 32 →
      hkdfLoop E key label length k out previous counter.toNat =
        .ok (Krcm.hkdfLoop E key label length k out previous counter)
  | 0, _, _, _, _ => rfl
  | k + 1, out, previous, counter, h => by
    unfold hkdfLoop Krcm.hkdfLoop
    by_cases hlt : out.length < length
    · rw [if_pos (Int.ofNat_lt.mpr hlt), if_pos hlt, toBytes_ok (by omega), ok_bind]
      dsimp only
      by_cases hk : k = 0
      · subst hk
        rfl
      · have hnext : (counter + 1).toNat = counter.toNat + 1 := by
          rw [UInt32.toNat_add, UInt32.toNat_one]
          omega
        rw [← hnext]
        exact hkdfLoop_agrees key label length k _ _ _ (by omega)
    · rw [if_neg (fun h => hlt (Int.ofNat_lt.mp h)), if_neg hlt]

theorem hkdfExpandLike_agrees (key label : Bytes) {length : Nat} (h : length < 2 ^ 32) :
    hkdfExpandLike E key label length = .ok (Krcm.hkdfExpandLike E key label length).toList := by
  have hloop := hkdfLoop_agrees (E := E) key label length length [] [] 1
    (by rw [UInt32.toNat_one]; omega)
  unfold hkdfExpandLike
  rw [rejectIf_false (by omega), ok_bind, Int.toNat_natCast]
  rw [UInt32.toNat_one] at hloop
  rw [hloop, ok_bind]
  simp [Krcm.hkdfExpandLike]

theorem hkdfExpand64_agrees (key label : Bytes) :
    hkdfExpand64 E key label = (Krcm.hkdfExpand64 E key label).toList := by
  unfold hkdfExpand64 Krcm.hkdfExpand64
  exact Vector.toList_append.symm

/-! ## Words -/

theorem extendStream_agrees {seed label stream : Bytes} {s : Stream}
    (h : extendStream E seed label s = .ok stream) :
    (if s.cursor + 8 > s.stream.length then
      s.stream ++ (Krcm.hkdfExpand64 E seed (label ++ beBytes 4 s.stream.length)).toList
    else s.stream) = stream := by
  unfold extendStream at h
  split at h
  · next hlong =>
    obtain ⟨lenBytes, hlen, heq⟩ := bind_eq_ok.mp h
    obtain ⟨-, rfl⟩ := toBytes_eq_ok.mp hlen
    rw [if_pos hlong, ← hkdfExpand64_agrees]
    exact ok.inj heq
  · next hshort =>
    rw [if_neg hshort]
    exact ok.inj h

/-- A word the reference took is the word of the stream. -/
theorem takeU64_agrees {seed label : Bytes} {s s' : Stream} {r : Nat} (hs : s.Aligned)
    (h : takeU64 E seed label s = .ok (r, s')) :
    ∃ word : UInt64, Krcm.takeU64 E seed label s = .ok (word, s') ∧ word.toNat = r ∧ s'.Aligned := by
  obtain ⟨stream, hstream, heq⟩ := bind_eq_ok.mp h
  cases heq
  obtain ⟨word, s₁, hr, hs₁⟩ := takeU64_aligned (E := E) seed label hs
  have hrun := hr
  simp only [Krcm.takeU64, extendStream_agrees hstream, bind_eq_ok] at hrun
  obtain ⟨chunk, hchunk, heq⟩ := hrun
  cases heq
  obtain ⟨hle, hend, hlen⟩ := slice_bounds hchunk
  refine ⟨u64OfBytes chunk, hr, ?_, hs₁⟩
  rw [toNat_u64OfBytes (by omega)]
  rw [slice_ok hle hend] at hchunk
  exact congrArg beNat (ok.inj hchunk).symm

theorem drawLoop_agrees {seed label : Bytes} {limit : Nat} :
    ∀ {k : Nat} {s s' : Stream} {r : Nat}, s.Aligned → drawLoop E seed label limit k s = .ok (r, s') →
      ∃ word : UInt64, Krcm.drawLoop E seed label limit k s = .ok (word, s') ∧ word.toNat = r ∧
        s'.Aligned
  | 0, _, _, _, _, h => nomatch h
  | k + 1, s, s', r, hs, h => by
    unfold drawLoop at h
    obtain ⟨⟨x, s₁⟩, hx, h⟩ := bind_eq_ok.mp h
    obtain ⟨word, hword, rfl, hs₁⟩ := takeU64_agrees hs hx
    unfold Krcm.drawLoop
    rw [hword, ok_bind]
    by_cases hge : word.toNat ≥ limit
    · simp only [hge, ↓reduceIte] at h ⊢
      exact drawLoop_agrees hs₁ h
    · simp only [hge, ↓reduceIte] at h ⊢
      cases h
      exact ⟨word, rfl, rfl, hs₁⟩

/-- Below `2 ^ 29` words the reference takes the words of the stream: the label fits its field. -/
theorem takeU64_after {seed label : Bytes} {n : Nat} (hn : n < 2 ^ 29) :
    takeU64 E seed label (.after E seed label n) =
      .ok ((word E seed label n).toNat, .after E seed label (n + 1)) := by
  have hlen : (Stream.after E seed label n).stream.length = 64 * ((n + 7) / 8) := length_expansions _
  have hcursor : (Stream.after E seed label n).cursor = 8 * n := rfl
  obtain ⟨stream, hstream⟩ : ∃ stream, extendStream E seed label (.after E seed label n) =
      .ok stream := by
    unfold extendStream
    split
    · rw [toBytes_ok (by omega), ok_bind]
      exact ⟨_, rfl⟩
    · exact ⟨_, rfl⟩
  obtain ⟨r, hr⟩ : ∃ r, takeU64 E seed label (.after E seed label n) = .ok r := by
    unfold takeU64
    rw [hstream, ok_bind]
    exact ⟨_, rfl⟩
  obtain ⟨w, hw, hnat, -⟩ := @takeU64_agrees _ _ _ _ r.2 r.1 (Stream.aligned_after n) hr
  rw [Krcm.takeU64_after, ok.injEq, Prod.mk.injEq] at hw
  rw [hr, hw.1, hw.2, hnat]

/-- The loop only appends. -/
theorem prefix_hkdfLoop {key label : Bytes} {length : Int} :
    ∀ {k : Nat} {out previous : Bytes} {counter : Nat} {y : Bytes},
      hkdfLoop E key label length k out previous counter = .ok y → out <+: y
  | 0, out, _, _, y, h => by
    cases h
    exact List.prefix_rfl
  | k + 1, out, previous, counter, y, h => by
    unfold hkdfLoop at h
    split at h
    · obtain ⟨counterBytes, -, h⟩ := bind_eq_ok.mp h
      exact (List.prefix_append _ _).trans (prefix_hkdfLoop h)
    · cases h
      exact List.prefix_rfl

/-- Where the loop for a longer output returns, the loop for a shorter one stops on the way. -/
theorem hkdfLoop_prefix {key label : Bytes} {a b : Int} (hab : a ≤ b) :
    ∀ {k m : Nat} {out previous : Bytes} {counter : Nat} {y : Bytes}, k ≤ m →
      hkdfLoop E key label b m out previous counter = .ok y →
        ∃ x, hkdfLoop E key label a k out previous counter = .ok x ∧ x <+: y
  | 0, _, out, _, _, _, _, h => ⟨out, rfl, prefix_hkdfLoop h⟩
  | k + 1, 0, _, _, _, _, hk, _ => absurd hk (Nat.not_succ_le_zero k)
  | k + 1, m + 1, out, previous, counter, y, hk, h => by
    by_cases hlt : (out.length : Int) < a
    · unfold hkdfLoop at h ⊢
      rw [if_pos (hlt.trans_le hab)] at h
      obtain ⟨counterBytes, hcounter, h⟩ := bind_eq_ok.mp h
      rw [if_pos hlt, hcounter, ok_bind]
      exact hkdfLoop_prefix hab (Nat.le_of_succ_le_succ hk) h
    · have hstop : hkdfLoop E key label a (k + 1) out previous counter = .ok out := by
        unfold hkdfLoop
        rw [if_neg hlt]
      exact ⟨out, hstop, prefix_hkdfLoop h⟩

theorem hkdfExpandLike_prefix {key label : Bytes} {a b : Nat} (hab : a ≤ b) {y : Bytes}
    (h : hkdfExpandLike E key label b = .ok y) :
    ∃ x, hkdfExpandLike E key label a = .ok x ∧ x <+: y := by
  have ha : ¬ (a : Int) < 0 := by omega
  unfold hkdfExpandLike at h ⊢
  obtain ⟨_, -, h⟩ := bind_eq_ok.mp h
  obtain ⟨long, hlong, h⟩ := bind_eq_ok.mp h
  cases h
  rw [Int.toNat_natCast] at hlong ⊢
  obtain ⟨short, hshort, hprefix⟩ := hkdfLoop_prefix (Int.ofNat_le.mpr hab) hab hlong
  rw [rejectIf_false ha, ok_bind, Int.toNat_natCast, hshort, ok_bind]
  refine ⟨_, rfl, ?_⟩
  calc short.take a
      <+: long.take a := hprefix.take a
    _ <+: long.take b := List.take_prefix_take_left hab

theorem hkdfExpand64_eq (key label : Bytes) :
    hkdfExpandLike E key label 64 = .ok (hkdfExpand64 E key label) := by
  have h := @hkdfExpandLike_agrees E key label 64 (by decide)
  rw [← Krcm.hkdfExpand64_eq, ← hkdfExpand64_agrees] at h
  exact h

/-- **The word stream is read without gap, overlap or reuse**: call `n` of `take_u64` returns the
word at byte `8 * (n % 8)` of expansion `64 * (n / 8)`, below `2 ^ 29` calls in both programs. -/
theorem words_in_order (E : Env) (seed label : Bytes) :
    (∀ key l : Bytes, Krcm.hkdfExpand64 E key l = Krcm.hkdfExpandLike E key l 64 ∧
      hkdfExpandLike E key l 64 = .ok (hkdfExpand64 E key l)) ∧
    (∀ (key l : Bytes) (a b : Nat), a ≤ b →
      (Krcm.hkdfExpandLike E key l a).toList <+: (Krcm.hkdfExpandLike E key l b).toList ∧
      ∀ y, hkdfExpandLike E key l b = .ok y →
        ∃ x, hkdfExpandLike E key l a = .ok x ∧ x <+: y) ∧
    ∀ n < 2 ^ 29, ∃ s s' bytes, streamAfter E seed label n = .ok s ∧
      bytes = (Krcm.hkdfExpandLike E seed (label ++ beBytes 4 (64 * (n / 8))) 64).toList.extract
        (8 * (n % 8)) (8 * (n % 8) + 8) ∧
      Krcm.takeU64 E seed label s = .ok (u64OfBytes bytes, s') ∧
      takeU64 E seed label s = .ok (beNat bytes, s') ∧
      ∀ m < 2 ^ 29, label ++ beBytes 4 (64 * (m / 8)) = label ++ beBytes 4 (64 * (n / 8)) →
        m / 8 = n / 8 := by
  refine ⟨fun key l => ⟨Krcm.hkdfExpand64_eq key l, hkdfExpand64_eq key l⟩,
    fun key l a b hab => ⟨Krcm.hkdfExpandLike_prefix key l hab,
      fun y hy => hkdfExpandLike_prefix hab hy⟩, fun n hn => ?_⟩
  refine ⟨_, _, _, streamAfter_eq n, rfl, Krcm.takeU64_after n, ?_, fun m hm h => ?_⟩
  · have hlen : ((expansion E seed label (n / 8)).toList.extract (8 * (n % 8))
        (8 * (n % 8) + 8)).length = 8 := by
      rw [List.extract_eq_take_drop, List.length_take, List.length_drop, Vector.length_toList]
      omega
    rw [takeU64_after hn, word, toNat_u64OfBytes hlen]
    rfl
  · exact expansion_label_injective (by omega) (by omega) h

/-! ## Tables -/

/-- A table as the list of its values. -/
def values {n : Nat} (t : Table n) : List Nat := t.entries.toList.map Fin.val

@[simp] theorem length_values {n : Nat} (t : Table n) : (values t).length = n := by
  simp [values]

theorem values_eq_toList {n : Nat} (t : Table n) : values t = (t.entries.map Fin.val).toList := by
  unfold values
  exact Vector.toList_map.symm

theorem getItem_values {n : Nat} (t : Table n) (i : Fin n) :
    getItem (values t) i = .ok (t.get i).val := by
  rw [values_eq_toList, getItem_toList _ i.isLt, Vector.getElem_map]
  rfl

theorem values_ident (n : Nat) : values (Table.ident n) = List.range n := by
  refine List.ext_getElem (by simp) fun i h1 h2 => ?_
  simp [values, Table.ident]

theorem swap_values {n : Nat} (t : Table n) {i j : Nat} (hi : i < n) (hj : j < n) :
    swap (values t) i j = .ok (values (t.swap i j hi hj)) := by
  have hset (l : List Nat) (k x : Nat) (hl : l.length = n) (hk : k < n) :
      setItem l k x = .ok (l.set k x) := setItem_ok (by rwa [hl]) x
  have hgi := getItem_values t ⟨i, hi⟩
  have hgj := getItem_values t ⟨j, hj⟩
  dsimp only at hgi hgj
  unfold swap
  rw [hgj, ok_bind, hgi, ok_bind, hset _ _ _ (length_values t) hi, ok_bind,
    hset _ _ _ (by rw [List.length_set, length_values]) hj, ok.injEq]
  refine List.ext_getElem (by simp) fun k h1 h2 => ?_
  simp only [List.getElem_set, values, List.getElem_map, Vector.getElem_toList, Table.swap,
    Table.get, Vector.getElem_swap]
  by_cases hki : k = i
  · by_cases hkj : k = j
    · subst hki hkj
      simp
    · subst hki
      simp [Ne.symm hkj]
  · by_cases hkj : k = j
    · subst hkj
      simp [hki]
    · simp [hki, hkj, Ne.symm hki, Ne.symm hkj]

/-- **A shuffle of the reference that returns is the shuffle of `block.rs`.** -/
theorem shuffleLoop_agrees {seed label : Bytes} {n : Nat} :
    ∀ {i : Nat} (hi : i < n) {t : Table n} {s : Stream} {out : List Nat}, s.Aligned →
      shuffleLoop E seed label i (values t) s = .ok out →
        ∃ r, Table.shuffle (drawIndex E seed label) i hi t s = .ok r ∧ out = values r.1
  | 0, _, t, s, _, _, h => ⟨(t, s), rfl, (ok.inj h).symm⟩
  | i + 1, hi, t, s, out, hs, h => by
    unfold shuffleLoop at h
    obtain ⟨⟨r, s₁⟩, hr, h⟩ := bind_eq_ok.mp h
    obtain ⟨word, hword, rfl, hs₁⟩ := drawLoop_agrees hs hr
    have hj : word.toNat % (i + 2) < i + 2 := Nat.mod_lt _ (by omega)
    dsimp only at h
    rw [swap_values t hi (by omega), ok_bind] at h
    obtain ⟨r, hr, hout⟩ := shuffleLoop_agrees (by omega) hs₁ h
    refine ⟨r, ?_, hout⟩
    unfold Table.shuffle drawIndex rejectionLimit
    rw [hword, ok_bind]
    exact hr

theorem shuffleFromSeed_agrees {label seed : Bytes} {size : Nat} {out : List Nat}
    (h : shuffleFromSeed E label seed size = .ok out) :
    ∃ t, Krcm.shuffleFromSeed E label seed size = .ok t ∧ out = values t := by
  cases size with
  | zero => exact ⟨Table.ident 0, rfl, (ok.inj h).symm⟩
  | succ n =>
    unfold shuffleFromSeed at h
    rw [← values_ident] at h
    obtain ⟨r, hr, hout⟩ := shuffleLoop_agrees n.lt_succ_self Stream.aligned_empty h
    refine ⟨r.1, ?_, hout⟩
    rw [Krcm.shuffleFromSeed, hr]
    rfl

/-! ## Fuel -/

/-- The rejection loops of the reference terminate: its shuffles of every seed a round can derive
return. -/
def SamplingTerminates (E : Env) : Prop :=
  ∀ seed : Hash, (∃ n out, permutationFromSeed (E.withFuel n) seed.toList = .ok out) ∧
    ∃ n out, smallPermutation (E.withFuel n) seed.toList blockBytes = .ok out

/-- Within the fuel both programs shuffle to the same tables. -/
def ShufflesAgree (E : Env) : Prop :=
  ∀ seed : Hash, (∃ p : Table 256, Krcm.permutationFromSeed E seed.toList = .ok p ∧
      permutationFromSeed E seed.toList = .ok (values p)) ∧
    ∃ q : Table blockBytes, Krcm.smallPermutation E seed.toList blockBytes = .ok q ∧
      smallPermutation E seed.toList blockBytes = .ok (values q)

theorem drawLoop_withFuel (n : Nat) (seed label : Bytes) (limit : Nat) :
    ∀ (k : Nat) (s : Stream),
      drawLoop (E.withFuel n) seed label limit k s = drawLoop E seed label limit k s
  | 0, _ => rfl
  | k + 1, s => by
    have ht : takeU64 (E.withFuel n) seed label s = takeU64 E seed label s := rfl
    simp only [drawLoop, ht, drawLoop_withFuel n seed label limit k]

theorem drawLoop_grows {seed label : Bytes} {limit : Nat} :
    ∀ {k m : Nat} {s : Stream} {r : Nat × Stream}, k ≤ m →
      drawLoop E seed label limit k s = .ok r → drawLoop E seed label limit m s = .ok r
  | 0, _, _, _, _, h => nomatch h
  | k + 1, 0, _, _, hk, _ => by omega
  | k + 1, m + 1, s, r, hk, h => by
    unfold drawLoop at h ⊢
    obtain ⟨⟨x, s₁⟩, hx, h⟩ := bind_eq_ok.mp h
    rw [hx, ok_bind]
    by_cases hge : x ≥ limit
    · simp only [hge, ↓reduceIte] at h ⊢
      exact drawLoop_grows (by omega) h
    · simp only [hge, ↓reduceIte] at h ⊢
      exact h

theorem shuffleLoop_grows {seed label : Bytes} {k m : Nat} (hk : k ≤ m) :
    ∀ {i : Nat} {vs : List Nat} {s : Stream} {out : List Nat},
      shuffleLoop (E.withFuel k) seed label i vs s = .ok out →
        shuffleLoop (E.withFuel m) seed label i vs s = .ok out
  | 0, _, _, _, h => h
  | i + 1, vs, s, out, h => by
    simp only [shuffleLoop, drawLoop_withFuel, bind_eq_ok] at h ⊢
    obtain ⟨x, hx, vs', hswap, h⟩ := h
    exact ⟨x, drawLoop_grows hk hx, vs', hswap, shuffleLoop_grows hk h⟩

/-- **Terminating loops share one fuel**, under which both programs shuffle alike. -/
theorem SamplingTerminates.fuel (hT : SamplingTerminates E) :
    ∃ n, ∀ m, n ≤ m → ShufflesAgree (E.withFuel m) := by
  choose f p hp using fun seed => (hT seed).1
  choose g q hq using fun seed => (hT seed).2
  obtain ⟨n, hn⟩ := exists_seed_bound fun seed => max (f seed) (g seed)
  refine ⟨n, fun m hm seed => ⟨?_, ?_⟩⟩
  · have hrun : permutationFromSeed (E.withFuel m) seed.toList = .ok (p seed) :=
      shuffleLoop_grows ((le_max_left _ _).trans ((hn seed).trans hm)) (hp seed)
    obtain ⟨t, ht, hvalues⟩ := shuffleFromSeed_agrees hrun
    exact ⟨t, ht, by rw [hrun, hvalues]⟩
  · have hrun : smallPermutation (E.withFuel m) seed.toList blockBytes = .ok (q seed) :=
      shuffleLoop_grows ((le_max_right _ _).trans ((hn seed).trans hm)) (hq seed)
    obtain ⟨t, ht, hvalues⟩ := shuffleFromSeed_agrees hrun
    exact ⟨t, ht, by rw [hrun, hvalues]⟩

theorem ShufflesAgree.shufflesReturn (h : ShufflesAgree E) : E.ShufflesReturn := by
  intro seed
  obtain ⟨⟨p, hp, -⟩, q, hq, -⟩ := h seed
  exact ⟨⟨p, hp⟩, q, hq⟩

/-! ## Zero hashes -/

section
variable (hz : ∀ k d, E.hmacSha256 k d = Vector.replicate 32 0)
include hz

/-- A short stream of zeros gives a zero and grows by one expansion at most. -/
theorem takeU64_of_zero (seed label : Bytes) {s : Stream} (hs : s.Aligned)
    (h0 : ∀ b ∈ s.stream, b = 0) (hlen : s.stream.length < 2 ^ 32) :
    ∃ s', takeU64 E seed label s = .ok (0, s') ∧ s'.Aligned ∧ (∀ b ∈ s'.stream, b = 0) ∧
      s'.stream.length ≤ s.stream.length + 64 := by
  have hextend : ∃ stream, extendStream E seed label s = .ok stream ∧
      stream.length ≤ s.stream.length + 64 := by
    unfold extendStream
    split
    · rw [toBytes_ok hlen, ok_bind]
      exact ⟨_, rfl, by simp [hkdfExpand64]⟩
    · exact ⟨_, rfl, Nat.le_add_right _ _⟩
  obtain ⟨stream, hstream, hle⟩ := hextend
  have hrun : takeU64 E seed label s = .ok (beNat (stream.extract s.cursor (s.cursor + 8)),
      ⟨stream, s.cursor + 8⟩) := by
    unfold takeU64
    rw [hstream, ok_bind]
  obtain ⟨word, hword, hr, -⟩ := takeU64_agrees hs hrun
  obtain ⟨s', hzero, hs', h0'⟩ := takeU64_zero hz seed label hs h0
  obtain ⟨rfl, rfl⟩ := Prod.mk.inj (ok.inj (hword.symm.trans hzero))
  exact ⟨_, by rw [hrun, ← hr]; rfl, hs', h0', hle⟩

theorem shuffleLoop_of_zero (hf : 0 < E.fuel) (seed label : Bytes) :
    ∀ {i : Nat} {vs : List Nat} {s : Stream}, i < vs.length → s.Aligned → (∀ b ∈ s.stream, b = 0) →
      s.stream.length + 64 * i < 2 ^ 32 → ∃ out, shuffleLoop E seed label i vs s = .ok out
  | 0, vs, _, _, _, _, _ => ⟨vs, rfl⟩
  | i + 1, vs, s, hi, hs, h0, hlen => by
    obtain ⟨s', ht, hs', h0', hle⟩ := takeU64_of_zero hz seed label hs h0 (by omega)
    obtain ⟨k, hk⟩ : ∃ k, E.fuel = k + 1 := ⟨E.fuel - 1, by omega⟩
    have hlimit : ¬ 0 ≥ 2 ^ 64 - 2 ^ 64 % (i + 2) := by
      have hmod := Nat.mod_lt (2 ^ 64) (show 0 < i + 2 by omega)
      omega
    simp only [shuffleLoop, hk, drawLoop, ht, ok_bind, if_neg hlimit, Nat.zero_mod]
    unfold swap
    rw [getItem_ok (by omega), ok_bind, getItem_ok hi, ok_bind, setItem_ok hi, ok_bind,
      setItem_ok (by rw [List.length_set]; omega), ok_bind]
    exact shuffleLoop_of_zero hf seed label (by simp only [List.length_set]; omega) hs' h0' (by omega)

theorem samplingTerminates_of_zero : SamplingTerminates E := by
  have hshuffle (label seed : Bytes) (size : Nat) (hsize : 64 * size < 2 ^ 32) (h1 : 1 ≤ size) :
      ∃ out, shuffleFromSeed (E.withFuel 1) label seed size = .ok out := by
    refine @shuffleLoop_of_zero (E.withFuel 1) hz Nat.one_pos seed label _ _ _ ?_
      Stream.aligned_empty nofun ?_
    · rw [List.length_range]
      omega
    · simp only [Stream.empty, List.length_nil]
      omega
  intro seed
  exact ⟨⟨1, hshuffle _ _ 256 (by decide) (by decide)⟩, 1, hshuffle _ _ 32 (by decide) (by decide)⟩

end

end Krcm.Py
