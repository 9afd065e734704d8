import Krcm.Env
import Krcm.Base.Shuffle
import Mathlib.Data.Finite.Prod
import Mathlib.Data.Fintype.Order
import Mathlib.Data.Fintype.Pi
import Mathlib.Tactic.Choose

/-!
# Expanded key material and the word stream

`hkdfExpandLike`, `hkdfExpand64` and `takeU64` of `block.rs`, and the shuffle
that both permutations are. `takeU64` slices its buffer, so it can panic in
the model; on the states it is called in (`Stream.Aligned`) it does not.
-/

namespace Krcm

open Base

section
variable (E : Env)

/-- The loop of `hkdf_expand_like`; every iteration appends 32 bytes, so `length` iterations are
more than it makes. -/
def hkdfLoop (key label : Bytes) (length : Nat) : Nat → Bytes → Bytes → UInt32 → Bytes
  | 0, out, _, _ => out
  | k + 1, out, previous, counter =>
    if out.length < length then
      let previous := (E.hmacSha256 key (previous ++ label ++ beBytes 4 counter.toNat)).toList
      hkdfLoop key label length k (out ++ previous) previous (counter + 1)
    else out

theorem length_hkdfLoop (key label : Bytes) (length : Nat) :
    ∀ (k : Nat) (out previous : Bytes) (counter : UInt32), length ≤ out.length + 32 * k →
      length ≤ (hkdfLoop E key label length k out previous counter).length
  | 0, out, _, _, h => by simpa [hkdfLoop] using h
  | k + 1, out, previous, counter, h => by
    unfold hkdfLoop
    split
    · exact length_hkdfLoop key label length k _ _ _ (by simp; omega)
    · omega

def hkdfExpandLike (key label : Bytes) (length : Nat) : Arr length :=
  ⟨((hkdfLoop E key label length length [] [] 1).take length).toArray, by
    have := length_hkdfLoop E key label length length [] [] 1 (by simp; omega)
    simpa using this⟩

def hkdfExpand64 (key label : Bytes) : Arr 64 :=
  let first := E.hmacSha256 key (label ++ [0, 0, 0, 1])
  let second := E.hmacSha256 key (first.toList ++ label ++ [0, 0, 0, 2])
  (first ++ second : Arr (32 + 32))

/-- The `stream` and `cursor` of a caller of `take_u64`. -/
structure Stream where
  stream : Bytes
  cursor : Nat

/-- `Vec::new()` and `0`. -/
def Stream.empty : Stream := ⟨[], 0⟩

def takeU64 (seed label : Bytes) (s : Stream) : Run (UInt64 × Stream) := do
  let stream :=
    if s.cursor + 8 > s.stream.length then
      s.stream ++ (hkdfExpand64 E seed (label ++ beBytes 4 s.stream.length)).toList
    else s.stream
  let chunk ← Outcome.slice stream s.cursor (s.cursor + 8)
  .ok (u64OfBytes chunk, ⟨stream, s.cursor + 8⟩)

/-- `limit`: the largest multiple of `modulus` up to `2^64`. -/
def rejectionLimit (modulus : Nat) : Nat := 2 ^ 64 - 2 ^ 64 % modulus

/-- The rejection loop: words are drawn until one is below `limit`. -/
def drawLoop (seed label : Bytes) (limit : Nat) : Nat → Stream → Run (UInt64 × Stream)
  | 0, _ => .timeout
  | k + 1, s => do
    let (r, s) ← takeU64 E seed label s
    if r.toNat ≥ limit then drawLoop seed label limit k s else .ok (r, s)

/-- The body of a shuffle loop up to the swap: a position `j ≤ i`. -/
def drawIndex (seed label : Bytes) (i : Nat) (s : Stream) : Run (Fin (i + 1) × Stream) := do
  let (r, s) ← drawLoop E seed label (rejectionLimit (i + 1)) E.fuel s
  .ok (⟨r.toNat % (i + 1), Nat.mod_lt _ i.succ_pos⟩, s)

/-- The common body of `permutation_from_seed` and `small_permutation`. -/
def shuffleFromSeed (label seed : Bytes) : (size : Nat) → Run (Table size)
  | 0 => .ok (Table.ident 0)
  | n + 1 => (·.1) <$>
      Table.shuffle (drawIndex E seed label) n n.lt_succ_self (Table.ident (n + 1)) Stream.empty

def permutationFromSeed (seed : Bytes) : Run (Table 256) := shuffleFromSeed E (ascii "perm") seed 256

def smallPermutation (seed : Bytes) (size : Nat) : Run (Table size) :=
  shuffleFromSeed E (ascii "small-perm") seed size

end

/-! ## The stream never runs out -/

/-- Whole expansions in the buffer, a whole number of words read from it. -/
def Stream.Aligned (s : Stream) : Prop :=
  s.cursor % 8 = 0 ∧ s.stream.length % 64 = 0 ∧ s.cursor ≤ s.stream.length

theorem Stream.aligned_empty : Stream.empty.Aligned := by simp [Stream.Aligned, Stream.empty]

variable {E : Env}

theorem takeU64_aligned (seed label : Bytes) {s : Stream} (h : s.Aligned) :
    ∃ r s', takeU64 E seed label s = .ok (r, s') ∧ s'.Aligned := by
  obtain ⟨h8, h64, hle⟩ := h
  unfold takeU64
  by_cases hc : s.cursor + 8 > s.stream.length
  · have hlen : (hkdfExpand64 E seed (label ++ beBytes 4 s.stream.length)).toList.length = 64 := by
      simp
    simp only [hc, ↓reduceIte]
    rw [Outcome.slice_ok (by omega) (by simp only [List.length_append, hlen]; omega)]
    exact ⟨_, _, rfl, by simp; omega, by simp; omega, by simp; omega⟩
  · simp only [hc, ↓reduceIte]
    rw [Outcome.slice_ok (by omega) (by omega)]
    exact ⟨_, _, rfl, by simp; omega, by simp; omega, by simp; omega⟩

/-- From an aligned stream a rejection loop returns a word below the limit or runs out of fuel. -/
theorem drawLoop_aligned (seed label : Bytes) (limit : Nat) :
    ∀ (k : Nat) {s : Stream}, s.Aligned →
      drawLoop E seed label limit k s = .timeout ∨
        ∃ r s', drawLoop E seed label limit k s = .ok (r, s') ∧ r.toNat < limit ∧ s'.Aligned
  | 0, _, _ => .inl rfl
  | k + 1, s, hs => by
    obtain ⟨r, s', hr, hs'⟩ := takeU64_aligned (E := E) seed label hs
    unfold drawLoop
    rw [hr, Outcome.ok_bind]
    by_cases hlt : r.toNat < limit
    · simp only [ge_iff_le, Nat.not_le.mpr hlt, ↓reduceIte]
      exact .inr ⟨r, s', rfl, hlt, hs'⟩
    · simp only [ge_iff_le, Nat.not_lt.mp hlt, ↓reduceIte]
      exact drawLoop_aligned seed label limit k hs'

theorem drawIndex_aligned (seed label : Bytes) (i : Nat) {s : Stream} (hs : s.Aligned) :
    drawIndex E seed label i s = .timeout ∨
      ∃ j s', drawIndex E seed label i s = .ok (j, s') ∧ s'.Aligned := by
  unfold drawIndex
  rcases drawLoop_aligned (E := E) seed label (rejectionLimit (i + 1)) E.fuel hs with
    h | ⟨r, s1, h, -, hs1⟩
  · exact .inl (by rw [h, Outcome.timeout_bind])
  · exact .inr ⟨_, s1, by rw [h, Outcome.ok_bind], hs1⟩

/-- A shuffle returns or runs out of fuel. -/
theorem shuffleFromSeed_cases (label seed : Bytes) (size : Nat) :
    shuffleFromSeed E label seed size = .timeout ∨ ∃ t, shuffleFromSeed E label seed size = .ok t := by
  cases size with
  | zero => exact .inr ⟨_, rfl⟩
  | succ n =>
    have hcases := @Table.shuffle_cases _ _ _ (drawIndex E seed label) _
      (fun i _ hs => drawIndex_aligned seed label i hs) n n.lt_succ_self (Table.ident (n + 1))
      Stream.empty Stream.aligned_empty
    rcases hcases with h | ⟨r, h⟩
    · exact .inl (by rw [shuffleFromSeed, h]; rfl)
    · exact .inr ⟨r.1, by rw [shuffleFromSeed, h]; rfl⟩

/-! ## Fuel -/

/-- Both shuffles return within the fuel, for every seed a round can derive. -/
def Env.ShufflesReturn (E : Env) : Prop :=
  ∀ seed : Hash, (∃ t, permutationFromSeed E seed.toList = .ok t) ∧
    ∃ t, smallPermutation E seed.toList blockBytes = .ok t

/-- The rejection loops terminate: no shuffle runs out of every fuel. -/
def Env.ShufflesTerminate (E : Env) : Prop :=
  ∀ seed : Hash, (∃ n, permutationFromSeed (E.withFuel n) seed.toList ≠ .timeout) ∧
    ∃ n, smallPermutation (E.withFuel n) seed.toList blockBytes ≠ .timeout

/-- The loop reads the keyed hash only. -/
theorem drawLoop_congr {E' : Env} (h : E'.hmacSha256 = E.hmacSha256) (seed label : Bytes)
    (limit : Nat) : ∀ (k : Nat) (s : Stream),
      drawLoop E' seed label limit k s = drawLoop E seed label limit k s
  | 0, _ => rfl
  | k + 1, s => by
    have ht : takeU64 E' seed label s = takeU64 E seed label s := by
      simp only [takeU64, hkdfExpand64, h]
    simp only [drawLoop, ht, drawLoop_congr h seed label limit k]

theorem shuffleFromSeed_withChecks (b : Bool) (label seed : Bytes) (size : Nat) :
    shuffleFromSeed (E.withChecks b) label seed size = shuffleFromSeed E label seed size := by
  have hdraw : drawIndex (E.withChecks b) seed label = drawIndex E seed label := by
    funext i s
    unfold drawIndex
    rw [@drawLoop_congr E (E.withChecks b) rfl]
    rfl
  cases size with
  | zero => rfl
  | succ n => simp only [shuffleFromSeed, hdraw]

theorem drawLoop_mono (seed label : Bytes) (limit : Nat) :
    ∀ {k m : Nat} {s : Stream} {r : UInt64 × Stream}, k ≤ m →
      drawLoop E seed label limit k s = .ok r → drawLoop E seed label limit m s = .ok r
  | 0, _, _, _, _, h => nomatch h
  | k + 1, 0, _, _, hk, _ => by omega
  | k + 1, m + 1, s, r, hk, h => by
    unfold drawLoop at h ⊢
    rw [Outcome.bind_eq_ok] at h ⊢
    obtain ⟨⟨x, s1⟩, hx, h⟩ := h
    refine ⟨(x, s1), hx, ?_⟩
    by_cases hge : x.toNat ≥ limit
    · simp only [hge, ↓reduceIte] at h ⊢
      exact drawLoop_mono seed label limit (by omega) h
    · simp only [hge, ↓reduceIte] at h ⊢
      exact h

theorem shuffleFromSeed_mono {label seed : Bytes} {size k m : Nat} (hk : k ≤ m) {t : Table size}
    (h : shuffleFromSeed (E.withFuel k) label seed size = .ok t) :
    shuffleFromSeed (E.withFuel m) label seed size = .ok t := by
  cases size with
  | zero => exact h
  | succ n =>
    simp only [shuffleFromSeed, Outcome.map_eq_ok] at h ⊢
    obtain ⟨r, hr, rfl⟩ := h
    refine ⟨r, Table.shuffle_mono (fun i s r hr => ?_) n _ _ _ _ hr, rfl⟩
    have hloop (n : Nat) := @drawLoop_congr E (E.withFuel n) rfl
    simp only [drawIndex, hloop, Outcome.bind_eq_ok] at hr ⊢
    obtain ⟨x, hx, hr⟩ := hr
    exact ⟨x, drawLoop_mono seed label _ hk hx, hr⟩

/-- There are finitely many seeds. -/
theorem exists_seed_bound (f : Hash → Nat) : ∃ n, ∀ seed, f seed ≤ n := by
  have hbyte : Finite UInt8 := Finite.of_injective UInt8.toFin fun _ _ => UInt8.eq_of_toFin_eq
  have hfin : Finite Hash :=
    Finite.of_injective (fun (v : Hash) (i : Fin 32) => v[i]) fun v w h =>
      Vector.ext fun i hi => congrFun h ⟨i, hi⟩
  exact Finite.exists_le f

/-- Terminating loops share one fuel. -/
theorem Env.ShufflesTerminate.fuel (hT : E.ShufflesTerminate) :
    ∃ n, ∀ m, n ≤ m → (E.withFuel m).ShufflesReturn := by
  choose f hf using fun seed => (hT seed).1
  choose g hg using fun seed => (hT seed).2
  choose tf htf using fun seed => (shuffleFromSeed_cases _ _ _).resolve_left (hf seed)
  choose tg htg using fun seed => (shuffleFromSeed_cases _ _ _).resolve_left (hg seed)
  obtain ⟨n, hn⟩ := exists_seed_bound fun seed => max (f seed) (g seed)
  refine ⟨n, fun m hm seed => ⟨⟨tf seed, ?_⟩, ⟨tg seed, ?_⟩⟩⟩
  · exact shuffleFromSeed_mono ((le_max_left _ _).trans ((hn seed).trans hm)) (htf seed)
  · exact shuffleFromSeed_mono ((le_max_right _ _).trans ((hn seed).trans hm)) (htg seed)

/-! ## Zero hashes -/

section
variable (hz : ∀ k d, E.hmacSha256 k d = Vector.replicate 32 0)
include hz

theorem mem_hkdfLoop_zero {key label : Bytes} {length k : Nat} {out previous : Bytes}
    {counter : UInt32} (ho : ∀ b ∈ out, b = 0) {b : UInt8}
    (hb : b ∈ hkdfLoop E key label length k out previous counter) : b = 0 := by
  induction k generalizing out previous counter with
  | zero => exact ho b hb
  | succ k ih =>
    unfold hkdfLoop at hb
    split at hb
    · refine ih (fun c hc => ?_) hb
      rcases List.mem_append.mp hc with hc | hc
      · exact ho c hc
      · rw [hz, Vector.toList_replicate] at hc
        exact (List.mem_replicate.mp hc).2
    · exact ho b hb

theorem hkdfExpandLike_zero (key label : Bytes) (length : Nat) :
    hkdfExpandLike E key label length = Vector.replicate length 0 := by
  apply Vector.ext
  intro i hi
  have hb : (hkdfExpandLike E key label length)[i] ∈
      hkdfLoop E key label length length [] [] 1 := by
    unfold hkdfExpandLike
    simp only [Vector.getElem_mk, List.getElem_toArray, List.getElem_take]
    exact List.getElem_mem _
  rw [mem_hkdfLoop_zero hz (List.forall_mem_nil _) hb, Vector.getElem_replicate]

theorem mem_hkdfExpand64_zero {key label : Bytes} {b : UInt8}
    (hb : b ∈ (hkdfExpand64 E key label).toList) : b = 0 := by
  simp only [hkdfExpand64, hz, Vector.toList_append, List.mem_append, Vector.toList_replicate,
    List.mem_replicate] at hb
  rcases hb with hb | hb
  · exact hb.2
  · exact hb.2

theorem takeU64_zero (seed label : Bytes) {s : Stream} (hs : s.Aligned) (h0 : ∀ b ∈ s.stream, b = 0) :
    ∃ s', takeU64 E seed label s = .ok (0, s') ∧ s'.Aligned ∧ ∀ b ∈ s'.stream, b = 0 := by
  obtain ⟨r, s', hr, hs'⟩ := takeU64_aligned (E := E) seed label hs
  have hstream : ∀ b ∈ s'.stream, b = 0 := by
    unfold takeU64 at hr
    rw [Outcome.bind_eq_ok] at hr
    obtain ⟨chunk, -, hr⟩ := hr
    cases hr
    intro b hb
    split at hb
    · rcases List.mem_append.mp hb with hb | hb
      · exact h0 b hb
      · exact mem_hkdfExpand64_zero hz hb
    · exact h0 b hb
  refine ⟨s', ?_, hs', hstream⟩
  unfold takeU64 at hr ⊢
  rw [Outcome.bind_eq_ok] at hr ⊢
  obtain ⟨chunk, hc, hr⟩ := hr
  refine ⟨chunk, hc, ?_⟩
  cases hr
  obtain ⟨p, q, hsplit, -, -⟩ := Outcome.slice_eq_ok.mp hc
  have hchunk : ∀ b ∈ chunk, b = 0 := fun b hb => hstream b (by simp only [hsplit]; simp [hb])
  rw [u64OfBytes, beNat_zero hchunk]
  rfl

theorem drawIndex_zero (hf : 0 < E.fuel) (seed label : Bytes) {i : Nat} {s : Stream}
    (hi : i < 2 ^ 64) (hs : s.Aligned ∧ ∀ b ∈ s.stream, b = 0) :
    ∃ s', drawIndex E seed label i s = .ok (0, s') ∧ s'.Aligned ∧ ∀ b ∈ s'.stream, b = 0 := by
  obtain ⟨s', ht, hs'⟩ := takeU64_zero hz seed label hs.1 hs.2
  obtain ⟨k, hk⟩ : ∃ k, E.fuel = k + 1 := ⟨E.fuel - 1, by omega⟩
  have hlim : 0 < rejectionLimit (i + 1) := by
    have := Nat.mod_lt (2 ^ 64) (show 0 < i + 1 by omega)
    unfold rejectionLimit
    omega
  refine ⟨s', ?_, hs'⟩
  unfold drawIndex
  rw [hk, drawLoop, ht]
  simp [hlim.ne']

/-- Words of zeros rotate the entries. -/
theorem shuffleFromSeed_zero (hf : 0 < E.fuel) (label seed : Bytes) {n : Nat} (hsize : n < 2 ^ 64) :
    ∃ t, shuffleFromSeed E label seed (n + 1) = .ok t ∧ ∀ k, t.get k = k + 1 := by
  obtain ⟨r, hr, hget⟩ := Table.shuffle_zero
    (fun i s hi (hs : s.Aligned ∧ ∀ b ∈ s.stream, b = 0) =>
      drawIndex_zero hz hf seed label (by omega) hs)
    n n.lt_succ_self (Table.ident (n + 1)) Stream.empty
    ⟨Stream.aligned_empty, by simp [Stream.empty]⟩
  refine ⟨r.1, by rw [shuffleFromSeed, hr]; rfl, fun k => Fin.ext ?_⟩
  rw [hget, Fin.val_add_one]
  rcases Nat.lt_or_ge k.val n with hlt | hge
  · rw [dif_pos hlt, Table.get_ident, if_neg (show ¬ k = Fin.last n from fun h => ?_)]
    rw [h] at hlt
    exact lt_irrefl _ hlt
  · have hlast : k.val = n := by omega
    rw [dif_neg (by omega), if_pos hlast, Table.get_ident, if_pos (Fin.ext hlast)]

theorem shufflesReturn_of_zero (hf : 0 < E.fuel) : E.ShufflesReturn := fun seed =>
  ⟨(shuffleFromSeed_zero hz hf _ _ (n := 255) (by decide)).imp fun _ h => h.1,
    (shuffleFromSeed_zero hz hf _ _ (n := 31) (by decide)).imp fun _ h => h.1⟩

theorem shufflesTerminate_of_zero : E.ShufflesTerminate := by
  have hreturns : (E.withFuel 1).ShufflesReturn := shufflesReturn_of_zero hz Nat.one_pos
  intro seed
  obtain ⟨⟨t, ht⟩, u, hu⟩ := hreturns seed
  exact ⟨⟨1, by rw [ht]; exact nofun⟩, 1, by rw [hu]; exact nofun⟩

end

theorem Env.zero_shufflesTerminate : Env.zero.ShufflesTerminate :=
  shufflesTerminate_of_zero fun _ _ => rfl

end Krcm
