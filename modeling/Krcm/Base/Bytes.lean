import Krcm.Base.Outcome
import Mathlib.Algebra.Order.Ring.Nat
import Mathlib.Tactic.Positivity
import Mathlib.Tactic.Ring
import Mathlib.Data.List.FinRange
import Mathlib.Data.List.SplitLengths

/-!
# Byte strings

Big-endian numerals of a fixed width (`beBytes`, `beNat`), the `u64` fields
built on them, and the two ways a byte string is cut into pieces: `chunks n`
(the last piece may be short) and `chunksExact n` (the remainder is dropped,
each piece carries its length in its type).
-/

namespace Base

abbrev Bytes := List UInt8

/-- `[u8; n]`. -/
abbrev Arr (n : Nat) := Vector UInt8 n

/-! ## Big-endian numerals -/

/-- The low `n` bytes of `x`, most significant first. -/
def beBytes : Nat → Nat → Bytes
  | 0, _ => []
  | n + 1, x => UInt8.ofNat (x / 256 ^ n) :: beBytes n x

def beNat : Bytes → Nat
  | [] => 0
  | b :: l => b.toNat * 256 ^ l.length + beNat l

@[simp] theorem length_beBytes (n x : Nat) : (beBytes n x).length = n := by
  induction n with
  | zero => rfl
  | succ n ih => simp [beBytes, ih]

theorem beNat_beBytes (n x : Nat) : beNat (beBytes n x) = x % 256 ^ n := by
  induction n with
  | zero => simp [beBytes, beNat, Nat.mod_one]
  | succ n ih =>
    simp only [beBytes, beNat, length_beBytes, ih, UInt8.toNat_ofNat', show 2 ^ 8 = 256 from rfl]
    rw [Nat.mod_pow_succ, Nat.mul_comm, Nat.add_comm]

theorem beNat_lt (l : Bytes) : beNat l < 256 ^ l.length := by
  induction l with
  | nil => simp [beNat]
  | cons b l ih =>
    simp only [beNat, List.length_cons]
    have hb : b.toNat + 1 ≤ 256 := b.toNat_lt
    calc b.toNat * 256 ^ l.length + beNat l
        < b.toNat * 256 ^ l.length + 256 ^ l.length := by omega
      _ = (b.toNat + 1) * 256 ^ l.length := by ring
      _ ≤ 256 * 256 ^ l.length := Nat.mul_le_mul_right _ hb
      _ = 256 ^ (l.length + 1) := by ring

theorem beBytes_mod (n x : Nat) : ∀ k, n ≤ k → beBytes n (x % 256 ^ k) = beBytes n x := by
  induction n with
  | zero => intros; rfl
  | succ n ih =>
    intro k hk
    simp only [beBytes]
    rw [ih k (by omega)]
    congr 1
    apply UInt8.toNat_inj.mp
    simp only [UInt8.toNat_ofNat']
    obtain ⟨d, rfl⟩ : ∃ d, k = n + (d + 1) := ⟨k - n - 1, by omega⟩
    rw [Nat.pow_add, Nat.mod_mul_right_div_self, Nat.mod_mod_of_dvd]
    exact Dvd.intro_left (256 ^ d) rfl

theorem beBytes_beNat (l : Bytes) : beBytes l.length (beNat l) = l := by
  induction l with
  | nil => rfl
  | cons b l ih =>
    simp only [List.length_cons, beBytes, beNat]
    have hlt := beNat_lt l
    have hpos : 0 < 256 ^ l.length := by positivity
    have htail : beBytes l.length (b.toNat * 256 ^ l.length + beNat l) = l := by
      rw [← beBytes_mod l.length _ l.length le_rfl, Nat.mul_add_mod_self_right,
        beBytes_mod l.length _ l.length le_rfl, ih]
    rw [htail, Nat.mul_comm, Nat.mul_add_div hpos, Nat.div_eq_of_lt hlt, Nat.add_zero,
      UInt8.ofNat_toNat]

theorem beBytes_inj {n x y : Nat} (hx : x < 256 ^ n) (hy : y < 256 ^ n)
    (h : beBytes n x = beBytes n y) : x = y := by
  have := congrArg beNat h
  rwa [beNat_beBytes, beNat_beBytes, Nat.mod_eq_of_lt hx, Nat.mod_eq_of_lt hy] at this

theorem beNat_zero {l : Bytes} (h : ∀ b ∈ l, b = 0) : beNat l = 0 := by
  induction l with
  | nil => rfl
  | cons b l ih =>
    obtain ⟨rfl, hl⟩ := List.forall_mem_cons.mp h
    simp [beNat, ih hl]

/-- Reading a numeral and writing it back, at a known width. -/
theorem beBytes_of_length {l : Bytes} {n : Nat} (h : l.length = n) : beBytes n (beNat l) = l := by
  rw [← h, beBytes_beNat]

/-- A field holds a number iff it holds the digits of the number. -/
theorem slice_beNat {ε : Type} {l : Bytes} {a b n x : Nat} (hb : b = a + n) (hx : x < 256 ^ n) :
    (∃ f, (Outcome.slice l a b : Outcome ε Bytes) = .ok f ∧ beNat f = x) ↔
      (Outcome.slice l a b : Outcome ε Bytes) = .ok (beBytes n x) := by
  constructor
  · rintro ⟨f, hf, rfl⟩
    obtain ⟨-, -, hlen⟩ := Outcome.slice_bounds hf
    rw [beBytes_of_length (by omega), hf]
  · intro h
    exact ⟨_, h, by rw [beNat_beBytes, Nat.mod_eq_of_lt hx]⟩

/-- A field holds no byte but zero iff it holds the zeros. -/
theorem slice_zeros {ε : Type} {l : Bytes} {a b n : Nat} (hb : b = a + n) :
    (∃ f, (Outcome.slice l a b : Outcome ε Bytes) = .ok f ∧ ¬ f.any (fun x => x ≠ 0)) ↔
      (Outcome.slice l a b : Outcome ε Bytes) = .ok (List.replicate n 0) := by
  constructor
  · rintro ⟨f, hf, hz⟩
    obtain ⟨-, -, hlen⟩ := Outcome.slice_bounds hf
    have hrep : f = List.replicate n 0 := by
      refine List.eq_replicate_iff.mpr ⟨by omega, fun x hx => ?_⟩
      simp only [List.any_eq_true, not_exists, not_and, decide_eq_true_eq, not_not] at hz
      exact hz x hx
    rw [← hrep, hf]
  · intro h
    exact ⟨_, h, by simp⟩

/-- A field behind its length is read off whatever follows it. -/
theorem field_append_inj {x y s t : Bytes} (hx : x.length < 2 ^ 64) (hy : y.length < 2 ^ 64)
    (h : beBytes 8 x.length ++ (x ++ s) = beBytes 8 y.length ++ (y ++ t)) : x = y ∧ s = t := by
  obtain ⟨hlen, hrest⟩ := List.append_inj h (by rw [length_beBytes, length_beBytes])
  exact List.append_inj hrest (beBytes_inj (by omega) (by omega) hlen)

/-! ## Words -/

/-- `x.to_be_bytes()` of a `u64`. -/
def u64Bytes (x : UInt64) : Bytes := beBytes 8 x.toNat

/-- `u64::from_be_bytes`. -/
def u64OfBytes (l : Bytes) : UInt64 := UInt64.ofNat (beNat l)

@[simp] theorem length_u64Bytes (x : UInt64) : (u64Bytes x).length = 8 := length_beBytes _ _

theorem u64OfBytes_u64Bytes (x : UInt64) : u64OfBytes (u64Bytes x) = x := by
  apply UInt64.toNat_inj.mp
  have := x.toNat_lt
  simp only [u64OfBytes, u64Bytes, beNat_beBytes, UInt64.toNat_ofNat']
  omega

theorem toNat_u64OfBytes {l : Bytes} (h : l.length = 8) : (u64OfBytes l).toNat = beNat l := by
  have hlt := beNat_lt l
  rw [h] at hlt
  rw [u64OfBytes, UInt64.toNat_ofNat', Nat.mod_eq_of_lt (by omega)]

theorem u64Bytes_u64OfBytes {l : Bytes} (h : l.length = 8) : u64Bytes (u64OfBytes l) = l := by
  unfold u64Bytes
  rw [toNat_u64OfBytes h, beBytes_of_length h]

/-- A field holds a word iff it holds the bytes of the word. -/
theorem slice_u64 {ε : Type} {l : Bytes} {a : Nat} {x : UInt64} :
    (∃ f, (Outcome.slice l a (a + 8) : Outcome ε Bytes) = .ok f ∧ u64OfBytes f = x) ↔
      (Outcome.slice l a (a + 8) : Outcome ε Bytes) = .ok (u64Bytes x) := by
  constructor
  · rintro ⟨f, hf, rfl⟩
    obtain ⟨-, -, hlen⟩ := Outcome.slice_bounds hf
    rw [u64Bytes_u64OfBytes (by omega), hf]
  · intro h
    exact ⟨_, h, u64OfBytes_u64Bytes x⟩

theorem u64Bytes_inj {x y : UInt64} (h : u64Bytes x = u64Bytes y) : x = y := by
  rw [← u64OfBytes_u64Bytes x, h, u64OfBytes_u64Bytes]

/-- `x.to_be_bytes()` of a `u32`. -/
def u32Bytes (x : UInt32) : Bytes := beBytes 4 x.toNat

/-- `u32::from_be_bytes`. -/
def u32OfBytes (l : Bytes) : UInt32 := UInt32.ofNat (beNat l)

@[simp] theorem length_u32Bytes (x : UInt32) : (u32Bytes x).length = 4 := length_beBytes _ _

theorem u32OfBytes_u32Bytes (x : UInt32) : u32OfBytes (u32Bytes x) = x := by
  apply UInt32.toNat_inj.mp
  have := x.toNat_lt
  simp only [u32OfBytes, u32Bytes, beNat_beBytes, UInt32.toNat_ofNat']
  omega

theorem u32Bytes_u32OfBytes {l : Bytes} (h : l.length = 4) : u32Bytes (u32OfBytes l) = l := by
  have hlt := beNat_lt l
  rw [h] at hlt
  rw [u32OfBytes, u32Bytes, UInt32.toNat_ofNat', Nat.mod_eq_of_lt (by omega), beBytes_of_length h]

/-! ## Pieces -/

variable {α : Type}

/-- The middle of a three-way split. -/
theorem extract_mid {l p m s : List α} {i j : Nat} (hl : l = p ++ (m ++ s)) (hi : p.length = i)
    (hj : j = i + m.length) : l.extract i j = m := by
  subst hl hi hj
  simp [List.extract]

/-- Adjacent pieces join. -/
theorem extract_append_extract {l : List α} {i j k : Nat} (hij : i ≤ j) (hjk : j ≤ k) :
    l.extract i j ++ l.extract j k = l.extract i k := by
  have hd : l.drop j = (l.drop i).drop (j - i) := by
    rw [List.drop_drop, show i + (j - i) = j by omega]
  simp only [List.extract]
  rw [hd, show k - i = (j - i) + (k - j) by omega, List.take_add]

/-- Cutting a joined list at the lengths of its pieces. -/
theorem splitLengths_flatten (pieces : List (List α)) :
    (pieces.map List.length).splitLengths pieces.flatten = pieces := by
  induction pieces with
  | nil => rfl
  | cons piece pieces ih => simp [ih]

/-- `l.chunks(n)`. -/
def chunks (n : Nat) (l : List α) : List (List α) :=
  (List.range ((l.length + n - 1) / n)).map fun i => (l.drop (i * n)).take n

theorem length_chunk {n i : Nat} {l : List α} (h : i < l.length / n) :
    ((l.drop (i * n)).take n).length = n := by
  have h1 : (i + 1) * n ≤ l.length :=
    (Nat.mul_le_mul_right n h).trans (Nat.div_mul_le_self l.length n)
  rw [Nat.add_mul, Nat.one_mul] at h1
  simp only [List.length_take, List.length_drop]
  omega

/-- `l.chunks_exact(n)`. -/
def chunksExact (n : Nat) (l : List α) : List (Vector α n) :=
  (List.finRange (l.length / n)).map fun (i : Fin (l.length / n)) =>
    ⟨((l.drop (i.val * n)).take n).toArray, by simpa using length_chunk i.isLt⟩

@[simp] theorem chunks_nil (n : Nat) : chunks n ([] : List α) = [] := by
  cases n with
  | zero => simp [chunks]
  | succ n => simp [chunks, Nat.div_eq_of_lt]

@[simp] theorem chunksExact_nil (n : Nat) : chunksExact n ([] : List α) = [] := by
  simp [chunksExact]

@[simp] theorem length_chunks (n : Nat) (l : List α) :
    (chunks n l).length = (l.length + n - 1) / n := by
  simp [chunks]

@[simp] theorem length_chunksExact (n : Nat) (l : List α) :
    (chunksExact n l).length = l.length / n := by
  simp [chunksExact]

theorem getElem_chunks {n i : Nat} {l : List α} (h : i < (chunks n l).length) :
    (chunks n l)[i] = (l.drop (i * n)).take n := by
  simp [chunks]

/-- `chunks` peels the first `n` elements off. -/
theorem chunks_cons {n : Nat} (hn : 0 < n) {l : List α} (hl : l ≠ []) :
    chunks n l = l.take n :: chunks n (l.drop n) := by
  have hpos : 0 < l.length := List.length_pos_iff.mpr hl
  have hlen : (l.length + n - 1) / n = ((l.drop n).length + n - 1) / n + 1 := by
    rw [← Nat.add_div_right _ hn, List.length_drop]
    by_cases h : n ≤ l.length
    · congr 1; omega
    · rw [Nat.div_eq_of_lt_le (k := 1), Nat.div_eq_of_lt_le (k := 1)] <;> omega
  unfold chunks
  rw [hlen, List.range_succ_eq_map]
  simp [Function.comp_def, Nat.add_mul, Nat.add_comm]

/-- An exact piece in front comes out as the first piece. -/
theorem chunksExact_append {n : Nat} (hn : 0 < n) (v : Vector α n) (l : List α) :
    chunksExact n (v.toList ++ l) = v :: chunksExact n l := by
  have hv : v.toList.length = n := by simp
  have hlen : (v.toList ++ l).length / n = l.length / n + 1 := by
    rw [List.length_append, hv, Nat.add_div_left _ hn]
  apply List.ext_getElem
  · simp only [length_chunksExact, List.length_cons, hlen]
  · intro i h1 h2
    apply Vector.toList_inj.mp
    cases i with
    | zero => simp [chunksExact]
    | succ i =>
      simp only [chunksExact, List.getElem_map, List.getElem_finRange, List.getElem_cons_succ]
      have hd : v.toList.drop (n + i * n) = [] := List.drop_eq_nil_of_le (by rw [hv]; omega)
      simp [Nat.add_mul, List.drop_append, Nat.add_comm, hd]

/-- Flattening the pieces of a list of exact pieces. -/
theorem chunksExact_flatten {n : Nat} (hn : 0 < n) (vs : List (Vector α n)) :
    chunksExact n (vs.map Vector.toList).flatten = vs := by
  induction vs with
  | nil => simp
  | cons v vs ih => rw [List.map_cons, List.flatten_cons, chunksExact_append hn, ih]

theorem length_flatten_vectors {n : Nat} (vs : List (Vector α n)) :
    (vs.map Vector.toList).flatten.length = vs.length * n := by
  induction vs with
  | nil => simp
  | cons v vs ih => simp [ih, Nat.add_mul, Nat.add_comm]

/-- A list whose length is a multiple of `n` is the flattening of exact pieces. -/
theorem exists_flatten_vectors {n : Nat} {l : List α} (h : l.length % n = 0) :
    ∃ vs : List (Vector α n), l = (vs.map Vector.toList).flatten := by
  obtain ⟨k, hk⟩ := Nat.dvd_of_mod_eq_zero h
  induction k generalizing l with
  | zero => exact ⟨[], by simpa using hk⟩
  | succ k ih =>
    have hn : n ≤ l.length := by rw [hk, Nat.mul_succ]; omega
    obtain ⟨vs, hvs⟩ := ih (l := l.drop n) (by simp [hk, Nat.mul_succ]) (by simp [hk, Nat.mul_succ])
    refine ⟨⟨(l.take n).toArray, by simpa using hn⟩ :: vs, ?_⟩
    rw [List.map_cons, List.flatten_cons, ← hvs]
    simp

theorem flatten_chunksExact {n : Nat} (hn : 0 < n) {l : List α} (h : l.length % n = 0) :
    ((chunksExact n l).map Vector.toList).flatten = l := by
  obtain ⟨vs, rfl⟩ := exists_flatten_vectors h
  rw [chunksExact_flatten hn]

theorem flatten_chunks {n : Nat} (hn : 0 < n) (l : List α) : (chunks n l).flatten = l := by
  induction hk : l.length using Nat.strong_induction_on generalizing l with
  | _ k ih =>
    by_cases hl : l = []
    · simp [hl]
    · have hpos : 0 < l.length := List.length_pos_iff.mpr hl
      rw [chunks_cons hn hl, List.flatten_cons, ih (l.drop n).length (by simp; omega) _ rfl,
        List.take_append_drop]

/-- Cutting whole pieces gives the pieces. -/
theorem chunks_flatten_vectors {n : Nat} (hn : 0 < n) (vs : List (Vector α n)) :
    chunks n (vs.map Vector.toList).flatten = vs.map Vector.toList := by
  induction vs with
  | nil => simp
  | cons v vs ih =>
    have hv : v.toList.length = n := Vector.length_toList
    rw [List.map_cons, List.flatten_cons, chunks_cons hn (by
      rw [← List.length_pos_iff, List.length_append, hv]
      omega), List.take_left' hv, List.drop_left' hv, ih]

end Base
