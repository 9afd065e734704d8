import Krcm.Matrix
import Krcm.Block
import Krcm.Py.Sampling
import Mathlib.Data.Int.GCD
import Mathlib.Data.Nat.Prime.Basic

/-!
# The matrix layer of the Python reference

Integers modulo `2 ^ 64` where `block.rs` has wrapping words, and the inverse
of a determinant by the extended Euclidean algorithm where it has Newton steps.
An inverse modulo `2 ^ 64` is unique, so both find the same one
(`modinv_agrees`).
-/

namespace Krcm.Py

open Base Outcome

/-- `MODULUS`. -/
abbrev modulus : Int := 2 ^ 64

theorem natAbs_remainder_lt {a b : Int} (hb : b ≠ 0) : (a - a.fdiv b * b).natAbs < b.natAbs := by
  have hmod : a - a.fdiv b * b = a.fmod b := by
    have h := Int.mul_fdiv_add_fmod a b
    rw [Int.mul_comm] at h
    omega
  have hlt := Int.emod_lt_abs a hb
  have hnonneg := Int.emod_nonneg a hb
  rw [Int.abs_eq_natAbs] at hlt
  rw [hmod, Int.fmod_eq_emod]
  split
  · omega
  · next hneg =>
    rw [not_or, Int.not_le] at hneg
    have hne : a % b ≠ 0 := fun h => hneg.2 (Int.dvd_of_emod_eq_zero h)
    omega

/-- The loop `while r` of `extended_gcd`. -/
def extendedGcdLoop (oldR r oldS s oldT t : Int) : Int × Int × Int :=
  if _h : r = 0 then (oldR, oldS, oldT)
  else
    let q := oldR.fdiv r
    extendedGcdLoop r (oldR - q * r) s (oldS - q * s) t (oldT - q * t)
termination_by r.natAbs
decreasing_by exact natAbs_remainder_lt _h

def extendedGcd (a b : Int) : Int × Int × Int := extendedGcdLoop a b 1 0 0 1

def modinv (a modulus : Int) : PyRun Int := do
  rejectIf (modulus = 0) .zeroDivisionError
  let (d, x, _) := extendedGcd (a.fmod modulus) modulus
  rejectIf (d ≠ 1) .valueError
  .ok (x.fmod modulus)

/-- `[int(x) % MODULUS for x in matrix]` of four integers. -/
def fourWords (matrix : List Int) : PyRun (Int × Int × Int × Int) :=
  match matrix with
  | [a, b, c, d] => .ok (a % modulus, b % modulus, c % modulus, d % modulus)
  | _ => .err .valueError

def matrixDet (matrix : List Int) : PyRun Int := do
  let (a, b, c, d) ← fourWords matrix
  .ok ((a * d - b * c) % modulus)

def matrixMul (left right : List Int) : PyRun (List Int) := do
  let (a, b, c, d) ← fourWords left
  let (e, f, g, h) ← fourWords right
  .ok [(a * e + b * g) % modulus, (a * f + b * h) % modulus, (c * e + d * g) % modulus,
    (c * f + d * h) % modulus]

def matrixInv (matrix : List Int) : PyRun (List Int) := do
  let (a, b, c, d) ← fourWords matrix
  let det ← matrixDet [a, b, c, d]
  let invDet ← modinv det modulus
  .ok [d * invDet % modulus, -b * invDet % modulus, -c * invDet % modulus, a * invDet % modulus]

/-- `struct.unpack(">QQQQ", block)`. -/
def wordsFromBlock (block : Bytes) : PyRun (List Int) := do
  rejectIf (block.length ≠ blockBytes) .valueError
  .ok [(beNat (block.extract 0 8) : Int), (beNat (block.extract 8 16) : Int),
    (beNat (block.extract 16 24) : Int), (beNat (block.extract 24 32) : Int)]

/-- `struct.pack(">QQQQ", ..)`. -/
def blockFromWords (words : List Int) : PyRun Bytes := do
  rejectIf (words.length ≠ 4) .valueError
  .ok (words.map fun w => beBytes 8 (w % modulus).toNat).flatten

/-- `n & ~1`. -/
def clearLow (n : Nat) : Nat := n - n % 2

/-- `x ^ 1` of the last word. -/
def flipLow (matrix : List Int) : List Int :=
  match matrix with
  | [a, b, c, d] => [a, b, c, if d % 2 = 0 then d + 1 else d - 1]
  | _ => matrix

def matrixFromSeed (E : Env) (seed : Bytes) : PyRun (List Int) := do
  let material ← hkdfExpandLike E seed (ascii "matrix") 64
  let a := beNat (material.extract 0 8) ||| 1
  let b := clearLow (beNat (material.extract 8 16))
  let c := clearLow (beNat (material.extract 16 24))
  let d := beNat (material.extract 24 32) ||| 1
  let matrix := [a % modulus, b % modulus, c % modulus, d % modulus]
  let det ← matrixDet matrix
  .ok (if det % 2 = 0 then flipLow matrix else matrix)

/-! ## The extended Euclidean algorithm -/

/-- The loop keeps both rows combinations of `a` and `b`, the common divisors, and the sign. -/
theorem extendedGcdLoop_spec (a b oldR r oldS s oldT t : Int) :
    oldR = a * oldS + b * oldT → r = a * s + b * t → 0 ≤ oldR → 0 ≤ r →
      let out := extendedGcdLoop oldR r oldS s oldT t
      out.1 = a * out.2.1 + b * out.2.2 ∧ out.1 = Int.gcd oldR r := by
  induction oldR, r, oldS, s, oldT, t using extendedGcdLoop.induct with
  | case1 oldR oldS s oldT t =>
    intro hold _ hpos _
    rw [extendedGcdLoop, dif_pos rfl]
    refine ⟨hold, ?_⟩
    rw [Int.gcd_zero_right, Int.natAbs_of_nonneg hpos]
  | case2 oldR r oldS s oldT t hr q ih =>
    intro hold hnew hpos hr0
    have hrem : oldR - q * r = oldR.fmod r := by
      have h := Int.mul_fdiv_add_fmod oldR r
      rw [Int.mul_comm] at h
      dsimp only [q]
      omega
    have hnext : oldR - q * r = a * (oldS - q * s) + b * (oldT - q * t) := by
      rw [hold, hnew]
      ring
    have hrem0 : 0 ≤ oldR - q * r := by
      rw [hrem]
      exact Int.fmod_nonneg hpos hr0
    obtain ⟨hcomb, hgcd⟩ := ih hnew hnext hr0 hrem0
    rw [extendedGcdLoop, dif_neg hr]
    refine ⟨hcomb, ?_⟩
    rw [hgcd, Int.gcd_sub_mul_right_right, Int.gcd_comm]

theorem extendedGcd_spec {a b : Int} (ha : 0 ≤ a) (hb : 0 ≤ b) :
    (extendedGcd a b).1 = a * (extendedGcd a b).2.1 + b * (extendedGcd a b).2.2 ∧
      (extendedGcd a b).1 = Int.gcd a b :=
  extendedGcdLoop_spec a b a b 1 0 0 1 (by ring) (by ring) ha hb

/-! ## Words -/

open scoped UInt64.CommRing

/-- Four words as integers. -/
def ints (w : Words) : List Int := w.toList.map fun x => (x.toNat : Int)

theorem ints_eq (w : Words) : ints w =
    [((w.get 0).toNat : Int), ((w.get 1).toNat : Int), ((w.get 2).toNat : Int),
      ((w.get 3).toNat : Int)] := by
  have hwords : w.toList = [w.get 0, w.get 1, w.get 2, w.get 3] := by
    refine List.ext_getElem (by simp) fun i h1 h2 => ?_
    have hi : i < 4 := by simpa using h1
    obtain rfl | rfl | rfl | rfl : i = 0 ∨ i = 1 ∨ i = 2 ∨ i = 3 := by omega
    all_goals rfl
  unfold ints
  rw [hwords]
  rfl

/-- Reducing modulo `2 ^ 64` is wrapping. -/
theorem emod_modulus (x : Int) : x % modulus = ((UInt64.ofInt x).toNat : Int) := by
  have hrange : 0 ≤ x % 2 ^ 64 ∧ x % 2 ^ 64 < 2 ^ 64 := by omega
  unfold UInt64.ofInt modulus
  rw [UInt64.toNat_ofNat']
  omega

theorem ofInt_word (a : UInt64) : UInt64.ofInt (a.toNat : Int) = a := by
  have h := a.toNat_lt
  have hreduce := emod_modulus a.toNat
  unfold modulus at hreduce
  exact UInt64.toNat_inj.mp (by omega)

theorem ofInt_neg_word (a : UInt64) : UInt64.ofInt (-(a.toNat : Int)) = 0 - a := by
  rw [UInt64.ofInt_neg, ofInt_word, UInt64.zero_sub]

theorem word_emod (a : UInt64) : (a.toNat : Int) % modulus = a.toNat := by
  rw [emod_modulus, ofInt_word]

theorem fourWords_ints (w : Words) : fourWords (ints w) =
    .ok (((w.get 0).toNat : Int), ((w.get 1).toNat : Int), ((w.get 2).toNat : Int),
      ((w.get 3).toNat : Int)) := by
  unfold fourWords
  rw [ints_eq]
  simp only [word_emod]

theorem matrixDet_agrees (m : Words) : matrixDet (ints m) = .ok ((Krcm.matrixDet m).toNat : Int) := by
  unfold matrixDet Krcm.matrixDet
  rw [fourWords_ints, ok_bind]
  dsimp only
  rw [emod_modulus, Int.sub_eq_add_neg, UInt64.ofInt_add, UInt64.ofInt_neg]
  simp only [UInt64.ofInt_mul, ofInt_word, UInt64.sub_eq_add_neg]
  rfl

theorem matrixMul_agrees (l r : Words) :
    matrixMul (ints l) (ints r) = .ok (ints (Krcm.matrixMul l r)) := by
  have hentry (a b c d : UInt64) : ((a.toNat : Int) * b.toNat + c.toNat * d.toNat) % modulus =
      ((a * b + c * d).toNat : Int) := by
    simp only [emod_modulus, UInt64.ofInt_add, UInt64.ofInt_mul, ofInt_word]
  unfold matrixMul
  simp only [fourWords_ints, ok_bind, hentry]
  rfl

theorem odd_toNat {a : UInt64} (h : Odd64 a) : a.toNat % 2 = 1 := by
  obtain ⟨m, rfl⟩ := h
  simp only [UInt64.toNat_add, UInt64.toNat_mul, UInt64.reduceToNat]
  omega

/-- Inverses in the ring of words are unique. -/
theorem inverse_unique {a x y : UInt64} (hx : a * x = 1) (hy : a * y = 1) : x = y := by
  calc x = x * (a * y) := by rw [hy, mul_one]
    _ = (a * x) * y := by ring
    _ = y := by rw [hx, one_mul]

/-- **Both programs invert an odd word alike.** -/
theorem modinv_agrees {a : UInt64} (h : Odd64 a) :
    modinv a.toNat modulus = .ok ((modinvOddU64 a).toNat : Int) := by
  have hcoprime : Int.gcd a.toNat modulus = 1 := by
    have hnat : Nat.Coprime a.toNat (2 ^ 64) :=
      Nat.Coprime.pow_right 64 (Nat.coprime_two_right.mpr (Nat.odd_iff.mpr (odd_toNat h)))
    exact hnat
  obtain ⟨hcomb, hgcd⟩ := extendedGcd_spec (Int.natCast_nonneg a.toNat) (show 0 ≤ modulus by decide)
  rw [hcoprime] at hgcd
  have hmod (x : Int) : x.fmod modulus = x % modulus := Int.fmod_eq_emod_of_nonneg x (by decide)
  unfold modinv
  rw [rejectIf_false (by decide), ok_bind, hmod, word_emod]
  generalize extendedGcd (a.toNat : Int) modulus = out at hcomb hgcd
  obtain ⟨d, x, y⟩ := out
  dsimp only at hcomb hgcd ⊢
  rw [rejectIf_false (by rw [hgcd]; decide), ok_bind, hmod, emod_modulus]
  -- Both are inverses of `a` in the ring of words.
  have hinverse : a * UInt64.ofInt x = 1 := by
    have hzero : UInt64.ofInt modulus = 0 := rfl
    have hone : UInt64.ofInt ((a.toNat : Int) * x + modulus * y) = 1 := by
      rw [← hcomb, hgcd]
      rfl
    rwa [UInt64.ofInt_add, UInt64.ofInt_mul, UInt64.ofInt_mul, ofInt_word, hzero, zero_mul,
      add_zero] at hone
  rw [inverse_unique hinverse (mul_modinvOddU64 h)]

theorem matrixInv_agrees {m : Words} (h : Odd64 (Krcm.matrixDet m)) :
    matrixInv (ints m) = .ok (ints (Krcm.matrixInv m)) := by
  have hdet := matrixDet_agrees m
  have hentry (a b : UInt64) : (a.toNat : Int) * b.toNat % modulus = ((a * b).toNat : Int) := by
    rw [emod_modulus, UInt64.ofInt_mul, ofInt_word, ofInt_word]
  have hneg (a b : UInt64) : -(a.toNat : Int) * b.toNat % modulus = (((0 - a) * b).toNat : Int) := by
    rw [emod_modulus, UInt64.ofInt_mul, ofInt_neg_word, ofInt_word]
  rw [ints_eq] at hdet
  unfold matrixInv
  simp only [fourWords_ints, ok_bind, hdet, modinv_agrees h, hentry, hneg]
  rfl

/-! ## Seeds -/

theorem clearLow_word (x : UInt64) : clearLow x.toNat = (x &&& ~~~1).toNat := by
  have hx := x.toNat_lt
  have hhalf : clearLow x.toNat = 2 * (x.toNat / 2) := by
    unfold clearLow
    omega
  have hmask : (~~~(1 : UInt64)).toNat = 2 ^ 64 - (1 + 1) := rfl
  rw [hhalf, UInt64.toNat_and, hmask]
  refine Nat.eq_of_testBit_eq fun i => ?_
  rw [Nat.testBit_and, Nat.testBit_two_pow_sub_succ (by decide)]
  cases i with
  | zero => simp
  | succ i =>
    rw [Nat.testBit_succ, Nat.mul_div_cancel_left _ (by decide), ← Nat.testBit_succ]
    rcases Nat.lt_or_ge (i + 1) 64 with hlt | hge
    · simp [hlt, Nat.testBit_succ]
    · rw [Nat.testBit_lt_two_pow (hx.trans_le (Nat.pow_le_pow_right (by decide) hge)),
        Bool.false_and]

theorem or_one_word (x : UInt64) : x.toNat ||| 1 = (x ||| 1).toNat := by
  rw [UInt64.toNat_or]
  rfl

/-- `_matrix_from_seed` up to the defensive branch. -/
def forcedMatrix (E : Env) (seed : Bytes) : PyRun (List Int) := do
  let material ← hkdfExpandLike E seed (ascii "matrix") 64
  let a := beNat (material.extract 0 8) ||| 1
  let b := clearLow (beNat (material.extract 8 16))
  let c := clearLow (beNat (material.extract 16 24))
  let d := beNat (material.extract 24 32) ||| 1
  .ok [a % modulus, b % modulus, c % modulus, d % modulus]

theorem matrixFromSeed_eq (E : Env) (seed : Bytes) : matrixFromSeed E seed = (do
    let matrix ← forcedMatrix E seed
    let det ← matrixDet matrix
    .ok (if det % 2 = 0 then flipLow matrix else matrix)) := by
  unfold matrixFromSeed forcedMatrix
  rw [bind_assoc]
  rfl

theorem forcedMatrix_agrees (E : Env) (seed : Bytes) :
    forcedMatrix E seed = .ok (ints (Krcm.matrixFromSeed E seed)) := by
  have hmaterial : hkdfExpandLike E seed (ascii "matrix") 64 =
      .ok (Krcm.hkdfExpandLike E seed (ascii "matrix") 64).toList :=
    @hkdfExpandLike_agrees E seed (ascii "matrix") 64 (by decide)
  have hword (i : Nat) (hi : i + 8 ≤ 64) :
      beNat ((Krcm.hkdfExpandLike E seed (ascii "matrix") 64).toList.extract i (i + 8)) =
        (readU64Be ((Krcm.hkdfExpandLike E seed (ascii "matrix") 64).toList.extract i (i + 8))).toNat :=
    (toNat_u64OfBytes (by simp; omega)).symm
  have hints : ints (Krcm.matrixFromSeed E seed) = [
      ((readU64Be ((Krcm.hkdfExpandLike E seed (ascii "matrix") 64).toList.extract 0 8) ||| 1).toNat
        : Int),
      ((readU64Be ((Krcm.hkdfExpandLike E seed (ascii "matrix") 64).toList.extract 8 16) &&&
        ~~~1).toNat : Int),
      ((readU64Be ((Krcm.hkdfExpandLike E seed (ascii "matrix") 64).toList.extract 16 24) &&&
        ~~~1).toNat : Int),
      ((readU64Be ((Krcm.hkdfExpandLike E seed (ascii "matrix") 64).toList.extract 24 32) |||
        1).toNat : Int)] := rfl
  unfold forcedMatrix
  rw [hmaterial, ok_bind, hword 0 (by decide), hword 8 (by decide), hword 16 (by decide),
    hword 24 (by decide)]
  simp only [or_one_word, clearLow_word, word_emod]
  rw [← hints]

/-- The determinant of a derived matrix is odd, so the defensive branch is not taken. -/
theorem matrixFromSeed_agrees (E : Env) (seed : Bytes) :
    matrixFromSeed E seed = .ok (ints (Krcm.matrixFromSeed E seed)) := by
  have hodd : ¬ ((Krcm.matrixDet (Krcm.matrixFromSeed E seed)).toNat : Int) % 2 = 0 := by
    have h := odd_toNat (matrixFromSeed_odd E seed)
    omega
  rw [matrixFromSeed_eq, forcedMatrix_agrees, ok_bind, matrixDet_agrees, ok_bind, if_neg hodd]

/-! ## Blocks -/

theorem wordsFromBlock_agrees (block : Block) :
    wordsFromBlock block.toList = .ok (ints (Krcm.wordsFromBlock block)) := by
  have hword (i : Nat) (hi : i + 8 ≤ 32) : beNat (block.toList.extract i (i + 8)) =
      (readU64Be (block.toList.extract i (i + 8))).toNat :=
    (toNat_u64OfBytes (by simp; omega)).symm
  unfold wordsFromBlock
  rw [rejectIf_false (by simp), ok_bind, hword 0 (by decide), hword 8 (by decide),
    hword 16 (by decide), hword 24 (by decide)]
  rfl

theorem blockFromWords_agrees (w : Words) :
    blockFromWords (ints w) = .ok (Krcm.blockFromWords w).toList := by
  have hbytes (x : UInt64) : beBytes 8 ((x.toNat : Int) % modulus).toNat = u64Bytes x := by
    rw [word_emod, Int.toNat_natCast]
    rfl
  unfold blockFromWords
  rw [ints_eq]
  rw [rejectIf_false (by simp), ok_bind, ok.injEq, Krcm.blockFromWords, toList_arrOfList]
  simp only [List.map_cons, List.map_nil, hbytes, List.flatten_cons, List.flatten_nil,
    List.append_assoc, List.append_nil]

/-! ## Inversion -/

/-- The variables of the loop of `extended_gcd`. -/
structure GcdState where
  oldR : Int
  r : Int
  oldS : Int
  s : Int
  oldT : Int
  t : Int

namespace GcdState

/-- The body of the loop. -/
def body (x : GcdState) : GcdState :=
  let q := x.oldR.fdiv x.r
  ⟨x.r, x.oldR - q * x.r, x.s, x.oldS - q * x.s, x.t, x.oldT - q * x.t⟩

/-- What stands before the loop. -/
def start (a b : Int) : GcdState := ⟨a, b, 1, 0, 0, 1⟩

def result (x : GcdState) : Int × Int × Int := (x.oldR, x.oldS, x.oldT)

end GcdState

/-- **The loop terminates**: `r` is zero after at most `r` rounds, and then the loop ends. -/
theorem extendedGcdLoop_terminates (oldR r oldS s oldT t : Int) :
    ∃ k ≤ r.natAbs, (∀ j < k, (GcdState.body^[j] ⟨oldR, r, oldS, s, oldT, t⟩).r ≠ 0) ∧
      (GcdState.body^[k] ⟨oldR, r, oldS, s, oldT, t⟩).r = 0 ∧
      extendedGcdLoop oldR r oldS s oldT t =
        (GcdState.body^[k] ⟨oldR, r, oldS, s, oldT, t⟩).result := by
  induction oldR, r, oldS, s, oldT, t using extendedGcdLoop.induct with
  | case1 oldR oldS s oldT t =>
    refine ⟨0, Nat.zero_le _, fun j hj => absurd hj (Nat.not_lt_zero j), rfl, ?_⟩
    rw [extendedGcdLoop, dif_pos rfl]
    rfl
  | case2 oldR r oldS s oldT t hr q ih =>
    obtain ⟨k, hk, hrounds, hend, hout⟩ := ih
    have hlt : (oldR - q * r).natAbs < r.natAbs := natAbs_remainder_lt hr
    refine ⟨k + 1, by omega, fun j hj => ?_, ?_, ?_⟩
    · rcases j with _ | j
      · exact hr
      · rw [Function.iterate_succ_apply]
        exact hrounds j (by omega)
    · rw [Function.iterate_succ_apply]
      exact hend
    · rw [extendedGcdLoop, dif_neg hr, Function.iterate_succ_apply]
      exact hout

/-- An odd word is twice another and one. -/
theorem odd64_of_toNat {a : UInt64} (h : a.toNat % 2 = 1) : Odd64 a := by
  refine odd64_of_testBit ?_
  rw [Nat.testBit_zero, h]
  rfl

/-- **Inversion modulo `2 ^ 64` is correct, and the two programs agree on it**: on odd words, on
matrices of odd determinant, and every derived matrix is one. -/
theorem matrix_inversion :
    (∀ a : UInt64, a.toNat % 2 = 1 →
      a * modinvOddU64 a = 1 ∧ (∀ x, a * x = 1 → x = modinvOddU64 a) ∧
      modinv a.toNat modulus = .ok ((modinvOddU64 a).toNat : Int)) ∧
    (∀ a b : Int, ∃ k, (∀ j < k, (GcdState.body^[j] (.start a b)).r ≠ 0) ∧
      (GcdState.body^[k] (.start a b)).r = 0 ∧
      extendedGcd a b = (GcdState.body^[k] (.start a b)).result) ∧
    (∀ m : Words, (Krcm.matrixDet m).toNat % 2 = 1 →
      matrixInv (ints m) = .ok (ints (Krcm.matrixInv m)) ∧
      Krcm.matrixMul (Krcm.matrixInv m) m = #v[1, 0, 0, 1] ∧
      Krcm.matrixMul m (Krcm.matrixInv m) = #v[1, 0, 0, 1] ∧
      matrixMul (ints (Krcm.matrixInv m)) (ints m) = .ok [1, 0, 0, 1] ∧
      matrixMul (ints m) (ints (Krcm.matrixInv m)) = .ok [1, 0, 0, 1]) ∧
    ∀ (E : Env) (seed : Bytes), ∃ det : Int,
      (Krcm.matrixDet (Krcm.matrixFromSeed E seed)).toNat % 2 = 1 ∧
      matrixFromSeed E seed = .ok (ints (Krcm.matrixFromSeed E seed)) ∧
      matrixDet (ints (Krcm.matrixFromSeed E seed)) = .ok det ∧ det % 2 = 1 ∧
      matrixFromSeed E seed = forcedMatrix E seed := by
  refine ⟨fun a h => ?_, fun a b => ?_, fun m h => ?_, fun E seed => ?_⟩
  · have hodd := odd64_of_toNat h
    have hinverse := mul_modinvOddU64 hodd
    exact ⟨hinverse, fun x hx => inverse_unique hx hinverse, modinv_agrees hodd⟩
  · obtain ⟨k, -, hrounds, hend, hout⟩ := extendedGcdLoop_terminates a b 1 0 0 1
    exact ⟨k, hrounds, hend, hout⟩
  · have hodd := odd64_of_toNat h
    have hone : toMatrix #v[1, 0, 0, 1] = 1 := Matrix.one_fin_two.symm
    have hleft : Krcm.matrixMul (Krcm.matrixInv m) m = #v[1, 0, 0, 1] := by
      apply toMatrix_injective
      rw [toMatrix_mul, toMatrix_inv_mul hodd, hone]
    have hright : Krcm.matrixMul m (Krcm.matrixInv m) = #v[1, 0, 0, 1] := by
      apply toMatrix_injective
      rw [toMatrix_mul, toMatrix_mul_inv hodd, hone]
    refine ⟨matrixInv_agrees hodd, hleft, hright, ?_, ?_⟩
    · rw [matrixMul_agrees, hleft]
      rfl
    · rw [matrixMul_agrees, hright]
      rfl
  · have hodd := odd_toNat (matrixFromSeed_odd E seed)
    refine ⟨_, hodd, matrixFromSeed_agrees E seed, matrixDet_agrees _, by omega, ?_⟩
    rw [matrixFromSeed_agrees, forcedMatrix_agrees]

end Krcm.Py
