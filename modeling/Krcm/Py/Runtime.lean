import Krcm.Env
import Krcm.Base.Shuffle
import Mathlib.Data.UInt

/-!
# The Python runtime

What the Python package uses of its language. A `bytes` or `bytearray` is a
list of bytes, an `int` an `Int` (a `Nat` where it cannot be negative), and a
raised exception is an error of the run. `writeLoop` is the loop that fills a
list from an enumerated one; written through a permutation table it is a
`scatter` (`writeLoop_scatter`).
-/

namespace Krcm.Py

open Base Outcome

/-- The exceptions the package raises or lets through; `JSONDecodeError`, `UnicodeDecodeError` and
`binascii.Error` are `ValueError`s. -/
inductive PyError where
  | formatError
  | authenticationError
  | valueError
  | typeError
  | keyError
  | indexError
  | overflowError
  | attributeError
  | recursionError
  | zeroDivisionError
  | structError
  deriving DecidableEq, Repr

abbrev PyRun (α : Type) := Outcome PyError α

variable {α β : Type}

/-- `n.to_bytes(width, "big")`. -/
def toBytes (n width : Nat) : PyRun Bytes :=
  if n < 256 ^ width then .ok (beBytes width n) else .err .overflowError

/-- `l[i]`. -/
def getItem (l : List α) (i : Nat) : PyRun α := okOr l[i]? .indexError

/-- `l[i] = x`. -/
def setItem (l : List α) (i : Nat) (x : α) : PyRun (List α) :=
  if i < l.length then .ok (l.set i x) else .err .indexError

/-- An `int` as an item of a `bytearray`. -/
def byteOf (x : Int) : PyRun UInt8 :=
  if 0 ≤ x ∧ x < 256 then .ok (UInt8.ofNat x.toNat) else .err .valueError

/-- `x & 0xFF`. -/
def lowByte (x : Int) : Int := x % 256

/-- `l[-n:]`. -/
def sliceLast (l : List α) (n : Nat) : List α := if n = 0 then l else l.drop (l.length - n)

/-- `l[:-n]`. -/
def dropLast (l : List α) (n : Nat) : List α := if n = 0 then [] else l.take (l.length - n)

/-- `for i, x in enumerate(l): out[j] = y`, with `j` and `y` computed from `i` and `x`; counted
from `i`. -/
def writeLoop (f : Nat → α → PyRun (Nat × β)) : Nat → List β → List α → PyRun (List β)
  | _, out, [] => .ok out
  | i, out, x :: xs => do
    let (j, y) ← f i x
    let out ← setItem out j y
    writeLoop f (i + 1) out xs

/-! ## In range -/

theorem toBytes_ok {n width : Nat} (h : n < 256 ^ width) : toBytes n width = .ok (beBytes width n) :=
  if_pos h

theorem toBytes_eq_ok {n width : Nat} {b : Bytes} :
    toBytes n width = .ok b ↔ n < 256 ^ width ∧ b = beBytes width n := by
  unfold toBytes
  split
  · next h => simp [h, eq_comm]
  · next h => simp [h]

theorem getItem_ok {l : List α} {i : Nat} (h : i < l.length) : getItem l i = .ok l[i] := by
  unfold getItem
  rw [List.getElem?_eq_getElem h]
  rfl

theorem getItem_toList {n : Nat} (v : Vector α n) {i : Nat} (h : i < n) :
    getItem v.toList i = .ok v[i] := by
  rw [getItem_ok (by rwa [Vector.length_toList]), Vector.getElem_toList]

theorem setItem_ok {l : List α} {i : Nat} (h : i < l.length) (x : α) :
    setItem l i x = .ok (l.set i x) := if_pos h

theorem setItem_toList {n : Nat} (v : Vector α n) {i : Nat} (h : i < n) (x : α) :
    setItem v.toList i x = .ok (v.set i x).toList := by
  rw [setItem_ok (by rwa [Vector.length_toList]), Vector.toList_set]

/-- A masked sum is a byte: the sum of bytes. -/
theorem byteOf_lowByte (x : Int) : byteOf (lowByte x) = .ok (UInt8.ofInt x) := by
  have hrange : 0 ≤ x % 256 ∧ x % 256 < 256 := by omega
  unfold byteOf lowByte
  rw [if_pos hrange]
  rfl

theorem ofInt_cast (n : Nat) : UInt8.ofInt (n : Int) = UInt8.ofNat n := by
  have hlow : ((n : Int) % 2 ^ 8).toNat = n % 256 := by omega
  unfold UInt8.ofInt
  rw [hlow, ← UInt8.toNat_inj, UInt8.toNat_ofNat', UInt8.toNat_ofNat', Nat.mod_mod]

theorem ofInt_toNat (b : UInt8) : UInt8.ofInt (b.toNat : Int) = b := by
  rw [ofInt_cast, UInt8.ofNat_toNat]

/-- The sums and differences the layers store. -/
theorem ofInt_sub (x y : Int) : UInt8.ofInt (x - y) = UInt8.ofInt x - UInt8.ofInt y := by
  rw [Int.sub_eq_add_neg, UInt8.ofInt_add, UInt8.ofInt_neg, UInt8.sub_eq_add_neg]

/-! ## Filling a list -/

/-- A write loop is a fold, where each of its writes is a step of it. -/
theorem writeLoop_foldl {n : Nat} {step : Vector β n → Fin n → Vector β n}
    {f : Nat → α → PyRun (Nat × β)} {x : Vector α n} (hf : ∀ (i : Nat) (hi : i < n) (out : Vector β n), ∃ j v,
      f i x[i] = .ok (j, v) ∧ setItem out.toList j v = .ok (step out ⟨i, hi⟩).toList) :
    ∀ (k i : Nat) (out : Vector β n), i + k = n → writeLoop f i out.toList (x.toList.drop i) =
      .ok (((List.finRange n).drop i).foldl step out).toList := by
  intro k
  induction k with
  | zero =>
    intro i out hi
    rw [List.drop_eq_nil_of_le (by rw [Vector.length_toList]; omega),
      List.drop_eq_nil_of_le (by rw [List.length_finRange]; omega)]
    rfl
  | succ k ih =>
    intro i out hi
    have hlt : i < n := by omega
    rw [List.drop_eq_getElem_cons (by rwa [Vector.length_toList]),
      List.drop_eq_getElem_cons (i := i) (l := List.finRange n) (by rwa [List.length_finRange]),
      List.foldl_cons, List.getElem_finRange, Vector.getElem_toList]
    obtain ⟨j, v, hread, hwrite⟩ := hf i hlt out
    unfold writeLoop
    rw [hread, ok_bind]
    dsimp only
    rw [hwrite, ok_bind]
    exact ih (i + 1) _ (by omega)

/-- **Writing through a table scatters.** -/
theorem writeLoop_scatter {n : Nat} (t : Table n) (w : Fin n → β) {f : Nat → α → PyRun (Nat × β)}
    {x : Vector α n} (hf : ∀ (i : Nat) (hi : i < n), f i x[i] = .ok ((t.get ⟨i, hi⟩).val, w ⟨i, hi⟩))
    (init : Vector β n) : writeLoop f 0 init.toList x.toList = .ok (t.scatter w init).toList := by
  refine writeLoop_foldl (fun i hi out => ?_) n 0 init (Nat.zero_add n)
  exact ⟨_, _, hf i hi, setItem_toList out (t.get ⟨i, hi⟩).isLt (w ⟨i, hi⟩)⟩

/-- Writing every index in order fills the list. -/
theorem writeLoop_fill {n : Nat} (v : Vector β n) {f : Nat → α → PyRun (Nat × β)} {x : Vector α n}
    (hf : ∀ (i : Nat) (hi : i < n), f i x[i] = .ok (i, v[i])) (init : Vector β n) :
    writeLoop f 0 init.toList x.toList = .ok v.toList := by
  have hscatter : (Table.ident n).scatter v.get init = v := by
    apply Vector.ext
    intro i hi
    have hget := (Table.ident n).getElem_scatter v.get init ⟨i, hi⟩
    simp only [Table.get_ident] at hget
    exact hget
  rw [writeLoop_scatter (Table.ident n) v.get fun i hi => by rw [Table.get_ident]; exact hf i hi,
    hscatter]

end Krcm.Py
