import Krcm.Base.Text
import Krcm.Py.Runtime

/-!
# Python text

A `str` is the list of its code points. UTF-8, decimal integers under the
digit limit of the interpreter, and `base64` with the strict decoder of
`binascii`.
-/

namespace Krcm.Py

open Base Outcome

abbrev Str := List Nat

/-- A string literal. -/
def str (s : String) : Str := s.toList.map Char.toNat

/-- What the package takes from its interpreter. -/
structure Interp where
  /-- `sys.get_int_max_str_digits()`; `none` where it is switched off. -/
  maxStrDigits : Option Nat
  /-- JSON containers that may nest before the interpreter raises `RecursionError`. -/
  recursionLimit : Nat
  /-- `int(s)` of a string; `none` is a `ValueError`. -/
  intOfStr : Str → Option Int
  /-- The integer part of a decimal fraction in JSON; `none` where it rounds to an infinity. -/
  truncate : Str → Option Int
  maxStrDigits_ge : ∀ limit ∈ maxStrDigits, 640 ≤ limit
  recursionLimit_pos : 0 < recursionLimit

/-! ## UTF-8 -/

def isSurrogate (c : Nat) : Bool := 0xD800 ≤ c ∧ c < 0xE000

def encodePoint (c : Nat) : PyRun Bytes :=
  if c < 0x80 then .ok [.ofNat c]
  else if c < 0x800 then .ok [.ofNat (0xC0 + c / 64), .ofNat (0x80 + c % 64)]
  else if isSurrogate c then .err .valueError
  else if c < 0x10000 then
    .ok [.ofNat (0xE0 + c / 4096), .ofNat (0x80 + c / 64 % 64), .ofNat (0x80 + c % 64)]
  else .ok [.ofNat (0xF0 + c / 262144), .ofNat (0x80 + c / 4096 % 64), .ofNat (0x80 + c / 64 % 64),
    .ofNat (0x80 + c % 64)]

/-- `s.encode("utf-8")`. -/
def encodeUtf8 : Str → PyRun Bytes
  | [] => .ok []
  | c :: s => do
    let point ← encodePoint c
    let rest ← encodeUtf8 s
    .ok (point ++ rest)

/-- The payload of a continuation byte. -/
def continuation (b : UInt8) : PyRun Nat := do
  rejectIf (¬ (0x80 ≤ b ∧ b < 0xC0)) .valueError
  .ok (b.toNat - 0x80)

/-- `data.decode("utf-8")`. -/
def decodeUtf8 : Bytes → PyRun Str
  | [] => .ok []
  | a :: l =>
    if a < 0x80 then do
      let rest ← decodeUtf8 l
      .ok (a.toNat :: rest)
    else if a < 0xC0 then .err .valueError
    else if a < 0xE0 then
      match l with
      | b :: l => do
        let b ← continuation b
        let c := (a.toNat - 0xC0) * 64 + b
        rejectIf (c < 0x80) .valueError
        let rest ← decodeUtf8 l
        .ok (c :: rest)
      | _ => .err .valueError
    else if a < 0xF0 then
      match l with
      | b :: b' :: l => do
        let b ← continuation b
        let b' ← continuation b'
        let c := (a.toNat - 0xE0) * 4096 + b * 64 + b'
        rejectIf (c < 0x800 ∨ isSurrogate c) .valueError
        let rest ← decodeUtf8 l
        .ok (c :: rest)
      | _ => .err .valueError
    else
      match l with
      | b :: b' :: b'' :: l => do
        let b ← continuation b
        let b' ← continuation b'
        let b'' ← continuation b''
        let c := (a.toNat - 0xF0) * 262144 + b * 4096 + b' * 64 + b''
        rejectIf (c < 0x10000 ∨ 0x10FFFF < c) .valueError
        let rest ← decodeUtf8 l
        .ok (c :: rest)
      | _ => .err .valueError

/-! ## Integers -/

/-- The check of the digit limit, in both directions. -/
def checkDigits (I : Interp) (text : Str) : PyRun Unit :=
  rejectIf (I.maxStrDigits.any fun limit => limit < text.length) .valueError

/-- `int.__repr__`. -/
def intRepr (I : Interp) (n : Int) : PyRun Str := do
  let text := digits n.natAbs
  checkDigits I text
  .ok (if n < 0 then 45 :: text else text)

/-- A numeral with a sign, as `int` reads it. -/
def intOfDigits (I : Interp) (negative : Bool) (text : Str) : PyRun Int := do
  checkDigits I text
  .ok (if negative then -(ofDigits text : Int) else ofDigits text)

/-! ## base64 -/

/-- The loop of `binascii.a2b_base64` in strict mode. -/
def a2bLoop (quadPos left pads : Nat) (paddingStarted : Bool) : Bytes → PyRun Bytes
  | [] => if quadPos ≠ 0 then .err .valueError else .ok []
  | c :: l =>
    if c = base64Pad then
      if 2 ≤ quadPos ∧ 4 ≤ quadPos + (pads + 1) then
        -- Nothing may follow the last pad.
        if l ≠ [] then .err .valueError else .ok []
      else a2bLoop quadPos left (if 2 ≤ quadPos then pads + 1 else pads) true l
    else
      match base64Value c with
      | none => .err .valueError
      | some v =>
        if paddingStarted then .err .valueError
        else
          match quadPos with
          | 0 => a2bLoop 1 v 0 false l
          | 1 => do
            let rest ← a2bLoop 2 (v % 16) 0 false l
            .ok (.ofNat (left * 4 + v / 16) :: rest)
          | 2 => do
            let rest ← a2bLoop 3 (v % 4) 0 false l
            .ok (.ofNat (left * 16 + v / 4) :: rest)
          | _ => do
            let rest ← a2bLoop 0 0 0 false l
            .ok (.ofNat (left * 64 + v) :: rest)

def a2bBase64 (text : Bytes) : PyRun Bytes := do
  rejectIf (text.head? = some base64Pad) .valueError
  a2bLoop 0 0 0 false text

/-- `base64.b64decode(s, validate=True)` of a string. -/
def b64decode (s : Str) : PyRun Bytes := do
  rejectIf (s.any fun c => 128 ≤ c) .valueError
  a2bBase64 (s.map UInt8.ofNat)

/-- `base64.b64encode(data).decode("ascii")`. -/
def b64encode (data : Bytes) : Str := (base64 data).map UInt8.toNat

/-! ## Round trips -/

theorem encodeUtf8_ascii {s : Str} (h : ∀ c ∈ s, c < 128) : encodeUtf8 s = .ok (s.map UInt8.ofNat) := by
  induction s with
  | nil => rfl
  | cons c s ih =>
    obtain ⟨hc, hs⟩ := List.forall_mem_cons.mp h
    unfold encodeUtf8 encodePoint
    rw [if_pos hc, ok_bind, ih hs]
    rfl

theorem decodeUtf8_ascii {s : Str} (h : ∀ c ∈ s, c < 128) : decodeUtf8 (s.map UInt8.ofNat) = .ok s := by
  induction s with
  | nil => rfl
  | cons c s ih =>
    obtain ⟨hc, hs⟩ := List.forall_mem_cons.mp h
    have hnat : (UInt8.ofNat c).toNat = c := by
      rw [UInt8.toNat_ofNat', Nat.mod_eq_of_lt (by omega)]
    have hlow : UInt8.ofNat c < 0x80 := by
      rw [UInt8.lt_iff_toNat_lt, hnat]
      exact hc
    rw [List.map_cons]
    unfold decodeUtf8
    rw [if_pos hlow, ih hs, ok_bind, hnat]

theorem intRepr_eq_ok {I : Interp} {n : Int} {text : Str} :
    intRepr I n = .ok text ↔ checkDigits I (digits n.natAbs) = .ok () ∧
      text = if n < 0 then 45 :: digits n.natAbs else digits n.natAbs := by
  simp only [intRepr, bind_eq_ok, ok.injEq]
  constructor
  · rintro ⟨_, hc, rfl⟩
    exact ⟨hc, rfl⟩
  · rintro ⟨hc, rfl⟩
    exact ⟨(), hc, rfl⟩

/-- A text as long as one the interpreter printed reads back. -/
theorem intOfDigits_digits {I : Interp} {n : Int} (h : checkDigits I (digits n.natAbs) = .ok ()) :
    intOfDigits I (decide (n < 0)) (digits n.natAbs) = .ok n := by
  unfold intOfDigits
  rw [h, ok_bind, ofDigits_digits]
  by_cases hneg : n < 0
  · simp only [hneg, decide_true, ↓reduceIte]
    congr 1
    omega
  · simp only [hneg, decide_false, Bool.false_eq_true, ↓reduceIte]
    congr 1
    omega

section
variable {left pads n : Nat} {l : Bytes} (h : n < 64)
include h

theorem a2bLoop_first : a2bLoop 0 left pads false (base64Digit n :: l) = a2bLoop 1 n 0 false l := by
  rw [a2bLoop, if_neg (base64Digit_ne_pad h), base64Value_digit h]
  rfl

theorem a2bLoop_second : a2bLoop 1 left pads false (base64Digit n :: l) =
    a2bLoop 2 (n % 16) 0 false l >>= fun rest => .ok (.ofNat (left * 4 + n / 16) :: rest) := by
  rw [a2bLoop, if_neg (base64Digit_ne_pad h), base64Value_digit h]
  rfl

theorem a2bLoop_third : a2bLoop 2 left pads false (base64Digit n :: l) =
    a2bLoop 3 (n % 4) 0 false l >>= fun rest => .ok (.ofNat (left * 16 + n / 4) :: rest) := by
  rw [a2bLoop, if_neg (base64Digit_ne_pad h), base64Value_digit h]
  rfl

theorem a2bLoop_fourth : a2bLoop 3 left pads false (base64Digit n :: l) =
    a2bLoop 0 0 0 false l >>= fun rest => .ok (.ofNat (left * 64 + n) :: rest) := by
  rw [a2bLoop, if_neg (base64Digit_ne_pad h), base64Value_digit h]
  rfl

end

theorem byte_eq {b : UInt8} {n : Nat} (h : n = b.toNat) : UInt8.ofNat n = b := by
  rw [h, UInt8.ofNat_toNat]

/-- **The decoder undoes the encoder.** -/
theorem a2bLoop_base64 (data : Bytes) : a2bLoop 0 0 0 false (base64 data) = .ok data := by
  induction data using base64.induct with
  | case1 => rfl
  | case2 a =>
    have ha := a.toNat_lt
    have hbyte : UInt8.ofNat (a.toNat / 4 * 4 + a.toNat % 4 * 16 / 16) = a := byte_eq (by omega)
    unfold base64
    rw [a2bLoop_first (by omega), a2bLoop_second (by omega), hbyte]
    rfl
  | case3 a b =>
    have ha := a.toNat_lt
    have hb := b.toNat_lt
    unfold base64
    rw [a2bLoop_first (by omega), a2bLoop_second (by omega), a2bLoop_third (by omega)]
    refine bind_eq_ok.mpr ⟨[b], bind_eq_ok.mpr ⟨[], rfl, ?_⟩, ?_⟩
    · rw [byte_eq (b := b) (by omega)]
    · rw [byte_eq (b := a) (by omega)]
  | case4 a b c l ih =>
    have ha := a.toNat_lt
    have hb := b.toNat_lt
    have hc := c.toNat_lt
    unfold base64
    rw [a2bLoop_first (by omega), a2bLoop_second (by omega), a2bLoop_third (by omega),
      a2bLoop_fourth (by omega), ih]
    refine bind_eq_ok.mpr ⟨b :: c :: l, bind_eq_ok.mpr ⟨c :: l, ?_, ?_⟩, ?_⟩
    · rw [ok_bind, byte_eq (b := c) (by omega)]
    · rw [byte_eq (b := b) (by omega)]
    · rw [byte_eq (b := a) (by omega)]

theorem head_ne_pad (a : UInt8) : some (base64Digit (a.toNat / 4)) ≠ some base64Pad := by
  have ha := a.toNat_lt
  exact fun h => base64Digit_ne_pad (show a.toNat / 4 < 64 by omega) (Option.some.inj h)

theorem map_b64encode (data : Bytes) : (b64encode data).map UInt8.ofNat = base64 data := by
  unfold b64encode
  rw [List.map_map]
  exact List.map_id'' (fun b => UInt8.ofNat_toNat) _

theorem plain_of_mem_b64encode {data : Bytes} {c : Nat} (hc : c ∈ b64encode data) : Plain c := by
  obtain ⟨b, hb, rfl⟩ := List.mem_map.mp hc
  exact plain_base64 data b hb

theorem b64decode_b64encode (data : Bytes) : b64decode (b64encode data) = .ok data := by
  have hascii : (b64encode data).any (fun c => 128 ≤ c) = false := by
    rw [List.any_eq_false]
    intro c hc
    have hplain := plain_of_mem_b64encode hc
    unfold Plain at hplain
    rw [decide_eq_true_eq]
    omega
  have hhead : (base64 data).head? ≠ some base64Pad := by
    cases data using base64.fun_cases with
    | case1 => exact nofun
    | case2 a => exact head_ne_pad a
    | case3 a b => exact head_ne_pad a
    | case4 a b c l => exact head_ne_pad a
  unfold b64decode a2bBase64
  rw [rejectIf_false (by simp [hascii]), ok_bind, map_b64encode, rejectIf_false hhead, ok_bind]
  exact a2bLoop_base64 data

end Krcm.Py
