import Krcm.Base.Bytes
import Mathlib.Data.List.TakeWhile

/-!
# Numerals and base64

Decimal numerals as lists of character codes, read back by `ofDigits`, and
base64 in the standard alphabet with padding: three bytes are four digits of
six bits, and a last group of one or two bytes is filled with `=`. `trim` takes
the blanks off the two ends of a text.
-/

namespace Base

/-! ## Decimal numerals -/

/-- The code of a decimal digit. -/
def isDigit (c : Nat) : Bool := 48 ≤ c ∧ c ≤ 57

def digits (n : Nat) : List Nat := (Nat.toDigits 10 n).map Char.toNat

def ofDigits (codes : List Nat) : Nat := codes.foldl (fun n c => 10 * n + (c - 48)) 0

theorem ofDigits_digits (n : Nat) : ofDigits (digits n) = n := by
  have h : Nat.ofDigitChars 10 (Nat.toDigits 10 n) 0 = n := Nat.ofDigitChars_ten_toDigits
  rw [Nat.ofDigitChars_eq_foldl] at h
  unfold ofDigits digits
  rw [List.foldl_map]
  exact h

theorem isDigit_of_mem_digits {n c : Nat} (h : c ∈ digits n) : isDigit c := by
  obtain ⟨char, hchar, rfl⟩ := List.mem_map.mp h
  have hdigit := Nat.isDigit_of_mem_toDigits (by decide) le_rfl hchar
  have hrange : 48 ≤ char.toNat ∧ char.toNat ≤ 57 := by
    simpa [Char.isDigit, UInt32.le_iff_toNat_le] using hdigit
  simpa [isDigit] using hrange

theorem digitChar_code : ∀ n : Fin 10, n.val.digitChar.toNat = 48 + n.val := by
  decide

/-- A numeral is a zero or starts with another digit. -/
theorem digits_cases (n : Nat) : (n = 0 ∧ digits n = [48]) ∨
    ∃ c l, digits n = c :: l ∧ 49 ≤ c ∧ c ≤ 57 := by
  induction n using Nat.strong_induction_on with
  | _ n ih =>
    rcases Nat.lt_or_ge n 10 with hlt | hge
    · have hone : digits n = [n.digitChar.toNat] := by
        unfold digits
        rw [Nat.toDigits_of_lt_base hlt]
        rfl
      have hcode : n.digitChar.toNat = 48 + n := digitChar_code ⟨n, hlt⟩
      rcases Nat.eq_zero_or_pos n with rfl | hpos
      · exact .inl ⟨rfl, by rw [hone, hcode]⟩
      · exact .inr ⟨_, [], hone, by omega, by omega⟩
    · have hsplit : digits n = digits (n / 10) ++ [(n % 10).digitChar.toNat] := by
        unfold digits
        rw [Nat.toDigits_of_base_le (by decide) hge, List.map_append]
        rfl
      rcases ih (n / 10) (by omega) with ⟨h0, -⟩ | ⟨c, l, hl, hc⟩
      · omega
      · exact .inr ⟨c, _, by rw [hsplit, hl]; rfl, hc⟩

/-! ## Base64 -/

/-- The digit of a number below 64. -/
def base64Digit (n : Nat) : UInt8 :=
  if n < 26 then UInt8.ofNat (n + 65)
  else if n < 52 then UInt8.ofNat (n + 71)
  else if n < 62 then UInt8.ofNat (n - 4)
  else if n = 62 then 43
  else 47

/-- The number of a digit. -/
def base64Value (c : UInt8) : Option Nat :=
  let n := c.toNat
  if 65 ≤ n ∧ n ≤ 90 then some (n - 65)
  else if 97 ≤ n ∧ n ≤ 122 then some (n - 71)
  else if 48 ≤ n ∧ n ≤ 57 then some (n + 4)
  else if n = 43 then some 62
  else if n = 47 then some 63
  else none

/-- `=`. -/
def base64Pad : UInt8 := 61

def base64 : Bytes → Bytes
  | [] => []
  | [a] => [base64Digit (a.toNat / 4), base64Digit (a.toNat % 4 * 16), base64Pad, base64Pad]
  | [a, b] =>
    [base64Digit (a.toNat / 4), base64Digit (a.toNat % 4 * 16 + b.toNat / 16),
      base64Digit (b.toNat % 16 * 4), base64Pad]
  | a :: b :: c :: l =>
    base64Digit (a.toNat / 4) :: base64Digit (a.toNat % 4 * 16 + b.toNat / 16) ::
      base64Digit (b.toNat % 16 * 4 + c.toNat / 64) :: base64Digit (c.toNat % 64) :: base64 l

theorem digit_facts : ∀ n : Fin 64, base64Value (base64Digit n.val) = some n.val ∧
    base64Digit n.val ≠ base64Pad ∧ 35 ≤ (base64Digit n.val).toNat ∧
      (base64Digit n.val).toNat ≤ 126 ∧ (base64Digit n.val).toNat ≠ 92 := by
  decide

theorem base64Value_digit {n : Nat} (h : n < 64) : base64Value (base64Digit n) = some n :=
  (digit_facts ⟨n, h⟩).1

theorem base64Digit_ne_pad {n : Nat} (h : n < 64) : base64Digit n ≠ base64Pad :=
  (digit_facts ⟨n, h⟩).2.1

theorem length_base64 (l : Bytes) : (base64 l).length = (l.length + 2) / 3 * 4 := by
  induction l using base64.induct with
  | case1 => rfl
  | case2 a => simp [base64]
  | case3 a b => simp [base64]
  | case4 a b c l ih =>
    simp only [base64, List.length_cons, ih]
    omega

/-- A printable character other than a quotation mark and a backslash. -/
def Plain (c : Nat) : Prop := 32 ≤ c ∧ c ≤ 126 ∧ c ≠ 34 ∧ c ≠ 92

instance (c : Nat) : Decidable (Plain c) := inferInstanceAs (Decidable (_ ∧ _ ∧ _ ∧ _))

theorem plain_digit {n : Nat} (h : n < 64) : Plain (base64Digit n).toNat := by
  obtain ⟨-, -, hlow, hhigh, hne⟩ := digit_facts ⟨n, h⟩
  dsimp only at hlow hhigh hne
  unfold Plain
  omega

theorem plain_base64 (l : Bytes) : ∀ c ∈ base64 l, Plain c.toNat := by
  have hpad : Plain base64Pad.toNat := by
    unfold Plain
    decide
  induction l using base64.induct with
  | case1 => exact nofun
  | case2 a =>
    have ha := a.toNat_lt
    simp only [base64, List.forall_mem_cons]
    exact ⟨plain_digit (by omega), plain_digit (by omega), hpad, hpad, nofun⟩
  | case3 a b =>
    have ha := a.toNat_lt
    have hb := b.toNat_lt
    simp only [base64, List.forall_mem_cons]
    exact ⟨plain_digit (by omega), plain_digit (by omega), plain_digit (by omega), hpad, nofun⟩
  | case4 a b c l ih =>
    have ha := a.toNat_lt
    have hb := b.toNat_lt
    have hc := c.toNat_lt
    simp only [base64, List.forall_mem_cons]
    exact ⟨plain_digit (by omega), plain_digit (by omega), plain_digit (by omega),
      plain_digit (by omega), ih⟩

/-! ## Blanks around a text -/

section
variable {α : Type} {p : α → Bool} {l m left right : List α}

/-- `l` without the elements of a kind at its two ends. -/
def trim (p : α → Bool) (l : List α) : List α := ((l.dropWhile p).reverse.dropWhile p).reverse

/-- What is trimmed stands between two ends of that kind. -/
theorem trim_split (p : α → Bool) (l : List α) : ∃ left right, l = left ++ (trim p l ++ right) ∧
    (∀ c ∈ left, p c) ∧ ∀ c ∈ right, p c := by
  refine ⟨l.takeWhile p, ((l.dropWhile p).reverse.takeWhile p).reverse, ?_, fun c hc => ?_,
    fun c hc => ?_⟩
  · unfold trim
    rw [← List.reverse_append, List.takeWhile_append_dropWhile, List.reverse_reverse,
      List.takeWhile_append_dropWhile]
  · exact List.mem_takeWhile_imp hc
  · exact List.mem_takeWhile_imp (List.mem_reverse.mp hc)

theorem dropWhile_of_head (h : ∀ c ∈ l.head?, ¬ p c) : l.dropWhile p = l := by
  cases l with
  | nil => rfl
  | cons c l => exact List.dropWhile_cons_of_neg (h c rfl)

theorem trim_append (hleft : ∀ c ∈ left, p c) (hright : ∀ c ∈ right, p c)
    (hhead : ∀ c ∈ m.head?, ¬ p c) (hlast : ∀ c ∈ m.getLast?, ¬ p c) :
    trim p (left ++ (m ++ right)) = m := by
  unfold trim
  rw [List.dropWhile_append_of_pos hleft]
  cases m with
  | nil =>
    rw [List.nil_append, List.dropWhile_eq_nil_iff.mpr hright]
    rfl
  | cons c m =>
    rw [dropWhile_of_head (l := c :: m ++ right) hhead, List.reverse_append,
      List.dropWhile_append_of_pos fun d hd => hright d (List.mem_reverse.mp hd),
      dropWhile_of_head (by rwa [List.head?_reverse]), List.reverse_reverse]

theorem head_dropWhile {c : α} (h : c ∈ (l.dropWhile p).head?) : ¬ p c := by
  induction l with
  | nil => cases h
  | cons d l ih =>
    by_cases hd : p d
    · rw [List.dropWhile_cons_of_pos hd] at h
      exact ih h
    · rw [List.dropWhile_cons_of_neg hd] at h
      cases h
      exact hd

/-- What is left as it is has no such end. -/
theorem trim_eq_self_iff :
    trim p l = l ↔ (∀ c ∈ l.head?, ¬ p c) ∧ ∀ c ∈ l.getLast?, ¬ p c := by
  refine ⟨fun h => ⟨fun c hc => ?_, fun c hc => ?_⟩, fun h => ?_⟩
  · -- Each of the two passes only takes away, so the first one took nothing.
    have hlen := congrArg List.length h
    have hfirst := (List.dropWhile_suffix p (l := l)).length_le
    have hsecond := (List.dropWhile_suffix p (l := (l.dropWhile p).reverse)).length_le
    unfold trim at hlen
    rw [List.length_reverse] at hlen hsecond
    have hkept := (List.dropWhile_suffix p (l := l)).eq_of_length (by omega)
    rw [← hkept] at hc
    exact head_dropWhile hc
  · rw [← h] at hc
    unfold trim at hc
    rw [List.getLast?_reverse] at hc
    exact head_dropWhile hc
  · have hself : trim p ([] ++ (l ++ [])) = l := trim_append nofun nofun h.1 h.2
    rwa [List.nil_append, List.append_nil] at hself

end

end Base
