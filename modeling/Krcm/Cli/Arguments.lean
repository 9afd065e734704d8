import Krcm.Base.Text
import Krcm.V4.Container
import Krcm.V5.Header

/-!
# The arguments of the command

`make_kdf`, `make_padding` and `parse_size` of the `krcm` command. A size is a
decimal number with an optional unit, blanks around it; `parseSize_exact` says
which texts are sizes and of how many bytes.
-/

namespace Krcm.Cli

open Base Outcome

inductive KdfChoice where
  | pbkdf2
  | scrypt
  deriving DecidableEq, Repr

inductive PaddingChoice where
  | minimal
  | fourK
  | sixtyFourK
  deriving DecidableEq, Repr

def makeKdf (choice : KdfChoice) (pbkdf2Iterations : UInt32) (nLog2 : UInt8) (r p : UInt32) :
    KdfParams :=
  match choice with
  | .pbkdf2 => .pbkdf2 pbkdf2Iterations
  | .scrypt => .scrypt nLog2 r p

def makePadding : PaddingChoice → PaddingPolicy
  | .minimal => .minimalBlock
  | .fourK => .randomBlocks 15
  | .sixtyFourK => .randomBlocks 15

/-! ## parse_size -/

/-- `char::is_whitespace`. -/
def isWhitespace (c : Char) : Bool :=
  [9, 10, 11, 12, 13, 32, 0x85, 0xA0, 0x1680, 0x2000, 0x2001, 0x2002, 0x2003, 0x2004, 0x2005, 0x2006,
    0x2007, 0x2008, 0x2009, 0x200A, 0x2028, 0x2029, 0x202F, 0x205F, 0x3000].contains c.toNat

/-- `s.strip_suffix(c)`. -/
def stripSuffix (s : List Char) (c : Char) : Option (List Char) :=
  if s.getLast? = some c then some s.dropLast else none

/-- `a.checked_mul(b)` of `usize`. -/
def checkedMulUsize (a b : Nat) : Option Nat := if a * b < 2 ^ 64 then some (a * b) else none

/-- A digit behind a number. -/
def pushDigit (n : Nat) (c : Char) : Option Nat := do
  let shifted ← checkedMulUsize n 10
  if c.isDigit then checkedAddUsize shifted (c.toNat - 48) else none

/-- `s.parse::<usize>().ok()`. -/
def parseUsize (s : List Char) : Option Nat :=
  let digits := match s with
    | '+' :: rest => rest
    | _ => s
  if digits = [] then none else digits.foldlM pushDigit 0

/-- The number and the multiplier of an upper-case text. -/
def splitUnit (upper : List Char) : List Char × Nat :=
  match stripSuffix upper 'M' with
  | some number => (number, 1024 * 1024)
  | none => match stripSuffix upper 'K' with
    | some number => (number, 1024)
    | none => (upper, 1)

def parseSize (value : List Char) : Krcm.Run Nat :=
  let upper := (trim isWhitespace value).map Char.toUpper
  let (number, multiplier) := splitUnit upper
  okOr (((parseUsize number).bind fun n => checkedMulUsize n multiplier).filter fun n => n > 0)
    .invalidParameter

/-! ## Numbers -/

theorem checkedMulUsize_eq_some {a b c : Nat} :
    checkedMulUsize a b = some c ↔ a * b = c ∧ c < 2 ^ 64 := by
  unfold checkedMulUsize
  split
  · rw [Option.some_inj]
    constructor
    · rintro rfl
      exact ⟨rfl, by assumption⟩
    · exact fun h => h.1
  · refine iff_of_false nofun ?_
    rintro ⟨rfl, hlt⟩
    exact absurd hlt (by assumption)

/-- The number the digits stand for, behind those of `n`. -/
def numberFrom (n : Nat) (digits : List Char) : Nat :=
  digits.foldl (fun n c => 10 * n + (c.toNat - 48)) n

theorem numberFrom_eq_ofDigits (digits : List Char) :
    numberFrom 0 digits = ofDigits (digits.map Char.toNat) := by
  unfold numberFrom ofDigits
  rw [List.foldl_map]

theorem le_numberFrom (n : Nat) (digits : List Char) : n ≤ numberFrom n digits := by
  induction digits generalizing n with
  | nil => exact le_rfl
  | cons c digits ih =>
    have hle := ih (10 * n + (c.toNat - 48))
    show n ≤ numberFrom (10 * n + (c.toNat - 48)) digits
    omega

theorem pushDigit_eq_some {n n' : Nat} {c : Char} : pushDigit n c = some n' ↔
    c.isDigit ∧ 10 * n + (c.toNat - 48) = n' ∧ n' < 2 ^ 64 := by
  show (checkedMulUsize n 10).bind _ = _ ↔ _
  rw [Option.bind_eq_some_iff]
  simp only [checkedMulUsize_eq_some]
  constructor
  · rintro ⟨_, ⟨rfl, -⟩, h⟩
    split at h
    · next hc =>
      unfold checkedAddUsize at h
      split at h
      · cases h
        exact ⟨hc, by omega, by assumption⟩
      · cases h
    · cases h
  · rintro ⟨hc, rfl, hlt⟩
    refine ⟨n * 10, ⟨rfl, by omega⟩, ?_⟩
    rw [if_pos hc, checkedAddUsize, if_pos (by omega), Nat.mul_comm]

/-- The loop over the digits overflows only where their number does. -/
theorem foldlM_pushDigit {n n' : Nat} {digits : List Char} (hn : n < 2 ^ 64) :
    digits.foldlM pushDigit n = some n' ↔
      (∀ c ∈ digits, c.isDigit) ∧ numberFrom n digits = n' ∧ n' < 2 ^ 64 := by
  induction digits generalizing n with
  | nil =>
    show some n = some n' ↔ _ ∧ n = n' ∧ _
    rw [Option.some_inj]
    constructor
    · rintro rfl
      exact ⟨nofun, rfl, hn⟩
    · exact fun h => h.2.1
  | cons c digits ih =>
    rw [List.foldlM_cons, List.forall_mem_cons]
    show (pushDigit n c).bind _ = _ ↔ _ ∧ numberFrom (10 * n + (c.toNat - 48)) digits = n' ∧ _
    rw [Option.bind_eq_some_iff]
    constructor
    · rintro ⟨m, hm, hrest⟩
      obtain ⟨hc, rfl, hlt⟩ := pushDigit_eq_some.mp hm
      obtain ⟨hall, hnumber, hlt'⟩ := (ih hlt).mp hrest
      exact ⟨⟨hc, hall⟩, hnumber, hlt'⟩
    · rintro ⟨⟨hc, hall⟩, hnumber, hlt⟩
      have hle := le_numberFrom (10 * n + (c.toNat - 48)) digits
      have hsmall : 10 * n + (c.toNat - 48) < 2 ^ 64 := by omega
      exact ⟨_, pushDigit_eq_some.mpr ⟨hc, rfl, hsmall⟩, (ih hsmall).mpr ⟨hall, hnumber, hlt⟩⟩

/-- `parse::<usize>` reads an optional plus and at least one digit. -/
theorem parseUsize_eq_some {s : List Char} {n : Nat} : parseUsize s = some n ↔
    ∃ sign digits, s = sign ++ digits ∧ (sign = [] ∨ sign = ['+']) ∧ digits ≠ [] ∧
      (∀ c ∈ digits, c.isDigit) ∧ numberFrom 0 digits = n ∧ n < 2 ^ 64 := by
  have hread (digits : List Char) :
      (if digits = [] then none else digits.foldlM pushDigit 0) = some n ↔ digits ≠ [] ∧
        (∀ c ∈ digits, c.isDigit) ∧ numberFrom 0 digits = n ∧ n < 2 ^ 64 := by
    by_cases hnil : digits = []
    · rw [if_pos hnil]
      exact iff_of_false nofun fun h => h.1 hnil
    · rw [if_neg hnil, foldlM_pushDigit (by omega)]
      exact ⟨fun h => ⟨hnil, h⟩, fun h => h.2⟩
  unfold parseUsize
  dsimp only
  rw [hread]
  constructor
  · intro h
    split at h
    · next rest => exact ⟨['+'], rest, rfl, .inr rfl, h⟩
    · exact ⟨[], s, rfl, .inl rfl, h⟩
  · rintro ⟨sign, digits, rfl, rfl | rfl, hne, hall, hnumber⟩
    · cases digits with
      | nil => exact absurd rfl hne
      | cons c digits =>
        have hc : c ≠ '+' := by
          rintro rfl
          exact absurd (hall '+' List.mem_cons_self) (by decide)
        rw [List.nil_append]
        split
        · next heq =>
          cases heq
          exact absurd rfl hc
        · exact ⟨hne, hall, hnumber⟩
    · exact ⟨hne, hall, hnumber⟩

/-! ## Sizes -/

/-- An upper-case letter comes from itself or from the lower-case one, and every other character
from itself. -/
theorem toUpper_cases (c : Char) : c.toUpper = c ∨
    97 ≤ c.toNat ∧ c.toNat ≤ 122 ∧ c.toUpper.toNat + 32 = c.toNat := by
  unfold Char.toUpper
  split
  · next h =>
    obtain ⟨hlow, hhigh⟩ := h
    rw [UInt32.le_iff_toNat_le] at hlow hhigh
    have hlow' : 97 ≤ c.toNat := hlow
    have hhigh' : c.toNat ≤ 122 := hhigh
    refine .inr ⟨hlow', hhigh', ?_⟩
    show (c.val + (65 - 97)).toNat + 32 = c.val.toNat
    rw [UInt32.toNat_add]
    have hval : c.val.toNat = c.toNat := rfl
    have hshift : ((65 : UInt32) - 97).toNat = 2 ^ 32 - 32 := by decide
    omega
  · exact .inl rfl

theorem map_toUpper_eq {s : List Char} (h : ∀ c ∈ s, c.toUpper = c) : s.map Char.toUpper = s := by
  rw [List.map_congr_left h]
  exact List.map_id s

/-- A text of digits and signs is no other text in upper case. -/
theorem eq_of_map_toUpper {s t : List Char} (h : s.map Char.toUpper = t) (ht : ∀ c ∈ t, c.toNat < 65) :
    s = t := by
  rw [← h]
  refine (map_toUpper_eq fun c hc => ?_).symm
  rcases toUpper_cases c with hsame | ⟨hlow, -, hshift⟩
  · exact hsame
  · have hsmall := ht c.toUpper (h ▸ List.mem_map_of_mem hc)
    omega

theorem digit_range {c : Char} (h : c.isDigit) : 48 ≤ c.toNat ∧ c.toNat ≤ 57 := by
  simpa [Char.isDigit, UInt32.le_iff_toNat_le] using h

theorem stripSuffix_eq_some {s number : List Char} {c : Char} :
    stripSuffix s c = some number ↔ s = number ++ [c] := by
  unfold stripSuffix
  constructor
  · intro h
    split at h
    · next hlast =>
      cases h
      exact (List.dropLast_append_getLast? c hlast).symm
    · cases h
  · rintro rfl
    rw [if_pos List.getLast?_concat, List.dropLast_concat]

/-- A unit, in either case, and what it stands for. -/
inductive UnitText : List Char → Nat → Prop where
  | none : UnitText [] 1
  | kilo {c : Char} (h : c = 'k' ∨ c = 'K') : UnitText [c] 1024
  | mega {c : Char} (h : c = 'm' ∨ c = 'M') : UnitText [c] (1024 * 1024)

/-- A text for a size: blanks around an optional plus, decimal digits and an optional unit. -/
structure SizeText where
  left : List Char
  sign : List Char
  digits : List Char
  unit : List Char
  right : List Char
  multiplier : Nat
  blank : ∀ c ∈ left ++ right, isWhitespace c
  signed : sign = [] ∨ sign = ['+']
  digits_ne : digits ≠ []
  isDigit : ∀ c ∈ digits, c.isDigit
  unitText : UnitText unit multiplier

namespace SizeText

def text (t : SizeText) : List Char := t.left ++ (t.sign ++ t.digits ++ t.unit ++ t.right)

/-- The bytes it asks for. -/
def size (t : SizeText) : Nat := ofDigits (t.digits.map Char.toNat) * t.multiplier

end SizeText

/-- Only `k` and `m` become `K` and `M`. -/
theorem toUpper_eq_iff {c : Char} : (c.toUpper = 'M' ↔ c = 'm' ∨ c = 'M') ∧
    (c.toUpper = 'K' ↔ c = 'k' ∨ c = 'K') := by
  have hback (low : Char) (up : Char) (hshift : up.toNat + 32 = low.toNat)
      (h : c.toUpper = up) : c = low ∨ c = up := by
    rcases toUpper_cases c with hsame | ⟨-, -, hc⟩
    · exact .inr (hsame.symm.trans h)
    · rw [h, hshift] at hc
      exact .inl (Char.toNat_inj.mp hc.symm)
  refine ⟨⟨hback 'm' 'M' rfl, ?_⟩, ⟨hback 'k' 'K' rfl, ?_⟩⟩
  · rintro (rfl | rfl) <;> rfl
  · rintro (rfl | rfl) <;> rfl

/-- What `splitUnit` takes off is a unit. -/
theorem splitUnit_text (s : List Char) : ∃ body unit, s = body ++ unit ∧
    (splitUnit (s.map Char.toUpper)).1 = body.map Char.toUpper ∧
    UnitText unit (splitUnit (s.map Char.toUpper)).2 := by
  have hlast {number : List Char} {u : Char} (h : s.map Char.toUpper = number ++ [u]) :
      ∃ body c, s = body ++ [c] ∧ number = body.map Char.toUpper ∧ c.toUpper = u := by
    obtain ⟨body, rest, rfl, hbody, hrest⟩ := List.map_eq_append_iff.mp h
    obtain ⟨c, hc, hu⟩ := List.map_eq_singleton_iff.mp hrest
    exact ⟨body, c, by rw [hc], hbody.symm, hu⟩
  unfold splitUnit
  split
  · next number hm =>
    obtain ⟨body, c, hs, hnumber, hc⟩ := hlast (stripSuffix_eq_some.mp hm)
    exact ⟨body, [c], hs, hnumber, .mega (toUpper_eq_iff.1.mp hc)⟩
  · split
    · next number hk =>
      obtain ⟨body, c, hs, hnumber, hc⟩ := hlast (stripSuffix_eq_some.mp hk)
      exact ⟨body, [c], hs, hnumber, .kilo (toUpper_eq_iff.2.mp hc)⟩
    · exact ⟨s, [], (List.append_nil s).symm, rfl, .none⟩

/-- A unit behind a digit is split off. -/
theorem splitUnit_append {body unit : List Char} {c : Char} {multiplier : Nat} (hc : c.isDigit)
    (hbody : (body ++ [c]).map Char.toUpper = body ++ [c]) (h : UnitText unit multiplier) :
    splitUnit ((body ++ [c] ++ unit).map Char.toUpper) = (body ++ [c], multiplier) := by
  rw [List.map_append, hbody]
  unfold splitUnit
  cases h with
  | none =>
    have hdiffer (u : Char) (hu : 65 ≤ u.toNat) : stripSuffix (body ++ [c] ++ [].map Char.toUpper) u =
        Option.none := by
      rw [List.map_nil, List.append_nil, stripSuffix, if_neg]
      rw [List.getLast?_concat, Option.some_inj]
      rintro rfl
      have hrange := digit_range hc
      omega
    rw [hdiffer 'M' (by decide), hdiffer 'K' (by decide), List.map_nil, List.append_nil]
  | @kilo u h =>
    have hu : [u].map Char.toUpper = ['K'] := congrArg (fun c => [c]) (toUpper_eq_iff.2.mpr h)
    rw [hu, stripSuffix_eq_some.mpr rfl]
    have hno : stripSuffix (body ++ [c] ++ ['K']) 'M' = Option.none := by
      rw [stripSuffix, if_neg]
      rw [List.getLast?_concat]
      decide
    rw [hno]
  | @mega u h =>
    have hu : [u].map Char.toUpper = ['M'] := congrArg (fun c => [c]) (toUpper_eq_iff.1.mpr h)
    rw [hu, stripSuffix_eq_some.mpr rfl]

theorem parseSize_eq_ok {value : List Char} {n : Nat} : parseSize value = .ok n ↔
    ∃ d, parseUsize (splitUnit ((trim isWhitespace value).map Char.toUpper)).1 = some d ∧
      d * (splitUnit ((trim isWhitespace value).map Char.toUpper)).2 = n ∧ n < 2 ^ 64 ∧ 0 < n := by
  unfold parseSize
  dsimp only
  rw [okOr_eq_ok, Option.filter_eq_some_iff, Option.bind_eq_some_iff]
  simp only [checkedMulUsize_eq_some, decide_eq_true_eq, gt_iff_lt]
  constructor
  · rintro ⟨⟨d, hd, hn, hlt⟩, hpos⟩
    exact ⟨d, hd, hn, hlt, hpos⟩
  · rintro ⟨d, hd, hn, hlt, hpos⟩
    exact ⟨⟨d, hd, hn, hlt⟩, hpos⟩

/-- A digit is no blank. -/
theorem not_blank {c : Char} (h : c.isDigit ∨ c = '+' ∨ c.toUpper = 'K' ∨ c.toUpper = 'M') :
    ¬ isWhitespace c := by
  have hprintable : 43 ≤ c.toNat ∧ c.toNat ≤ 122 := by
    rcases h with h | rfl | h | h
    · have hrange := digit_range h
      omega
    · decide
    · rcases toUpper_eq_iff.2.mp h with rfl | rfl <;> decide
    · rcases toUpper_eq_iff.1.mp h with rfl | rfl <;> decide
  unfold isWhitespace
  rw [List.contains_iff_mem]
  intro hmem
  simp only [List.mem_cons, List.not_mem_nil, or_false] at hmem
  omega

namespace SizeText

variable (t : SizeText)

theorem trim_text : trim isWhitespace t.text = t.sign ++ t.digits ++ t.unit := by
  have hbare (c : Char) (hc : c ∈ t.sign ++ t.digits ++ t.unit) : ¬ isWhitespace c := by
    apply not_blank
    rcases List.mem_append.mp hc with hc | hc
    · rcases List.mem_append.mp hc with hc | hc
      · rcases t.signed with hsign | hsign <;> rw [hsign] at hc
        · cases hc
        · exact .inr (.inl (List.mem_singleton.mp hc))
      · exact .inl (t.isDigit c hc)
    · have hunit := t.unitText
      generalize t.unit = unit, t.multiplier = multiplier at hc hunit
      cases hunit with
      | none => cases hc
      | kilo h =>
        rw [List.mem_singleton.mp hc]
        exact .inr (.inr (.inl (toUpper_eq_iff.2.mpr h)))
      | mega h =>
        rw [List.mem_singleton.mp hc]
        exact .inr (.inr (.inr (toUpper_eq_iff.1.mpr h)))
  exact trim_append (fun c hc => t.blank c (List.mem_append_left _ hc))
    (fun c hc => t.blank c (List.mem_append_right _ hc))
    (fun c hc => hbare c (List.mem_of_mem_head? hc)) fun c hc => hbare c (List.mem_of_getLast? hc)

theorem splitUnit_text : splitUnit ((t.sign ++ t.digits ++ t.unit).map Char.toUpper) =
    (t.sign ++ t.digits, t.multiplier) := by
  have hlast := List.dropLast_append_getLast t.digits_ne
  have hsplit : t.sign ++ t.digits =
      t.sign ++ t.digits.dropLast ++ [t.digits.getLast t.digits_ne] := by
    rw [List.append_assoc, hlast]
  have hsame : (t.sign ++ t.digits).map Char.toUpper = t.sign ++ t.digits := by
    refine map_toUpper_eq fun c hc => (toUpper_cases c).resolve_right ?_
    rintro ⟨hlow, -, -⟩
    rcases List.mem_append.mp hc with hc | hc
    · rcases t.signed with hsign | hsign <;> rw [hsign] at hc
      · cases hc
      · rw [List.mem_singleton.mp hc] at hlow
        exact absurd hlow (by decide)
    · have hrange := digit_range (t.isDigit c hc)
      omega
  rw [hsplit] at hsame ⊢
  exact splitUnit_append (t.isDigit _ (List.getLast_mem t.digits_ne)) hsame t.unitText

theorem multiplier_pos : 0 < t.multiplier := by
  have hunit := t.unitText
  generalize t.unit = unit, t.multiplier = multiplier at hunit
  cases hunit <;> decide

end SizeText

/-- **What `parse_size` accepts**: the texts for a positive size that a `usize` holds. Every other
text is an invalid parameter. -/
theorem parseSize_exact (value : List Char) :
    (∀ n, parseSize value = .ok n ↔ 0 < n ∧ n < 2 ^ 64 ∧
      ∃ t : SizeText, t.text = value ∧ t.size = n) ∧
    ((∀ n, parseSize value ≠ .ok n) → parseSize value = .err .invalidParameter) := by
  refine ⟨fun n => ?_, fun h => ?_⟩
  · rw [parseSize_eq_ok]
    constructor
    · rintro ⟨d, hd, hn, hlt, hpos⟩
      obtain ⟨left, right, hvalue, hleft, hright⟩ := trim_split isWhitespace value
      obtain ⟨body, unit, hbody, hnumber, hunit⟩ := splitUnit_text (trim isWhitespace value)
      rw [hnumber] at hd
      obtain ⟨sign, digits, hsplit, hsign, hne, hall, hdigits, -⟩ := parseUsize_eq_some.mp hd
      have hsame : body = sign ++ digits := by
        refine eq_of_map_toUpper hsplit fun c hc => ?_
        rcases List.mem_append.mp hc with hc | hc
        · rcases hsign with rfl | rfl
          · cases hc
          · rw [List.mem_singleton.mp hc]
            decide
        · have hrange := digit_range (hall c hc)
          omega
      refine ⟨hpos, hlt, ⟨left, sign, digits, unit, right, _, ?_, hsign, hne, hall, hunit⟩, ?_, ?_⟩
      · exact fun c hc => (List.mem_append.mp hc).elim (hleft c) (hright c)
      · rw [SizeText.text, ← hsame, ← hbody, ← hvalue]
      · rw [SizeText.size, ← numberFrom_eq_ofDigits, hdigits, hn]
    · rintro ⟨hpos, hlt, t, rfl, rfl⟩
      rw [t.trim_text, t.splitUnit_text]
      refine ⟨numberFrom 0 t.digits, parseUsize_eq_some.mpr ⟨t.sign, t.digits, rfl, t.signed,
        t.digits_ne, t.isDigit, rfl, ?_⟩, by rw [SizeText.size, numberFrom_eq_ofDigits], hlt, hpos⟩
      rw [numberFrom_eq_ofDigits]
      exact Nat.lt_of_le_of_lt (Nat.le_mul_of_pos_right _ t.multiplier_pos) hlt
  · unfold parseSize okOr at h ⊢
    dsimp only at h ⊢
    split
    · next n hn =>
      rw [hn] at h
      exact absurd rfl (h n)
    · rfl

end Krcm.Cli
