import Krcm.Base.Collect
import Krcm.Py.Text
import Mathlib.Data.List.Sort
import Mathlib.Tactic.IntervalCases

/-!
# The json module

`json.dumps` of a dict of scalars with sorted keys and no spaces, and
`json.loads` with the scanner of CPython. Reading undoes printing where every
string is plain (`loads_dumps`).
-/

namespace Krcm.Py

open Base Outcome

/-! ## json.dumps -/

/-- The values of a header's payload. -/
inductive PyScalar where
  | int (n : Int)
  | str (s : Str)

def hexDigit (n : Nat) : Nat := if n < 10 then 48 + n else 87 + n

/-- `\uXXXX`. -/
def escapeUnit (unit : Nat) : Str :=
  [92, 117, hexDigit (unit / 4096), hexDigit (unit / 256 % 16), hexDigit (unit / 16 % 16),
    hexDigit (unit % 16)]

/-- A character with `ensure_ascii`. -/
def escapePoint (c : Nat) : Str :=
  if c = 34 ∨ c = 92 then [92, c]
  else if c = 8 then [92, 98]
  else if c = 9 then [92, 116]
  else if c = 10 then [92, 110]
  else if c = 12 then [92, 102]
  else if c = 13 then [92, 114]
  else if 32 ≤ c ∧ c ≤ 126 then [c]
  else if c < 0x10000 then escapeUnit c
  else escapeUnit (0xD800 + (c - 0x10000) / 1024) ++ escapeUnit (0xDC00 + (c - 0x10000) % 1024)

def dumpString (s : Str) : Str := 34 :: (s.flatMap escapePoint ++ [34])

def dumpScalar (I : Interp) : PyScalar → PyRun Str
  | .int n => intRepr I n
  | .str s => .ok (dumpString s)

def dumpMember (I : Interp) (member : Str × PyScalar) : PyRun Str := do
  let value ← dumpScalar I member.2
  .ok (dumpString member.1 ++ 58 :: value)

/-- `sorted(dct.items())`. -/
def sortItems (members : List (Str × PyScalar)) : List (Str × PyScalar) :=
  members.insertionSort fun a b => a.1 ≤ b.1

/-- `json.dumps(dct, sort_keys=True, separators=(",", ":"))`. -/
def dumps (I : Interp) (members : List (Str × PyScalar)) : PyRun Str := do
  let texts ← collect ((sortItems members).map (dumpMember I))
  .ok (123 :: ([44].intercalate texts ++ [125]))

/-! ## json.loads

A scanner returns what it read and the text behind it. -/

/-- A float that was read keeps its text. -/
inductive PyFloat where
  | nan
  | infinity (negative : Bool)
  | decimal (text : Str)

inductive PyJson where
  | null
  | bool (b : Bool)
  | int (n : Int)
  | float (x : PyFloat)
  | str (s : Str)
  | list (items : List PyJson)
  | dict (members : List (Str × PyJson))

def isSpace (c : Nat) : Bool := c = 32 ∨ c = 9 ∨ c = 10 ∨ c = 13

def skipSpace (s : Str) : Str := s.dropWhile isSpace

def hexValue (c : Nat) : Option Nat :=
  if 48 ≤ c ∧ c ≤ 57 then some (c - 48)
  else if 97 ≤ c ∧ c ≤ 102 then some (c - 87)
  else if 65 ≤ c ∧ c ≤ 70 then some (c - 55)
  else none

/-- Four hexadecimal digits. -/
def hexUnit (a b c d : Nat) : Option Nat := do
  let a ← hexValue a
  let b ← hexValue b
  let c ← hexValue c
  let d ← hexValue d
  some (a * 4096 + b * 256 + c * 16 + d)

/-- The character behind a backslash, `u` apart. -/
def unescape (c : Nat) : Option Nat :=
  if c = 34 ∨ c = 92 ∨ c = 47 then some c
  else if c = 98 then some 8
  else if c = 102 then some 12
  else if c = 110 then some 10
  else if c = 114 then some 13
  else if c = 116 then some 9
  else none

/-- A string behind its opening quotation mark, with a code unit for each `\u` escape. -/
def scanUnits : Str → PyRun (Str × Str)
  | [] => .err .valueError
  | c :: s =>
    if c = 34 then .ok ([], s)
    else if c = 92 then
      match s with
      | 117 :: a :: b :: c :: d :: s => do
        let unit ← okOr (hexUnit a b c d) .valueError
        let (units, s) ← scanUnits s
        .ok (unit :: units, s)
      | e :: s => do
        let unit ← okOr (unescape e) .valueError
        let (units, s) ← scanUnits s
        .ok (unit :: units, s)
      | [] => .err .valueError
    -- A control character is refused (`strict`).
    else if c < 32 then .err .valueError
    else do
      let (units, s) ← scanUnits s
      .ok (c :: units, s)

/-- A high and a low surrogate in a row are one character. -/
def joinSurrogates : Str → Str
  | a :: b :: s =>
    if (0xD800 ≤ a ∧ a < 0xDC00) ∧ 0xDC00 ≤ b ∧ b < 0xE000 then
      (0x10000 + (a - 0xD800) * 1024 + (b - 0xDC00)) :: joinSurrogates s
    else a :: joinSurrogates (b :: s)
  | s => s

def scanString (s : Str) : PyRun (Str × Str) := do
  let (units, s) ← scanUnits s
  .ok (joinSurrogates units, s)

/-- The integer digits of a number: a zero alone, or digits that start with another. -/
def scanWhole : Str → PyRun (Str × Str)
  | 48 :: s => .ok ([48], s)
  | s =>
    if s.head?.any isDigit then .ok (s.takeWhile isDigit, s.dropWhile isDigit)
    else .err .valueError

/-- The digits behind a dot, with it; nothing where there are none. -/
def scanFraction : Str → Str × Str
  | 46 :: s =>
    if s.head?.any isDigit then (46 :: s.takeWhile isDigit, s.dropWhile isDigit) else ([], 46 :: s)
  | s => ([], s)

def isSign (c : Nat) : Bool := c = 43 ∨ c = 45

/-- The exponent; the scanner steps back where it has no digits. -/
def scanExponent : Str → Str × Str
  | c :: s =>
    let sign := s.takeWhile isSign |>.take 1
    let rest := s.drop sign.length
    if (c = 101 ∨ c = 69) ∧ rest.head?.any isDigit then
      (c :: sign ++ rest.takeWhile isDigit, rest.dropWhile isDigit)
    else ([], c :: s)
  | s => ([], s)

/-- A number behind its sign. -/
def scanUnsigned (I : Interp) (negative : Bool) (s : Str) : PyRun (PyJson × Str) := do
  let (whole, s) ← scanWhole s
  let (fraction, s) := scanFraction s
  let (exponent, s) := scanExponent s
  if fraction = [] ∧ exponent = [] then do
    let n ← intOfDigits I negative whole
    .ok (.int n, s)
  else
    let text := whole ++ fraction ++ exponent
    .ok (.float (.decimal (if negative then 45 :: text else text)), s)

def scanNumber (I : Interp) : Str → PyRun (PyJson × Str)
  | 45 :: s => scanUnsigned I true s
  | s => scanUnsigned I false s

def constants : List (Str × PyJson) :=
  [(str "null", .null), (str "true", .bool true), (str "false", .bool false),
    (str "NaN", .float .nan), (str "Infinity", .float (.infinity false)),
    (str "-Infinity", .float (.infinity true))]

/-- `scan_once`, with the scanners of the two containers. -/
def scanValue (I : Interp) (object array : Str → PyRun (PyJson × Str)) : Str → PyRun (PyJson × Str)
  | 34 :: s => do
    let (s, rest) ← scanString s
    .ok (.str s, rest)
  | 123 :: s => object s
  | 91 :: s => array s
  | s =>
    match constants.find? fun constant => constant.1.isPrefixOf s with
    | some (word, value) => .ok (value, s.drop word.length)
    | none => scanNumber I s

/-- The text behind an expected character. -/
def expect (c : Nat) : Str → PyRun Str
  | d :: s => if d = c then .ok s else .err .valueError
  | [] => .err .valueError

/-- The members of an object up to its closing brace. -/
def scanMembers (value : Str → PyRun (PyJson × Str)) : Nat → Str → PyRun (List (Str × PyJson) × Str)
  | 0, _ => .timeout
  | fuel + 1, s => do
    let s ← expect 34 s
    let (key, s) ← scanString s
    let s ← expect 58 (skipSpace s)
    let (member, s) ← value (skipSpace s)
    match skipSpace s with
    | c :: s =>
      if c = 125 then .ok ([(key, member)], s)
      else if c = 44 then do
        let (members, s) ← scanMembers value fuel (skipSpace s)
        .ok ((key, member) :: members, s)
      else .err .valueError
    | [] => .err .valueError

/-- An object behind its opening brace; every member takes at least its quotation mark. -/
def scanObject (value : Str → PyRun (PyJson × Str)) (s : Str) : PyRun (PyJson × Str) :=
  let s := skipSpace s
  if s.head? = some 125 then .ok (.dict [], s.tail)
  else do
    let (members, s) ← scanMembers value (s.length + 1) s
    .ok (.dict members, s)

/-- The items of an array up to its closing bracket. -/
def scanItems (value : Str → PyRun (PyJson × Str)) : Nat → Str → PyRun (List PyJson × Str)
  | 0, _ => .timeout
  | fuel + 1, s => do
    let (item, s) ← value s
    match skipSpace s with
    | c :: s =>
      if c = 93 then .ok ([item], s)
      else if c = 44 then do
        let (items, s) ← scanItems value fuel (skipSpace s)
        .ok (item :: items, s)
      else .err .valueError
    | [] => .err .valueError

def scanArray (value : Str → PyRun (PyJson × Str)) (s : Str) : PyRun (PyJson × Str) :=
  let s := skipSpace s
  if s.head? = some 93 then .ok (.list [], s.tail)
  else do
    let (items, s) ← scanItems value (s.length + 1) s
    .ok (.list items, s)

/-- `scan_once` under a number of containers that may still be entered. -/
def scanOnce (I : Interp) : Nat → Str → PyRun (PyJson × Str)
  | 0 => scanValue I (fun _ => .err .recursionError) (fun _ => .err .recursionError)
  | depth + 1 => scanValue I (scanObject (scanOnce I depth)) (scanArray (scanOnce I depth))

/-- `json.loads(s)`. -/
def loads (I : Interp) (s : Str) : PyRun PyJson := do
  -- A byte order mark is refused.
  rejectIf (s.head? = some 0xFEFF) .valueError
  let (value, rest) ← scanOnce I I.recursionLimit (skipSpace s)
  rejectIf (skipSpace rest ≠ []) .valueError
  .ok value

/-! ## Strings -/

def PlainText (s : Str) : Prop := ∀ c ∈ s, Plain c

instance (s : Str) : Decidable (PlainText s) := inferInstanceAs (Decidable (∀ c ∈ s, Plain c))

theorem escapePoint_plain {c : Nat} (h : Plain c) : escapePoint c = [c] := by
  obtain ⟨hlow, hhigh, hquote, hslash⟩ := h
  unfold escapePoint
  repeat rw [if_neg (by omega)]
  rw [if_pos ⟨hlow, hhigh⟩]

theorem dumpString_plain {s : Str} (h : PlainText s) : dumpString s = 34 :: (s ++ [34]) := by
  have hflat : s.flatMap escapePoint = s := by
    induction s with
    | nil => rfl
    | cons c s ih =>
      obtain ⟨hc, hs⟩ := List.forall_mem_cons.mp h
      rw [List.flatMap_cons, escapePoint_plain hc, ih hs]
      rfl
  unfold dumpString
  rw [hflat]

theorem scanUnits_quote (s : Str) : scanUnits (34 :: s) = .ok ([], s) := by
  rw [scanUnits.eq_def]
  rfl

theorem scanUnits_cons {c : Nat} (h : Plain c) (s : Str) :
    scanUnits (c :: s) = scanUnits s >>= fun scanned => .ok (c :: scanned.1, scanned.2) := by
  obtain ⟨hlow, -, hquote, hslash⟩ := h
  rw [scanUnits.eq_def]
  dsimp only
  rw [if_neg hquote, if_neg hslash, if_neg (by omega)]

theorem scanUnits_plain {s : Str} (h : PlainText s) (rest : Str) :
    scanUnits (s ++ 34 :: rest) = .ok (s, rest) := by
  induction s with
  | nil => exact scanUnits_quote rest
  | cons c s ih =>
    obtain ⟨hc, hs⟩ := List.forall_mem_cons.mp h
    rw [List.cons_append, scanUnits_cons hc, ih hs]
    rfl

theorem joinSurrogates_plain {s : Str} (h : PlainText s) : joinSurrogates s = s := by
  induction s with
  | nil => rfl
  | cons a s ih =>
    obtain ⟨⟨-, hhigh, -, -⟩, hs⟩ := List.forall_mem_cons.mp h
    cases s with
    | nil => rfl
    | cons b s => rw [joinSurrogates, if_neg (by omega), ih hs]

theorem scanString_plain {s : Str} (h : PlainText s) (rest : Str) :
    scanString (s ++ 34 :: rest) = .ok (s, rest) := by
  unfold scanString
  rw [scanUnits_plain h, ok_bind]
  dsimp only
  rw [joinSurrogates_plain h]

/-! ## Numbers -/

/-- What follows a member. -/
def Closes (c : Nat) : Prop := c = 44 ∨ c = 125

theorem Closes.not_digit {c : Nat} (h : Closes c) : ¬ isDigit c := by
  rcases h with rfl | rfl <;> decide

theorem Closes.not_space {c : Nat} (h : Closes c) : ¬ isSpace c := by
  rcases h with rfl | rfl <;> decide

theorem scanWhole_digits (n : Nat) {c : Nat} (hc : Closes c) (rest : Str) :
    scanWhole (digits n ++ c :: rest) = .ok (digits n, c :: rest) := by
  have hall : ∀ d ∈ digits n, isDigit d := fun d => isDigit_of_mem_digits
  rcases digits_cases n with ⟨-, hzero⟩ | ⟨d, l, hl, hlow, hhigh⟩
  · rw [hzero]
    rfl
  · have hd : isDigit d := by simp [isDigit]; omega
    have htake : (digits n ++ c :: rest).takeWhile isDigit = digits n := by
      rw [List.takeWhile_append_of_pos hall, List.takeWhile_cons_of_neg hc.not_digit,
        List.append_nil]
    have hdrop : (digits n ++ c :: rest).dropWhile isDigit = c :: rest := by
      rw [List.dropWhile_append_of_pos hall, List.dropWhile_cons_of_neg hc.not_digit]
    unfold scanWhole
    split
    · next h =>
      rw [hl] at h
      exact absurd (List.cons.inj h).1 (by omega)
    · rw [htake, hdrop, if_pos (by rw [hl]; simpa using hd)]

theorem scanFraction_closes {c : Nat} (hc : Closes c) (rest : Str) :
    scanFraction (c :: rest) = ([], c :: rest) := by
  rcases hc with rfl | rfl <;> rfl

theorem scanExponent_closes {c : Nat} (hc : Closes c) (rest : Str) :
    scanExponent (c :: rest) = ([], c :: rest) := by
  rcases hc with rfl | rfl <;> simp [scanExponent]

theorem scanUnsigned_digits {I : Interp} {n : Int}
    (hn : checkDigits I (digits n.natAbs) = .ok ()) {c : Nat} (hc : Closes c) (rest : Str) :
    scanUnsigned I (decide (n < 0)) (digits n.natAbs ++ c :: rest) = .ok (.int n, c :: rest) := by
  unfold scanUnsigned
  rw [scanWhole_digits n.natAbs hc, ok_bind]
  dsimp only
  rw [scanFraction_closes hc, scanExponent_closes hc]
  dsimp only
  rw [if_pos ⟨rfl, rfl⟩, intOfDigits_digits hn, ok_bind]

/-- No constant starts like a number. -/
theorem constants_digit {d : Nat} (h : 48 ≤ d ∧ d ≤ 57) (rest : Str) :
    (constants.find? fun constant => constant.1.isPrefixOf (d :: rest)) = none ∧
      (constants.find? fun constant => constant.1.isPrefixOf (45 :: d :: rest)) = none := by
  obtain ⟨hlow, hhigh⟩ := h
  interval_cases d <;> exact ⟨rfl, rfl⟩

/-- A numeral starts with a digit. -/
theorem digits_head (n : Nat) : ∃ d l, digits n = d :: l ∧ 48 ≤ d ∧ d ≤ 57 := by
  rcases digits_cases n with ⟨-, hzero⟩ | ⟨d, l, hl, hlow, hhigh⟩
  · exact ⟨48, [], hzero, by decide⟩
  · exact ⟨d, l, hl, by omega⟩

theorem scanValue_int {I : Interp} {object array : Str → PyRun (PyJson × Str)} {n : Int} {text : Str}
    (h : intRepr I n = .ok text) {c : Nat} (hc : Closes c) (rest : Str) :
    scanValue I object array (text ++ c :: rest) = .ok (.int n, c :: rest) := by
  obtain ⟨hn, rfl⟩ := intRepr_eq_ok.mp h
  have hscan := scanUnsigned_digits hn hc rest
  obtain ⟨d, l, hl, hd⟩ := digits_head n.natAbs
  obtain ⟨hdigit, hminus⟩ := constants_digit hd (l ++ c :: rest)
  rw [hl] at hscan ⊢
  unfold scanValue
  split_ifs with hneg
  · simp only [hneg, decide_true] at hscan
    simp only [List.cons_append] at hscan ⊢
    rw [hminus]
    exact hscan
  · simp only [hneg, decide_false] at hscan
    simp only [List.cons_append] at hscan ⊢
    split
    · next h34 => exact absurd (List.cons.inj h34).1 (by omega)
    · next h123 => exact absurd (List.cons.inj h123).1 (by omega)
    · next h91 => exact absurd (List.cons.inj h91).1 (by omega)
    · rw [hdigit]
      dsimp only
      unfold scanNumber
      split
      · next h45 => exact absurd (List.cons.inj h45).1 (by omega)
      · exact hscan

/-! ## Objects of scalars -/

namespace PyScalar

def value : PyScalar → PyJson
  | int n => .int n
  | str s => .str s

def Plain : PyScalar → Prop
  | int _ => True
  | str s => PlainText s

end PyScalar

theorem scanValue_scalar {I : Interp} {object array : Str → PyRun (PyJson × Str)} {v : PyScalar}
    {text : Str} (h : dumpScalar I v = .ok text) (hv : v.Plain) {c : Nat} (hc : Closes c) (rest : Str) :
    scanValue I object array (text ++ c :: rest) = .ok (v.value, c :: rest) := by
  cases v with
  | int n => exact scanValue_int h hc rest
  | str s =>
    obtain rfl := ok.inj h
    rw [dumpString_plain hv]
    have happend : 34 :: (s ++ [34]) ++ c :: rest = 34 :: (s ++ 34 :: (c :: rest)) := by simp
    rw [happend]
    show (scanString (s ++ 34 :: (c :: rest)) >>= fun scanned =>
      ok (PyJson.str scanned.1, scanned.2)) = ok (PyJson.str s, c :: rest)
    rw [scanString_plain hv, ok_bind]

theorem scanOnce_scalar {I : Interp} (depth : Nat) {v : PyScalar} {text : Str}
    (h : dumpScalar I v = .ok text) (hv : v.Plain) {c : Nat} (hc : Closes c) (rest : Str) :
    scanOnce I depth (text ++ c :: rest) = .ok (v.value, c :: rest) := by
  cases depth with
  | zero => exact scanValue_scalar h hv hc rest
  | succ depth => exact scanValue_scalar h hv hc rest

/-- The members as `loads` returns them. -/
def loaded (members : List (Str × PyScalar)) : List (Str × PyJson) :=
  members.map fun member => (member.1, member.2.value)

/-- Keys and strings that are printed as they are. -/
def PlainMembers (members : List (Str × PyScalar)) : Prop :=
  ∀ member ∈ members, PlainText member.1 ∧ member.2.Plain

theorem skipSpace_cons {c : Nat} (h : ¬ isSpace c) (s : Str) : skipSpace (c :: s) = c :: s :=
  List.dropWhile_cons_of_neg h

theorem skipSpace_closes {c : Nat} (h : Closes c) (s : Str) : skipSpace (c :: s) = c :: s :=
  skipSpace_cons h.not_space s

/-- A value starts with a quotation mark, a sign or a digit. -/
theorem skipSpace_scalar {I : Interp} {v : PyScalar} {text : Str} (h : dumpScalar I v = .ok text)
    (rest : Str) : skipSpace (text ++ rest) = text ++ rest := by
  cases v with
  | int n =>
    obtain ⟨-, rfl⟩ := intRepr_eq_ok.mp h
    obtain ⟨d, l, hl, hd⟩ := digits_head n.natAbs
    rw [hl]
    split_ifs with hneg
    · exact skipSpace_cons (by decide) _
    · exact skipSpace_cons (by simp [isSpace]; omega) _
  | str s =>
    obtain rfl := ok.inj h
    exact skipSpace_cons (by decide) _

theorem expect_self (c : Nat) (s : Str) : expect c (c :: s) = .ok s := if_pos rfl

/-- One printed member, up to what follows it. -/
theorem scanMembers_member {I : Interp} {depth : Nat} {key : Str} {v : PyScalar} {text : Str}
    (h : dumpMember I (key, v) = .ok text) (hkey : PlainText key) (hv : v.Plain) {c : Nat}
    (hc : Closes c) (fuel : Nat) (rest : Str) :
    scanMembers (scanOnce I depth) (fuel + 1) (text ++ c :: rest) =
      if c = 125 then .ok ([(key, v.value)], rest)
      else scanMembers (scanOnce I depth) fuel (skipSpace rest) >>= fun scanned =>
        .ok ((key, v.value) :: scanned.1, scanned.2) := by
  obtain ⟨value, hvalue, htext⟩ := bind_eq_ok.mp h
  obtain rfl := ok.inj htext
  have happend : 34 :: (key ++ [34]) ++ 58 :: value ++ c :: rest =
      34 :: (key ++ 34 :: 58 :: (value ++ c :: rest)) := by simp
  rw [dumpString_plain hkey, happend, scanMembers, expect_self, ok_bind, scanString_plain hkey, ok_bind]
  dsimp only
  rw [skipSpace_cons (by decide), expect_self, ok_bind, skipSpace_scalar hvalue,
    scanOnce_scalar depth hvalue hv hc, ok_bind]
  dsimp only
  rw [skipSpace_closes hc]
  dsimp only
  rcases hc with rfl | rfl
  · rw [if_neg (by decide), if_pos rfl, if_neg (by decide)]
  · rw [if_pos rfl, if_pos rfl]

theorem collect_cons_eq_ok {task : PyRun Str} {tasks : List (PyRun Str)} {texts : List Str} :
    collect (task :: tasks) = .ok texts ↔
      ∃ text rest, task = .ok text ∧ collect tasks = .ok rest ∧ texts = text :: rest := by
  simp only [collect, bind_eq_ok, ok.injEq]
  constructor
  · rintro ⟨text, ht, rest, hr, rfl⟩
    exact ⟨text, rest, ht, hr, rfl⟩
  · rintro ⟨text, rest, ht, hr, rfl⟩
    exact ⟨text, ht, rest, hr, rfl⟩

/-- The text of an object starts with the quotation mark of a key. -/
theorem dump_head {I : Interp} {members : List (Str × PyScalar)} (hne : members ≠ [])
    {texts : List Str} (h : collect (members.map (dumpMember I)) = .ok texts) :
    ∃ l, [44].intercalate texts = 34 :: l := by
  cases members with
  | nil => exact absurd rfl hne
  | cons member members =>
    obtain ⟨text, others, htext, -, rfl⟩ := collect_cons_eq_ok.mp h
    obtain ⟨value, -, hvalue⟩ := bind_eq_ok.mp htext
    obtain rfl := ok.inj hvalue
    cases others with
    | nil => exact ⟨_, List.intercalate_singleton⟩
    | cons other others => exact ⟨_, List.intercalate_cons_cons⟩

/-- **The members of a printed object scan back**, with fuel for every character. -/
theorem scanMembers_dump {I : Interp} {depth : Nat} {members : List (Str × PyScalar)}
    (hne : members ≠ []) (hplain : PlainMembers members) {texts : List Str}
    (h : collect (members.map (dumpMember I)) = .ok texts) {fuel : Nat}
    (hfuel : ([44].intercalate texts).length < fuel) (rest : Str) :
    scanMembers (scanOnce I depth) fuel ([44].intercalate texts ++ 125 :: rest) =
      .ok (loaded members, rest) := by
  induction members generalizing texts fuel with
  | nil => exact absurd rfl hne
  | cons member members ih =>
    obtain ⟨text, others, htext, hothers, rfl⟩ := collect_cons_eq_ok.mp h
    obtain ⟨⟨hkey, hv⟩, hrest⟩ := List.forall_mem_cons.mp hplain
    obtain ⟨fuel, rfl⟩ : ∃ n, fuel = n + 1 := ⟨fuel - 1, by omega⟩
    cases members with
    | nil =>
      obtain rfl := ok.inj hothers
      rw [List.intercalate_singleton, scanMembers_member htext hkey hv (.inr rfl), if_pos rfl]
      rfl
    | cons next members =>
      obtain ⟨nextText, more, hnext, hmore, rfl⟩ := collect_cons_eq_ok.mp hothers
      rw [List.intercalate_cons_cons] at hfuel ⊢
      rw [List.append_assoc, List.append_assoc, List.singleton_append,
        scanMembers_member htext hkey hv (.inl rfl), if_neg (by decide)]
      obtain ⟨l, hl⟩ := dump_head (List.cons_ne_nil _ _) hothers
      have hskip : skipSpace ([44].intercalate (nextText :: more) ++ 125 :: rest) =
          [44].intercalate (nextText :: more) ++ 125 :: rest := by
        rw [hl]
        exact skipSpace_cons (by decide) _
      have hlen : ([44].intercalate (nextText :: more)).length < fuel := by
        simp only [List.length_append, List.length_cons, List.length_nil] at hfuel
        omega
      rw [hskip, ih (List.cons_ne_nil _ _) hrest hothers hlen]
      rfl

theorem sortItems_plain {members : List (Str × PyScalar)} (h : PlainMembers members) :
    PlainMembers (sortItems members) := fun member hm =>
  h member ((List.perm_insertionSort _ members).mem_iff.mp hm)

/-- **Reading undoes printing**, up to the order of the members. -/
theorem loads_dumps {I : Interp} {members : List (Str × PyScalar)} (hne : members ≠ [])
    (hplain : PlainMembers members) {text : Str} (h : dumps I members = .ok text) :
    loads I text = .ok (.dict (loaded (sortItems members))) := by
  obtain ⟨texts, htexts, htext⟩ := bind_eq_ok.mp h
  obtain rfl := ok.inj htext
  have hsorted : sortItems members ≠ [] := fun hnil =>
    hne (List.perm_nil.mp (hnil ▸ (List.perm_insertionSort _ members).symm))
  obtain ⟨depth, hdepth⟩ : ∃ depth, I.recursionLimit = depth + 1 :=
    ⟨I.recursionLimit - 1, by have := I.recursionLimit_pos; omega⟩
  obtain ⟨l, hl⟩ := dump_head hsorted htexts
  have hskip : skipSpace ([44].intercalate texts ++ [125]) = [44].intercalate texts ++ [125] := by
    rw [hl]
    exact skipSpace_cons (by decide) _
  have hobject : scanOnce I (depth + 1) (123 :: ([44].intercalate texts ++ [125])) =
      .ok (.dict (loaded (sortItems members)), []) := by
    show scanObject (scanOnce I depth) ([44].intercalate texts ++ [125]) = _
    unfold scanObject
    dsimp only
    rw [hskip, if_neg (by rw [hl]; simp),
      scanMembers_dump hsorted (sortItems_plain hplain) htexts (by rw [List.length_append]; omega),
      ok_bind]
  unfold loads
  rw [List.head?_cons, rejectIf_false (by decide), ok_bind, skipSpace_cons (by decide), hdepth, hobject,
    ok_bind]
  rfl

/-! ## What is printed -/

theorem intRepr_ascii {I : Interp} {n : Int} {text : Str} (h : intRepr I n = .ok text) :
    ∀ c ∈ text, c < 128 := by
  have hdigits : ∀ c ∈ digits n.natAbs, c < 128 := fun c hc => by
    have hdigit := isDigit_of_mem_digits hc
    simp [isDigit] at hdigit
    omega
  obtain ⟨-, rfl⟩ := intRepr_eq_ok.mp h
  split_ifs
  · exact List.forall_mem_cons.mpr ⟨by decide, hdigits⟩
  · exact hdigits

theorem dumpString_ascii {s : Str} (h : PlainText s) : ∀ c ∈ dumpString s, c < 128 := by
  rw [dumpString_plain h]
  intro c hc
  rcases List.mem_cons.mp hc with rfl | hc
  · decide
  rcases List.mem_append.mp hc with hc | hc
  · have hplain := h c hc
    unfold Plain at hplain
    omega
  · rw [List.mem_singleton.mp hc]
    decide

theorem dumpMember_ascii {I : Interp} {member : Str × PyScalar} {text : Str}
    (hkey : PlainText member.1) (hv : member.2.Plain) (h : dumpMember I member = .ok text) :
    ∀ c ∈ text, c < 128 := by
  obtain ⟨value, hvalue, htext⟩ := bind_eq_ok.mp h
  obtain rfl := ok.inj htext
  intro c hc
  rcases List.mem_append.mp hc with hc | hc
  · exact dumpString_ascii hkey c hc
  rcases List.mem_cons.mp hc with rfl | hc
  · decide
  cases hmember : member.2 with
  | int n =>
    rw [hmember] at hvalue
    exact intRepr_ascii hvalue c hc
  | str s =>
    rw [hmember] at hvalue hv
    obtain rfl := ok.inj hvalue
    exact dumpString_ascii hv c hc

theorem collect_ascii {I : Interp} {members : List (Str × PyScalar)} (hplain : PlainMembers members)
    {texts : List Str} (h : collect (members.map (dumpMember I)) = .ok texts) :
    ∀ c ∈ [44].intercalate texts, c < 128 := by
  induction members generalizing texts with
  | nil =>
    obtain rfl := ok.inj h
    exact nofun
  | cons member members ih =>
    obtain ⟨text, others, htext, hothers, rfl⟩ := collect_cons_eq_ok.mp h
    obtain ⟨⟨hkey, hv⟩, hrest⟩ := List.forall_mem_cons.mp hplain
    have hascii := dumpMember_ascii hkey hv htext
    cases others with
    | nil => rwa [List.intercalate_singleton]
    | cons other others =>
      rw [List.intercalate_cons_cons]
      intro c hc
      rcases List.mem_append.mp hc with hc | hc
      · rcases List.mem_append.mp hc with hc | hc
        · exact hascii c hc
        · rw [List.mem_singleton.mp hc]
          decide
      · exact ih hrest hothers c hc

/-- A printed object is ASCII. -/
theorem dumps_ascii {I : Interp} {members : List (Str × PyScalar)} (hplain : PlainMembers members)
    {text : Str} (h : dumps I members = .ok text) : ∀ c ∈ text, c < 128 := by
  obtain ⟨texts, htexts, htext⟩ := bind_eq_ok.mp h
  obtain rfl := ok.inj htext
  intro c hc
  rcases List.mem_cons.mp hc with rfl | hc
  · decide
  rcases List.mem_append.mp hc with hc | hc
  · exact collect_ascii (sortItems_plain hplain) htexts c hc
  · rw [List.mem_singleton.mp hc]
    decide

end Krcm.Py
