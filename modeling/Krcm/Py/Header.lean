import Krcm.V4.Header
import Krcm.Py.Json

/-!
# The header of the Python reference

`Header` of `core.py`, with integers of any size and byte strings of any
length. What `to_json_bytes` prints reads back iff the fields are in range
(`fromJsonBytes_printed`), and on the fields of a v4 header it prints what
the Rust template prints (`toJsonBytes_agrees`).
-/

namespace Krcm.Py

open Base Outcome

structure Header where
  version : Int
  iterations : Int
  salt : Bytes
  nonce : Bytes
  originalLength : Int
  deriving DecidableEq

def supportedVersions : List Int := [2, 3, 4]

@[simp] abbrev maxIterations : Int := 1000000

namespace Header

def construction (header : Header) : Str :=
  if header.version = 3 then str "AMPC-AffineSubstitution-Matrix-v3"
  else str "AMPC-Permutation-Matrix-v4"

/-- The payload of `to_json_bytes`. -/
def payload (header : Header) : List (Str × PyScalar) :=
  [(str "magic", .str (str "AMPCRYPT")),
    (str "version", .int header.version),
    (str "iterations", .int header.iterations),
    (str "salt", .str (b64encode header.salt)),
    (str "nonce", .str (b64encode header.nonce)),
    (str "original_length", .int header.originalLength),
    (str "block_bytes", .int blockBytes),
    (str "word_bits", .int 64),
    (str "rounds", .int rounds),
    (str "construction", .str header.construction)]

def toJsonBytes (I : Interp) (header : Header) : PyRun Bytes := do
  let text ← dumps I header.payload
  encodeUtf8 text

end Header

/-! ## from_json_bytes -/

/-- `payload[key]` of the last member with that key. -/
def lookup (payload : List (Str × PyJson)) (key : String) : Option PyJson :=
  (payload.reverse.find? fun member => member.1 == str key).map (·.2)

def item (payload : List (Str × PyJson)) (key : String) : PyRun PyJson :=
  okOr (lookup payload key) .keyError

namespace PyJson

/-- What `.get` needs: only a dict has it. -/
def asDict : PyJson → PyRun (List (Str × PyJson))
  | dict members => .ok members
  | _ => .err .attributeError

/-- Equality with a string. -/
def isText (s : Str) : PyJson → Bool
  | str t => t == s
  | _ => false

/-- `int(value)`. -/
def toInt (I : Interp) : PyJson → PyRun Int
  | int n => .ok n
  | bool b => .ok (if b then 1 else 0)
  | float .nan => .err .valueError
  | float (.infinity _) => .err .overflowError
  | float (.decimal text) => okOr (I.truncate text) .overflowError
  | str s => okOr (I.intOfStr s) .valueError
  | _ => .err .typeError

/-- `base64.b64decode(value, validate=True)`. -/
def decode64 : PyJson → PyRun Bytes
  | str s => b64decode s
  | _ => .err .typeError

end PyJson

/-- The body of the `try` of `from_json_bytes`. -/
def readHeader (I : Interp) (data : Bytes) : PyRun Header := do
  let text ← decodeUtf8 data
  let value ← loads I text
  let payload ← value.asDict
  rejectIf (¬ (lookup payload "magic").any (PyJson.isText (str "AMPCRYPT"))) .formatError
  let version ← item payload "version"
  let version ← version.toInt I
  rejectIf (version ∉ supportedVersions) .formatError
  let size ← item payload "block_bytes"
  let size ← size.toInt I
  rejectIf (size ≠ blockBytes) .formatError
  let count ← ((lookup payload "rounds").getD (.int (-1))).toInt I
  rejectIf (count ≠ rounds) .formatError
  let salt ← item payload "salt"
  let salt ← salt.decode64
  let nonce ← item payload "nonce"
  let nonce ← nonce.decode64
  rejectIf (salt.length ≠ saltBytes ∨ nonce.length ≠ nonceBytes) .formatError
  let originalLength ← item payload "original_length"
  let originalLength ← originalLength.toInt I
  let iterations ← item payload "iterations"
  let iterations ← iterations.toInt I
  rejectIf (originalLength < 0 ∨ iterations < 1 ∨ iterations > maxIterations) .formatError
  .ok ⟨version, iterations, salt, nonce, originalLength⟩

/-- What the `except` clause turns into a `FormatError`. -/
def caught : PyError → Bool
  | .keyError | .valueError | .typeError => true
  | _ => false

def fromJsonBytes (I : Interp) (data : Bytes) : PyRun Header :=
  match readHeader I data with
  | .err e => .err (if caught e then .formatError else e)
  | run => run

/-! ## Reading what was printed -/

/-- The fields `from_json_bytes` lets through. -/
structure Header.Valid (header : Header) : Prop where
  version : header.version = 2 ∨ header.version = 3 ∨ header.version = 4
  iterations : 1 ≤ header.iterations ∧ header.iterations ≤ 1000000
  salt : header.salt.length = 16
  nonce : header.nonce.length = 16
  originalLength : 0 ≤ header.originalLength

theorem fromJsonBytes_eq_ok {I : Interp} {data : Bytes} {header : Header} :
    fromJsonBytes I data = .ok header ↔ readHeader I data = .ok header := by
  unfold fromJsonBytes
  cases readHeader I data <;> simp

theorem plain_b64encode (data : Bytes) : PlainText (b64encode data) :=
  fun _ => plain_of_mem_b64encode

theorem Header.plain_payload (header : Header) : PlainMembers header.payload := by
  have hconstruction : PlainText header.construction := by
    unfold Header.construction
    split <;> decide
  unfold PlainMembers Header.payload
  simp only [List.forall_mem_cons, PyScalar.Plain, List.not_mem_nil, false_implies, implies_true,
    and_true, hconstruction, plain_b64encode]
  decide

/-- The members in the order they are printed. -/
theorem Header.sort_payload (header : Header) : sortItems header.payload =
    [(str "block_bytes", .int blockBytes),
      (str "construction", .str header.construction),
      (str "iterations", .int header.iterations),
      (str "magic", .str (str "AMPCRYPT")),
      (str "nonce", .str (b64encode header.nonce)),
      (str "original_length", .int header.originalLength),
      (str "rounds", .int rounds),
      (str "salt", .str (b64encode header.salt)),
      (str "version", .int header.version),
      (str "word_bits", .int 64)] := by
  rfl

/-- The text of a header, and what reads from it. -/
theorem Header.text_of_toJsonBytes {I : Interp} {header : Header} {data : Bytes}
    (h : header.toJsonBytes I = .ok data) : ∃ text, dumps I header.payload = .ok text ∧
      data = text.map UInt8.ofNat ∧ decodeUtf8 data = .ok text ∧
      loads I text = .ok (.dict (loaded (sortItems header.payload))) := by
  obtain ⟨text, htext, hdata⟩ := bind_eq_ok.mp h
  have hascii := dumps_ascii header.plain_payload htext
  rw [encodeUtf8_ascii hascii] at hdata
  obtain rfl := ok.inj hdata
  exact ⟨text, htext, rfl, decodeUtf8_ascii hascii,
    loads_dumps (List.cons_ne_nil _ _) header.plain_payload htext⟩

theorem mem_supportedVersions {version : Int} :
    version ∈ supportedVersions ↔ version = 2 ∨ version = 3 ∨ version = 4 := by
  simp [supportedVersions]

/-- The members of a printed header, as they are looked up. -/
structure Header.Members (header : Header) (payload : List (Str × PyJson)) : Prop where
  magic : lookup payload "magic" = some (.str (str "AMPCRYPT"))
  version : lookup payload "version" = some (.int header.version)
  blockBytes : lookup payload "block_bytes" = some (.int 32)
  rounds : lookup payload "rounds" = some (.int 10)
  salt : lookup payload "salt" = some (.str (b64encode header.salt))
  nonce : lookup payload "nonce" = some (.str (b64encode header.nonce))
  originalLength : lookup payload "original_length" = some (.int header.originalLength)
  iterations : lookup payload "iterations" = some (.int header.iterations)

theorem Header.members_payload (header : Header) :
    header.Members (loaded (sortItems header.payload)) := by
  rw [Header.sort_payload]
  exact ⟨rfl, rfl, rfl, rfl, rfl, rfl, rfl, rfl⟩

/-- **A printed header reads back iff its fields are in range.** -/
theorem fromJsonBytes_printed {I : Interp} {header header' : Header} {data : Bytes}
    (h : header.toJsonBytes I = .ok data) :
    fromJsonBytes I data = .ok header' ↔ header.Valid ∧ header' = header := by
  obtain ⟨text, -, -, hdecode, hloads⟩ := Header.text_of_toJsonBytes h
  have hm := header.members_payload
  have hmagic : ¬ ¬ (some (PyJson.str (str "AMPCRYPT"))).any (PyJson.isText (str "AMPCRYPT")) :=
    by decide
  rw [fromJsonBytes_eq_ok]
  unfold readHeader item
  rw [hdecode, ok_bind, hloads, ok_bind]
  simp only [PyJson.asDict, hm.magic, hm.version, hm.blockBytes, hm.rounds, hm.salt, hm.nonce,
    hm.originalLength, hm.iterations, ok_bind, okOr, Option.getD_some, PyJson.toInt, PyJson.decode64,
    b64decode_b64encode, rejectIf_false hmagic, bind_eq_ok, rejectIf_eq_ok, not_not, exists_const,
    mem_supportedVersions, ok.injEq]
  dsimp only [saltBytes, nonceBytes, maxIterations]
  constructor
  · rintro ⟨hv, -, -, hlen, hrange, rfl⟩
    exact ⟨⟨hv, by omega, by omega, by omega, by omega⟩, rfl⟩
  · rintro ⟨hvalid, rfl⟩
    have hiterations := hvalid.iterations
    have hlength := hvalid.originalLength
    refine ⟨hvalid.version, rfl, rfl, ?_, by omega, rfl⟩
    rw [hvalid.salt, hvalid.nonce]
    decide

/-! ## The Rust template -/

/-- The fields of a v4 header. -/
def Header.ofV4 (header : HeaderV4) : Header where
  version := header.version.toNat
  iterations := header.iterations.toNat
  salt := header.salt.toList
  nonce := header.nonce.toList
  originalLength := header.originalLength.toNat

/-- A member of the dict, and of the template. -/
inductive Matches : Str × PyScalar → Bytes × Scalar → Prop where
  | int {key : String} (hkey : PlainText (str key)) (w : UInt64) :
    Matches (str key, .int w.toNat) (ascii key, .number w)
  | text {key : String} (hkey : PlainText (str key)) {s : Str} (hs : PlainText s) :
    Matches (str key, .str s) (ascii key, .text (s.map UInt8.ofNat))

theorem map_str (s : String) : (str s).map UInt8.ofNat = ascii s := by
  unfold str ascii
  rw [List.map_map]
  rfl

theorem map_digits (n : Nat) : (digits n).map UInt8.ofNat = decimal n := by
  unfold digits decimal
  rw [List.map_map]
  rfl

/-- No word reaches the digit limit. -/
theorem intRepr_word (I : Interp) (w : UInt64) : intRepr I w.toNat = .ok (digits w.toNat) := by
  have hlen : (digits w.toNat).length ≤ 20 := by
    rw [← List.length_map UInt8.ofNat, map_digits]
    exact length_decimal w.toNat_lt
  have hcheck : checkDigits I (digits w.toNat) = .ok () := by
    refine rejectIf_false ?_
    rw [Option.any_eq_true, not_exists]
    intro limit hlimit
    have hge := I.maxStrDigits_ge limit hlimit.1
    have hlt := of_decide_eq_true hlimit.2
    omega
  exact intRepr_eq_ok.mpr ⟨hcheck, (if_neg (by omega)).symm⟩

theorem map_dumpString {s : Str} (h : PlainText s) :
    (dumpString s).map UInt8.ofNat = ascii "\"" ++ s.map UInt8.ofNat ++ ascii "\"" := by
  rw [dumpString_plain h, List.map_cons, List.map_append]
  rfl

/-- A member of the dict is printed as that of the template. -/
theorem Matches.dumpMember {I : Interp} {member : Str × PyScalar} {printed : Bytes × Scalar}
    (h : Matches member printed) :
    ∃ text, Py.dumpMember I member = .ok text ∧ text.map UInt8.ofNat = printMember printed := by
  have hprint {key : String} {value : Str} (hkey : PlainText (str key)) :
      (dumpString (str key) ++ 58 :: value).map UInt8.ofNat =
        ascii "\"" ++ ascii key ++ ascii "\":" ++ value.map UInt8.ofNat := by
    rw [List.map_append, List.map_cons, map_dumpString hkey, map_str]
    simp [ascii]
  cases h with
  | int hkey w =>
    refine ⟨_, bind_eq_ok.mpr ⟨_, intRepr_word I w, rfl⟩, ?_⟩
    rw [hprint hkey, map_digits]
    rfl
  | text hkey hs =>
    refine ⟨_, bind_eq_ok.mpr ⟨_, rfl, rfl⟩, ?_⟩
    rw [hprint hkey, map_dumpString hs]
    rfl

theorem collect_matches {I : Interp} {members : List (Str × PyScalar)} {printed : List (Bytes × Scalar)}
    (h : List.Forall₂ Matches members printed) :
    ∃ texts, collect (members.map (dumpMember I)) = .ok texts ∧
      texts.map (List.map UInt8.ofNat) = printed.map printMember := by
  induction h with
  | nil => exact ⟨[], rfl, rfl⟩
  | cons hmember _ ih =>
    obtain ⟨text, htext, hmap⟩ := hmember.dumpMember
    obtain ⟨texts, htexts, hmaps⟩ := ih
    refine ⟨text :: texts, collect_cons_eq_ok.mpr ⟨_, _, htext, htexts, rfl⟩, ?_⟩
    rw [List.map_cons, List.map_cons, hmap, hmaps]

theorem map_intercalate (f : Nat → UInt8) (sep : Str) (texts : List Str) :
    (sep.intercalate texts).map f = (sep.map f).intercalate (texts.map (List.map f)) := by
  induction texts with
  | nil => rfl
  | cons text texts ih =>
    cases texts with
    | nil => simp only [List.intercalate_singleton, List.map_cons, List.map_nil]
    | cons next texts =>
      rw [List.intercalate_cons_cons, List.map_append, List.map_append, ih, List.map_cons, List.map_cons,
        List.map_cons, List.intercalate_cons_cons]

/-- A dict whose sorted members are those of the template is printed as the template. -/
theorem dumps_matches {I : Interp} {members : List (Str × PyScalar)} {printed : List (Bytes × Scalar)}
    (h : List.Forall₂ Matches (sortItems members) printed) :
    ∃ text, dumps I members = .ok text ∧ text.map UInt8.ofNat = printObject printed := by
  obtain ⟨texts, htexts, hmap⟩ := collect_matches h
  refine ⟨_, bind_eq_ok.mpr ⟨_, htexts, rfl⟩, ?_⟩
  rw [List.map_cons, List.map_append, map_intercalate, hmap]
  rfl

theorem matches_construction (header : HeaderV4) :
    Matches (str "construction", .str (Header.ofV4 header).construction)
      (ascii "construction", .text header.construction) := by
  have hversion : (Header.ofV4 header).version = 3 ↔ header.version = 3 := by
    rw [← UInt8.toNat_inj]
    show (header.version.toNat : Int) = 3 ↔ header.version.toNat = 3
    omega
  unfold Header.construction HeaderV4.construction
  by_cases h : header.version = 3
  · rw [if_pos (hversion.mpr h), if_pos h, ← map_str]
    exact .text (by decide) (by decide)
  · rw [if_neg (mt hversion.mp h), if_neg h, ← map_str]
    exact .text (by decide) (by decide)

section
variable {E : Env} {header : HeaderV4}
  (hs : E.base64Encode header.salt.toList = base64 header.salt.toList)
  (hn : E.base64Encode header.nonce.toList = base64 header.nonce.toList)
include hs hn

/-- The sorted payload is the template, member by member. -/
theorem matches_members :
    List.Forall₂ Matches (sortItems (Header.ofV4 header).payload) (header.members E) := by
  rw [Header.sort_payload]
  unfold HeaderV4.members
  rw [hs, hn, ← map_b64encode, ← map_b64encode]
  refine .cons (.int (by decide) (.ofNat blockBytes)) <|
    .cons (matches_construction header) <|
    .cons (.int (by decide) header.iterations.toUInt64) <|
    .cons (.text (by decide) (by decide)) <|
    .cons (.text (by decide) (plain_b64encode _)) <|
    .cons (.int (by decide) header.originalLength) <|
    .cons (.int (by decide) (.ofNat rounds)) <|
    .cons (.text (by decide) (plain_b64encode _)) <|
    .cons (.int (by decide) header.version.toUInt64) <|
    .cons (.int (by decide) 64) .nil

/-- **The two headers are printed alike.** -/
theorem toJsonBytes_agrees (I : Interp) :
    (Header.ofV4 header).toJsonBytes I = .ok (header.toJsonBytes E) := by
  obtain ⟨text, htext, hmap⟩ := dumps_matches (matches_members hs hn)
  unfold Header.toJsonBytes
  rw [htext, ok_bind, encodeUtf8_ascii (dumps_ascii (Header.plain_payload _) htext), hmap,
    toJsonBytes_eq]

end

end Krcm.Py
