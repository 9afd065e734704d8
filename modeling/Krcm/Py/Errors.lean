import Krcm.Py.Container

/-!
# The errors of the Python reader

Every function of the reader ends with a value or an exception, and only with
exceptions of the classes stated here: the scanners of `json` with `ValueError`
and `RecursionError`, the fields of a header with what `int` and `b64decode`
raise.
-/

namespace Krcm.Py

open Base Outcome

/-! ## Text -/

abbrev IsValueError (e : PyError) : Prop := e = .valueError

/-- The run ends, and raises nothing but `ValueError`. -/
abbrev ValueOnly {α : Type} (run : PyRun α) : Prop := Post IsValueError (fun _ => True) run

theorem continuation_valueOnly (b : UInt8) : ValueOnly (continuation b) := by
  unfold continuation
  refine post_bind.mpr (post_rejectIf.mpr ⟨fun _ => rfl, fun _ => trivial⟩)

theorem decodeUtf8_valueOnly (data : Bytes) : ValueOnly (decodeUtf8 data) := by
  -- A sequence of continuation bytes, a check of the range, and the rest.
  have hlast {c : Prop} [Decidable c] {point : Nat} {l : Bytes} (ih : ValueOnly (decodeUtf8 l)) :
      ValueOnly (do
        rejectIf c .valueError
        let rest ← decodeUtf8 l
        .ok (point :: rest)) :=
    post_bind.mpr (post_rejectIf.mpr ⟨fun _ => rfl, fun _ => ih.bind fun _ _ => trivial⟩)
  fun_induction decodeUtf8 data with
  | case1 => trivial
  | case2 a l _ ih => exact ih.bind fun _ _ => trivial
  | case3 => exact rfl
  | case4 a _ _ _ b l ih => exact (continuation_valueOnly b).bind fun _ _ => hlast ih
  | case5 => exact rfl
  | case6 a _ _ _ _ b b' l ih =>
    refine (continuation_valueOnly b).bind fun _ _ => ?_
    exact (continuation_valueOnly b').bind fun _ _ => hlast ih
  | case7 => exact rfl
  | case8 a _ _ _ _ b b' b'' l ih =>
    refine (continuation_valueOnly b).bind fun _ _ => ?_
    refine (continuation_valueOnly b').bind fun _ _ => ?_
    exact (continuation_valueOnly b'').bind fun _ _ => hlast ih
  | case9 => exact rfl

theorem a2bLoop_valueOnly (quadPos left pads : Nat) (paddingStarted : Bool) (l : Bytes) :
    ValueOnly (a2bLoop quadPos left pads paddingStarted l) := by
  fun_induction a2bLoop quadPos left pads paddingStarted l
  all_goals first
    | exact rfl
    | trivial
    | assumption
    | exact Post.bind ‹_› fun _ _ => trivial

theorem b64decode_valueOnly (s : Str) : ValueOnly (b64decode s) := by
  unfold b64decode a2bBase64
  refine post_bind.mpr (post_rejectIf.mpr ⟨fun _ => rfl, fun _ => ?_⟩)
  refine post_bind.mpr (post_rejectIf.mpr ⟨fun _ => rfl, fun _ => ?_⟩)
  exact a2bLoop_valueOnly _ _ _ _ _

theorem checkDigits_valueOnly (I : Interp) (text : Str) : ValueOnly (checkDigits I text) := by
  unfold checkDigits
  exact post_rejectIf.mpr ⟨fun _ => rfl, fun _ => trivial⟩

/-! ## json.loads -/

/-- What `json.loads` raises. -/
def IsLoadsError (e : PyError) : Prop := e = .valueError ∨ e = .recursionError

/-- A scanner ends, and leaves no more text than it was given. -/
abbrev Scans {α : Type} (s : Str) (run : PyRun (α × Str)) : Prop :=
  Post IsLoadsError (fun scanned => scanned.2.length ≤ s.length) run

/-- A run on the rest of a text, on the whole of it. -/
theorem Scans.mono {α : Type} {s t : Str} {run : PyRun (α × Str)} (h : Scans s run)
    (hst : s.length ≤ t.length) : Scans t run :=
  Post.mono h (fun _ he => he) fun _ ha => ha.trans hst

theorem scanUnits_scans (s : Str) : Scans s (scanUnits s) := by
  fun_induction scanUnits s with
  | case1 => exact .inl rfl
  | case2 s => exact Nat.le_succ _
  | case3 a b c d s _ ih =>
    refine post_bind.mpr (post_okOr.mpr ⟨fun _ => .inl rfl, fun unit _ => ?_⟩)
    refine ih.bind fun scanned hscanned => ?_
    simp only [post_ok, List.length_cons]
    omega
  | case4 e s _ _ ih =>
    refine post_bind.mpr (post_okOr.mpr ⟨fun _ => .inl rfl, fun unit _ => ?_⟩)
    refine ih.bind fun scanned hscanned => ?_
    simp only [post_ok, List.length_cons]
    omega
  | case5 => exact .inl rfl
  | case6 => exact .inl rfl
  | case7 c s _ _ _ ih =>
    refine ih.bind fun scanned hscanned => ?_
    simp only [post_ok, List.length_cons]
    omega

theorem scanString_scans (s : Str) : Scans s (scanString s) := by
  unfold scanString
  exact (scanUnits_scans s).bind fun scanned hscanned => hscanned

theorem length_dropWhile_le (p : Nat → Bool) (s : Str) : (s.dropWhile p).length ≤ s.length :=
  (List.dropWhile_sublist p).length_le

theorem scanWhole_scans (s : Str) : Scans s (scanWhole s) := by
  unfold scanWhole
  split
  · exact Nat.le_succ _
  · split
    · exact length_dropWhile_le _ _
    · exact .inl rfl

theorem scanFraction_length (s : Str) : (scanFraction s).2.length ≤ s.length := by
  unfold scanFraction
  split
  · split
    · exact (length_dropWhile_le _ _).trans (Nat.le_succ _)
    · exact le_rfl
  · exact le_rfl

theorem scanExponent_length (s : Str) : (scanExponent s).2.length ≤ s.length := by
  unfold scanExponent
  split
  · next c s =>
    dsimp only
    split
    · refine (length_dropWhile_le _ _).trans ?_
      rw [List.length_drop, List.length_cons]
      omega
    · exact le_rfl
  · exact le_rfl

theorem scanUnsigned_scans (I : Interp) (negative : Bool) (s : Str) :
    Scans s (scanUnsigned I negative s) := by
  unfold scanUnsigned
  refine (scanWhole_scans s).bind fun scanned hscanned => ?_
  have hfraction := scanFraction_length scanned.2
  have hexponent := scanExponent_length (scanFraction scanned.2).2
  dsimp only
  split
  · have hdigits : Post IsLoadsError (fun _ => True) (intOfDigits I negative scanned.1) := by
      unfold intOfDigits
      exact ((checkDigits_valueOnly I _).mono (fun _ he => .inl he) fun _ h => h).bind
        fun _ _ => trivial
    refine hdigits.bind fun n _ => ?_
    simp only [post_ok]
    omega
  · simp only [post_ok]
    omega

theorem scanNumber_scans (I : Interp) (s : Str) : Scans s (scanNumber I s) := by
  unfold scanNumber
  split
  · exact (scanUnsigned_scans I true _).mono (Nat.le_succ _)
  · exact scanUnsigned_scans I false s

theorem expect_scans (c : Nat) (s : Str) :
    Post IsLoadsError (fun rest => rest.length < s.length) (expect c s) := by
  unfold expect
  split
  · split
    · exact Nat.lt_succ_self _
    · exact .inl rfl
  · exact .inl rfl

theorem skipSpace_length (s : Str) : (skipSpace s).length ≤ s.length := length_dropWhile_le _ _

section
variable {value : Str → PyRun (PyJson × Str)} (hvalue : ∀ s, Scans s (value s))
include hvalue

/-- Every member takes a character of the fuel. -/
theorem scanMembers_scans :
    ∀ (fuel : Nat) (s : Str), s.length < fuel → Scans s (scanMembers value fuel s)
  | 0, _, h => absurd h (Nat.not_lt_zero _)
  | fuel + 1, s, h => by
    unfold scanMembers
    refine (expect_scans 34 s).bind fun s₁ h₁ => ?_
    refine (scanString_scans s₁).bind fun key hkey => ?_
    have hspace := skipSpace_length key.2
    refine (expect_scans 58 (skipSpace key.2)).bind fun s₂ h₂ => ?_
    have hspace' := skipSpace_length s₂
    refine (hvalue (skipSpace s₂)).bind fun member hmember => ?_
    have hend := skipSpace_length member.2
    dsimp only
    split
    · next c rest hrest =>
      rw [hrest, List.length_cons] at hend
      split
      · simp only [post_ok]
        omega
      · split
        · have hnext := skipSpace_length rest
          refine ((scanMembers_scans fuel (skipSpace rest) (by omega)).bind
            fun members hmembers => ?_)
          simp only [post_ok]
          omega
        · exact .inl rfl
    · exact .inl rfl

theorem scanItems_scans :
    ∀ (fuel : Nat) (s : Str), s.length < fuel → Scans s (scanItems value fuel s)
  | 0, _, h => absurd h (Nat.not_lt_zero _)
  | fuel + 1, s, h => by
    unfold scanItems
    refine (hvalue s).bind fun item hitem => ?_
    have hend := skipSpace_length item.2
    dsimp only
    split
    · next c rest hrest =>
      rw [hrest, List.length_cons] at hend
      split
      · simp only [post_ok]
        omega
      · split
        · have hnext := skipSpace_length rest
          refine ((scanItems_scans fuel (skipSpace rest) (by omega)).bind fun items hitems => ?_)
          simp only [post_ok]
          omega
        · exact .inl rfl
    · exact .inl rfl

theorem scanObject_scans (s : Str) : Scans s (scanObject value s) := by
  have hspace := skipSpace_length s
  unfold scanObject
  dsimp only
  split
  · simp only [post_ok, List.length_tail]
    omega
  · refine (scanMembers_scans hvalue _ (skipSpace s) (Nat.lt_succ_self _)).bind
      fun members hmembers => ?_
    simp only [post_ok]
    omega

theorem scanArray_scans (s : Str) : Scans s (scanArray value s) := by
  have hspace := skipSpace_length s
  unfold scanArray
  dsimp only
  split
  · simp only [post_ok, List.length_tail]
    omega
  · refine (scanItems_scans hvalue _ (skipSpace s) (Nat.lt_succ_self _)).bind fun items hitems => ?_
    simp only [post_ok]
    omega

end

theorem scanValue_scans (I : Interp) {object array : Str → PyRun (PyJson × Str)}
    (hobject : ∀ s, Scans s (object s)) (harray : ∀ s, Scans s (array s)) (s : Str) :
    Scans s (scanValue I object array s) := by
  unfold scanValue
  split
  · next s =>
    refine (scanString_scans s).bind fun scanned hscanned => ?_
    simp only [post_ok, List.length_cons]
    omega
  · exact (hobject _).mono (Nat.le_succ _)
  · exact (harray _).mono (Nat.le_succ _)
  · split
    · simp only [post_ok, List.length_drop]
      omega
    · exact scanNumber_scans I s

theorem scanOnce_scans (I : Interp) (depth : Nat) : ∀ s, Scans s (scanOnce I depth s) := by
  induction depth with
  | zero =>
    have hdeep (s : Str) : Scans s (.err .recursionError : PyRun (PyJson × Str)) := .inr rfl
    exact scanValue_scans I hdeep hdeep
  | succ depth ih => exact scanValue_scans I (scanObject_scans ih) (scanArray_scans ih)

/-- **`json.loads` ends**, and raises `ValueError` or `RecursionError` only. -/
theorem loads_post (I : Interp) (s : Str) : Post IsLoadsError (fun _ => True) (loads I s) := by
  unfold loads
  refine post_bind.mpr (post_rejectIf.mpr ⟨fun _ => .inl rfl, fun _ => ?_⟩)
  refine (scanOnce_scans I I.recursionLimit (skipSpace s)).bind fun scanned _ => ?_
  exact post_bind.mpr (post_rejectIf.mpr ⟨fun _ => .inl rfl, fun _ => trivial⟩)

/-! ## The fields of a header -/

/-- `int(value)` overflows: an infinity, or a decimal fraction that rounds to one. -/
def PyJson.Infinite (I : Interp) : PyJson → Prop
  | .float (.infinity _) => True
  | .float (.decimal text) => I.truncate text = none
  | _ => False

section
variable (I : Interp) (payload : List (Str × PyJson)) (key : String)

def InfiniteAt : Prop := ∃ v, lookup payload key = some v ∧ v.Infinite I

/-- The member is there, and `int` of it is `n`. -/
def IntAt (n : Int) : Prop := ∃ v, lookup payload key = some v ∧ v.toInt I = .ok n

/-- The member is there, and holds the base64 of `data`. -/
def BytesAt (data : Bytes) : Prop := ∃ v, lookup payload key = some v ∧ v.decode64 = .ok data

end

/-- Classes of exceptions with all that `from_json_bytes` handles and none that it lets through. -/
structure Separates (S : PyError → Prop) : Prop where
  formatError : S .formatError
  caught : ∀ e, caught e → S e
  attributeError : ¬ S .attributeError
  overflowError : ¬ S .overflowError
  recursionError : ¬ S .recursionError

namespace Separates

variable {S : PyError → Prop} (h : Separates S) {I : Interp} {payload : List (Str × PyJson)}
  {key : String}
include h

theorem post_toInt (v : PyJson) {Q : Int → Prop} :
    Post S Q (v.toInt I) ↔ ¬ v.Infinite I ∧ ∀ n, v.toInt I = .ok n → Q n := by
  have hv : S .valueError := h.caught _ rfl
  have ht : S .typeError := h.caught _ rfl
  have ho := h.overflowError
  cases v with
  | null => simp [PyJson.toInt, PyJson.Infinite, ht]
  | bool b => simp [PyJson.toInt, PyJson.Infinite]
  | int n => simp [PyJson.toInt, PyJson.Infinite]
  | float x =>
    cases x with
    | nan => simp [PyJson.toInt, PyJson.Infinite, hv]
    | infinity negative => simp [PyJson.toInt, PyJson.Infinite, ho]
    | decimal text => simp [PyJson.toInt, PyJson.Infinite, post_okOr, ho]
  | str s => simp [PyJson.toInt, PyJson.Infinite, post_okOr, hv]
  | list items => simp [PyJson.toInt, PyJson.Infinite, ht]
  | dict members => simp [PyJson.toInt, PyJson.Infinite, ht]

theorem post_decode64 (v : PyJson) {Q : Bytes → Prop} :
    Post S Q v.decode64 ↔ ∀ data, v.decode64 = .ok data → Q data := by
  have hends : Post S (fun _ => True) v.decode64 := by
    cases v with
    | str s => exact (b64decode_valueOnly s).mono (fun e he => h.caught e (he ▸ rfl)) fun _ ht => ht
    | _ => exact h.caught .typeError rfl
  rw [post_iff]
  exact and_iff_right hends

theorem post_item {Q : PyJson → Prop} :
    Post S Q (item payload key) ↔ ∀ v, lookup payload key = some v → Q v := by
  unfold item
  rw [post_okOr]
  exact and_iff_right fun _ => h.caught .keyError rfl

theorem post_int {Q : Int → Prop} :
    Post S (fun v => Post S Q (v.toInt I)) (item payload key) ↔
      ¬ InfiniteAt I payload key ∧ ∀ n, IntAt I payload key n → Q n := by
  rw [h.post_item]
  simp only [h.post_toInt]
  refine ⟨?_, ?_⟩
  · intro hall
    refine ⟨?_, ?_⟩
    · rintro ⟨v, hv, hinf⟩
      exact (hall v hv).1 hinf
    · rintro n ⟨v, hv, hn⟩
      exact (hall v hv).2 n hn
  · rintro ⟨hfinite, hall⟩ v hv
    exact ⟨fun hinf => hfinite ⟨v, hv, hinf⟩, fun n hn => hall n ⟨v, hv, hn⟩⟩

/-- An absent member counts as `-1`. -/
theorem post_int_default {Q : Int → Prop} (hdefault : Q (-1)) :
    Post S Q (((lookup payload key).getD (.int (-1))).toInt I) ↔
      ¬ InfiniteAt I payload key ∧ ∀ n, IntAt I payload key n → Q n := by
  rw [h.post_toInt]
  unfold InfiniteAt IntAt
  cases lookup payload key with
  | none => simp [PyJson.toInt, PyJson.Infinite, hdefault]
  | some v => simp

theorem post_bytes {Q : Bytes → Prop} :
    Post S (fun v => Post S Q v.decode64) (item payload key) ↔
      ∀ data, BytesAt payload key data → Q data := by
  rw [h.post_item]
  simp only [h.post_decode64]
  refine ⟨?_, ?_⟩
  · rintro hall data ⟨v, hv, hdata⟩
    exact hall v hv data hdata
  · intro hall v hv data hdata
    exact hall data ⟨v, hv, hdata⟩

end Separates

/-! ## from_json_bytes -/

/-- A member that `int` reads is infinite, and everything checked before it passes. -/
def Overflows (I : Interp) (payload : List (Str × PyJson)) : Prop :=
  InfiniteAt I payload "version" ∨ (∃ n ∈ supportedVersions, IntAt I payload "version" n) ∧
    (InfiniteAt I payload "block_bytes" ∨ IntAt I payload "block_bytes" blockBytes ∧
      (InfiniteAt I payload "rounds" ∨ IntAt I payload "rounds" rounds ∧
        (∃ salt nonce, BytesAt payload "salt" salt ∧ BytesAt payload "nonce" nonce ∧
          salt.length = saltBytes ∧ nonce.length = nonceBytes) ∧
        (InfiniteAt I payload "original_length" ∨ (∃ n, IntAt I payload "original_length" n) ∧
          InfiniteAt I payload "iterations")))

/-- The bytes on which `from_json_bytes` raises what its `except` clause does not list. -/
inductive HeaderEscapes (I : Interp) (data : Bytes) : Prop where
  | deep {text : Str} (hdecode : decodeUtf8 data = .ok text)
    (hloads : loads I text = .err .recursionError)
  | noObject {text : Str} {value : PyJson} (hdecode : decodeUtf8 data = .ok text)
    (hloads : loads I text = .ok value) (hvalue : ∀ payload, value ≠ .dict payload)
  | infinite {text : Str} {payload : List (Str × PyJson)} (hdecode : decodeUtf8 data = .ok text)
    (hloads : loads I text = .ok (.dict payload))
    (hmagic : (lookup payload "magic").any (PyJson.isText (str "AMPCRYPT")))
    (hoverflows : Overflows I payload)

section
variable {S : PyError → Prop} (h : Separates S) {I : Interp}
include h

/-- The checks of a decoded object. -/
theorem Separates.post_payload {payload : List (Str × PyJson)} :
    Post S (fun _ => True) (do
      let version ← item payload "version"
      let version ← version.toInt I
      rejectIf (version ∉ supportedVersions) .formatError
      let size ← item payload "block_bytes"
      let size ← size.toInt I
      rejectIf (size ≠ blockBytes) .formatError
      let count ← ((lookup payload "rounds").getD (.int (-1))).toInt I
      rejectIf (count ≠ rounds) .formatError
      let salt ← item payload "salt"
      let salt ← salt.decode64
      let nonce ← item payload "nonce"
      let nonce ← nonce.decode64
      rejectIf (salt.length ≠ saltBytes ∨ nonce.length ≠ nonceBytes) .formatError
      let originalLength ← item payload "original_length"
      let originalLength ← originalLength.toInt I
      let iterations ← item payload "iterations"
      let iterations ← iterations.toInt I
      rejectIf (originalLength < 0 ∨ iterations < 1 ∨ iterations > maxIterations) .formatError
      .ok (Header.mk version iterations salt nonce originalLength)) ↔ ¬ Overflows I payload := by
  have hformat : S .formatError := h.formatError
  have hcheck {c : Prop} [Decidable c] {Q : Unit → Prop} :
      Post S Q (rejectIf c .formatError) ↔ (¬ c → Q ()) := by
    rw [post_rejectIf]
    exact and_iff_right fun _ => hformat
  have hrounds : ((-1 : Int) ≠ rounds) := by decide
  have hcount {R : Prop} :
      Post S (fun n => ¬ n ≠ (rounds : Int) → R)
        (((lookup payload "rounds").getD (.int (-1))).toInt I) ↔
      ¬ InfiniteAt I payload "rounds" ∧ (IntAt I payload "rounds" rounds → R) := by
    rw [h.post_int_default fun hne => absurd hrounds hne]
    simp only [ne_eq, not_not]
    refine and_congr_right fun _ => ?_
    exact ⟨fun hall hat => hall _ hat rfl, fun hall n hat hn => hall (hn ▸ hat)⟩
  simp only [post_bind, h.post_int, hcheck, hcount, h.post_bytes, post_ok]
  simp only [ne_eq, not_not, not_or]
  refine ⟨?_, ?_⟩
  · rintro ⟨hversion, hall⟩ hover
    rcases hover with hinf | ⟨⟨n, hn, hat⟩, hover⟩
    · exact hversion hinf
    obtain ⟨hsize, hall⟩ := hall n hat hn
    rcases hover with hinf | ⟨hat, hover⟩
    · exact hsize hinf
    obtain ⟨hrounds, hall⟩ := hall _ hat rfl
    rcases hover with hinf | ⟨hat, ⟨salt, nonce, hsalt, hnonce, hlengths⟩, hover⟩
    · exact hrounds hinf
    obtain ⟨hlength, hall⟩ := hall hat salt hsalt nonce hnonce hlengths
    rcases hover with hinf | ⟨⟨n, hat⟩, hinf⟩
    · exact hlength hinf
    · exact (hall n hat).1 hinf
  · intro hno
    refine ⟨fun hinf => hno (.inl hinf), fun version hversion hn => ?_⟩
    replace hno := fun hover => hno (.inr ⟨⟨version, hn, hversion⟩, hover⟩)
    refine ⟨fun hinf => hno (.inl hinf), fun size hsize hn => ?_⟩
    replace hno := fun hover => hno (.inr ⟨hn ▸ hsize, hover⟩)
    refine ⟨fun hinf => hno (.inl hinf), fun hcount salt hsalt nonce hnonce hn => ?_⟩
    replace hno := fun hover => hno (.inr ⟨hcount, ⟨salt, nonce, hsalt, hnonce, hn⟩, hover⟩)
    refine ⟨fun hinf => hno (.inl hinf), fun length hlength => ?_⟩
    exact ⟨fun hinf => hno (.inr ⟨⟨length, hlength⟩, hinf⟩), fun _ _ _ => trivial⟩

theorem Separates.post_readHeader {data : Bytes} :
    Post S (fun _ => True) (readHeader I data) ↔ ¬ HeaderEscapes I data := by
  have hvalue : S .valueError := h.caught _ rfl
  have hformat : S .formatError := h.formatError
  unfold readHeader
  rcases (decodeUtf8_valueOnly data).ends with ⟨text, htext, -⟩ | ⟨e, htext, rfl⟩
  · rw [htext, ok_bind]
    rcases (loads_post I text).ends with ⟨value, hread, -⟩ | ⟨e, hread, rfl | rfl⟩
    · rw [hread, ok_bind]
      by_cases hdict : ∀ payload, value ≠ .dict payload
      · have hraises : value.asDict = .err .attributeError := by
          cases value with
          | dict payload => exact absurd rfl (hdict payload)
          | _ => rfl
        rw [hraises]
        exact iff_of_false h.attributeError (not_not.mpr (.noObject htext hread hdict))
      · obtain ⟨payload, rfl⟩ := not_forall_not.mp hdict
        rw [PyJson.asDict, ok_bind, post_bind, post_rejectIf, h.post_payload, not_not,
          and_iff_right fun _ => hformat, ← not_and]
        refine not_congr ⟨fun hpayload => .infinite htext hread hpayload.1 hpayload.2, ?_⟩
        intro hescapes
        rcases hescapes with
          ⟨htext', hread'⟩ | ⟨htext', hread', hvalue'⟩ | ⟨htext', hread', hmagic, hover⟩
        · cases htext.symm.trans htext'
          cases hread.symm.trans hread'
        · cases htext.symm.trans htext'
          cases hread.symm.trans hread'
          exact absurd rfl (hvalue' _)
        · cases htext.symm.trans htext'
          cases hread.symm.trans hread'
          exact ⟨hmagic, hover⟩
    · rw [hread]
      refine iff_of_true hvalue ?_
      rintro (⟨htext', hread'⟩ | ⟨htext', hread', -⟩ | ⟨htext', hread', -, -⟩) <;>
        · cases htext.symm.trans htext'
          cases hread.symm.trans hread'
    · rw [hread]
      exact iff_of_false h.recursionError (not_not.mpr (.deep htext hread))
  · rw [htext]
    refine iff_of_true hvalue ?_
    rintro (⟨htext', -⟩ | ⟨htext', -, -⟩ | ⟨htext', -, -, -⟩) <;> cases htext.symm.trans htext'

end

/-- The `except` clause. -/
theorem post_fromJsonBytes {S : PyError → Prop} {Q : Header → Prop} {I : Interp} {data : Bytes} :
    Post S Q (fromJsonBytes I data) ↔
      Post (fun e => S (if caught e then .formatError else e)) Q (readHeader I data) := by
  unfold fromJsonBytes
  cases readHeader I data <;> rfl

/-- Handlers of the errors of the package that let the exceptions of a bad header through. -/
structure Handles (S : PyError → Prop) : Prop where
  formatError : S .formatError
  authenticationError : S .authenticationError
  attributeError : ¬ S .attributeError
  overflowError : ¬ S .overflowError
  recursionError : ¬ S .recursionError

theorem Handles.separates {S : PyError → Prop} (h : Handles S) :
    Separates fun e => S (if caught e then .formatError else e) where
  formatError := h.formatError
  caught e he := by
    rw [if_pos he]
    exact h.formatError
  attributeError := h.attributeError
  overflowError := h.overflowError
  recursionError := h.recursionError

/-- **What `from_json_bytes` lets through**, whatever else is handled. -/
theorem Handles.post_fromJsonBytes {S : PyError → Prop} (h : Handles S) {I : Interp} {data : Bytes} :
    Post S (fun _ => True) (fromJsonBytes I data) ↔ ¬ HeaderEscapes I data :=
  Py.post_fromJsonBytes.trans h.separates.post_readHeader

end Krcm.Py
