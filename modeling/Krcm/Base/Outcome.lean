import Mathlib.Tactic.Common

/-!
# Outcomes of a run

A Rust call returns a value, returns an error, or panics; a model with fuelled
loops also runs out of fuel. `Outcome ε α` is these four. `bind` is the `?`
operator: everything that is not a value ends the run.

`addW`, `slice` and `index` are the partial operations of the language.
Overflowing additions panic when overflow checks are compiled in and wrap
otherwise; slices and indices out of range always panic.
-/

namespace Base

/-- The array of a list of known length. -/
def arrOfList {α : Type} {n : Nat} (l : List α) (h : l.length = n) : Vector α n :=
  ⟨l.toArray, by rw [List.size_toArray, h]⟩

@[simp] theorem toList_arrOfList {α : Type} {n : Nat} (l : List α) (h : l.length = n) :
    (arrOfList l h).toList = l := by
  simp [arrOfList]

inductive Outcome (ε α : Type) where
  | ok (a : α)
  | err (e : ε)
  | panic
  /-- A loop used up its fuel. -/
  | timeout
  deriving DecidableEq, Repr

namespace Outcome

variable {ε α β γ : Type}

protected def bind (x : Outcome ε α) (f : α → Outcome ε β) : Outcome ε β :=
  match x with
  | ok a => f a
  | err e => err e
  | panic => panic
  | timeout => timeout

instance : Monad (Outcome ε) where
  pure := ok
  bind := Outcome.bind

@[simp] theorem pure_eq (a : α) : (pure a : Outcome ε α) = ok a := rfl

@[simp] theorem ok_bind (a : α) (f : α → Outcome ε β) : (ok a >>= f) = f a := rfl

@[simp] theorem err_bind (e : ε) (f : α → Outcome ε β) : (err e >>= f) = err e := rfl

@[simp] theorem panic_bind (f : α → Outcome ε β) : (panic >>= f) = panic := rfl

@[simp] theorem timeout_bind (f : α → Outcome ε β) : (timeout >>= f) = timeout := rfl

@[simp] theorem bind_ok (x : Outcome ε α) : (x >>= fun a => ok a) = x := by
  cases x <;> rfl

instance : LawfulMonad (Outcome ε) := LawfulMonad.mk' _
  (by intro _ x; cases x <;> rfl) (by intros; rfl) (by intro _ _ _ x _ _; cases x <;> rfl)

/-- What stands behind a run is compared on what the run returns. -/
theorem bind_congr_ok {x : Outcome ε α} {f g : α → Outcome ε β} (h : ∀ a, x = ok a → f a = g a) :
    (x >>= f) = (x >>= g) := by
  cases x with
  | ok a => exact h a rfl
  | err e => rfl
  | panic => rfl
  | timeout => rfl

/-- A run returned a value iff its first step did and so did the rest. -/
theorem bind_eq_ok {x : Outcome ε α} {f : α → Outcome ε β} {b : β} :
    (x >>= f) = ok b ↔ ∃ a, x = ok a ∧ f a = ok b := by
  cases x <;> simp

/-- The run returned a value or an error. -/
def Settles : Outcome ε α → Prop
  | ok _ => True
  | err _ => True
  | panic => False
  | timeout => False

@[simp] theorem settles_ok (a : α) : Settles (ok a : Outcome ε α) := trivial

@[simp] theorem settles_err (e : ε) : Settles (err e : Outcome ε α) := trivial

@[simp] theorem not_settles_panic : ¬ Settles (panic : Outcome ε α) := id

@[simp] theorem not_settles_timeout : ¬ Settles (timeout : Outcome ε α) := id

/-- A run settles iff its first step does, and on a value the rest does. -/
theorem settles_bind_iff {x : Outcome ε α} {f : α → Outcome ε β} :
    Settles (x >>= f) ↔ Settles x ∧ ∀ a, x = ok a → Settles (f a) := by
  cases x <;> simp

theorem settles_bind {x : Outcome ε α} {f : α → Outcome ε β} (hx : Settles x)
    (hf : ∀ a, x = ok a → Settles (f a)) : Settles (x >>= f) :=
  settles_bind_iff.mpr ⟨hx, hf⟩

@[simp] theorem map_eq_ok {x : Outcome ε α} {f : α → β} {b : β} :
    (f <$> x) = ok b ↔ ∃ a, x = ok a ∧ f a = b := by
  cases x <;> simp [Functor.map, Outcome.bind]

@[simp] theorem map_ok (f : α → β) (a : α) : (f <$> (ok a : Outcome ε α)) = ok (f a) := rfl

/-! ## Early returns -/

/-- `if c { return Err(e) }`. -/
def rejectIf (c : Prop) [Decidable c] (e : ε) : Outcome ε Unit :=
  if c then err e else ok ()

@[simp] theorem rejectIf_eq_ok {c : Prop} [Decidable c] {e : ε} {u : Unit} :
    rejectIf c e = ok u ↔ ¬ c := by
  by_cases h : c <;> simp [rejectIf, h]

theorem rejectIf_false {c : Prop} [Decidable c] {e : ε} (h : ¬ c) : rejectIf c e = ok () := by
  simp [rejectIf, h]

theorem rejectIf_true {c : Prop} [Decidable c] {e : ε} (h : c) : rejectIf c e = err e := by
  simp [rejectIf, h]

/-- A check that fails and what follows it where it passes are the same error. -/
theorem rejectIf_bind_err {c : Prop} [Decidable c] {e : ε} {k : Unit → Outcome ε β}
    (h : ¬ c → k () = err e) : (rejectIf c e >>= k) = err e := by
  by_cases hc : c
  · rw [rejectIf_true hc, err_bind]
  · rw [rejectIf_false hc, ok_bind, h hc]

@[simp] theorem rejectIf_settles {c : Prop} [Decidable c] {e : ε} : Settles (rejectIf c e) := by
  by_cases h : c <;> simp [rejectIf, h]

/-- `opt.ok_or(e)?`. -/
def okOr (x : Option α) (e : ε) : Outcome ε α :=
  match x with
  | some a => ok a
  | none => err e

@[simp] theorem okOr_eq_ok {x : Option α} {e : ε} {a : α} : okOr x e = ok a ↔ x = some a := by
  cases x <;> simp [okOr]

@[simp] theorem okOr_settles {x : Option α} {e : ε} : Settles (okOr x e) := by
  cases x <;> simp [okOr]

/-! ## Postconditions -/

/-- The run returned a value with `Q` or an error with `S`. -/
def Post (S : ε → Prop) (Q : α → Prop) : Outcome ε α → Prop
  | ok a => Q a
  | err e => S e
  | panic => False
  | timeout => False

section
variable {S S' : ε → Prop} {Q Q' : α → Prop}

@[simp] theorem post_ok {a : α} : Post S Q (ok a) ↔ Q a := Iff.rfl

@[simp] theorem post_err {e : ε} : Post S Q (err e) ↔ S e := Iff.rfl

@[simp] theorem not_post_panic : ¬ Post S Q panic := id

@[simp] theorem not_post_timeout : ¬ Post S Q timeout := id

/-- The weakest precondition of a sequence. -/
theorem post_bind {x : Outcome ε α} {f : α → Outcome ε β} {R : β → Prop} :
    Post S R (x >>= f) ↔ Post S (fun a => Post S R (f a)) x := by
  cases x <;> rfl

theorem Post.mono {x : Outcome ε α} (h : Post S Q x) (hS : ∀ e, S e → S' e) (hQ : ∀ a, Q a → Q' a) :
    Post S' Q' x := by
  cases x with
  | ok a => exact hQ a h
  | err e => exact hS e h
  | panic => exact h
  | timeout => exact h

theorem Post.bind {x : Outcome ε α} {f : α → Outcome ε β} {R : β → Prop} (h : Post S Q x)
    (hf : ∀ a, Q a → Post S R (f a)) : Post S R (x >>= f) :=
  post_bind.mpr (h.mono (fun _ he => he) hf)

/-- How a run that meets its postcondition ends. -/
theorem Post.ends {x : Outcome ε α} (h : Post S Q x) :
    (∃ a, x = ok a ∧ Q a) ∨ ∃ e, x = err e ∧ S e := by
  cases x with
  | ok a => exact .inl ⟨a, rfl, h⟩
  | err e => exact .inr ⟨e, rfl, h⟩
  | panic => exact h.elim
  | timeout => exact h.elim

/-- Splitting a run at its value. -/
theorem post_iff {x : Outcome ε α} :
    Post S Q x ↔ Post S (fun _ => True) x ∧ ∀ a, x = ok a → Q a := by
  cases x <;> simp

theorem post_rejectIf {c : Prop} [Decidable c] {e : ε} {R : Unit → Prop} :
    Post S R (rejectIf c e) ↔ (c → S e) ∧ (¬ c → R ()) := by
  by_cases h : c <;> simp [rejectIf, h]

theorem post_okOr {x : Option α} {e : ε} :
    Post S Q (okOr x e) ↔ (x = none → S e) ∧ ∀ a, x = some a → Q a := by
  cases x <;> simp [okOr]

end

/-! ## Machine arithmetic -/

/-- Addition below the bound `w`: past it, a panic under overflow checks and a wrap without. -/
def addW (checks : Bool) (w a b : Nat) : Outcome ε Nat :=
  if a + b < w then ok (a + b) else if checks then panic else ok ((a + b) % w)

theorem addW_ok {checks : Bool} {w a b : Nat} (h : a + b < w) :
    (addW checks w a b : Outcome ε Nat) = ok (a + b) := if_pos h

theorem addW_checked_panic {w a b : Nat} (h : w ≤ a + b) :
    (addW true w a b : Outcome ε Nat) = panic := by
  simp [addW, Nat.not_lt.mpr h]

theorem addW_wrap {w a b : Nat} (h : w ≤ a + b) :
    (addW false w a b : Outcome ε Nat) = ok ((a + b) % w) := by
  simp [addW, Nat.not_lt.mpr h]

/-- A sum that came out is the true one or, without overflow checks, the wrapped one. -/
theorem addW_cases {checks : Bool} {w a b c : Nat} (h : (addW checks w a b : Outcome ε Nat) = ok c) :
    (a + b < w ∧ c = a + b) ∨ (w ≤ a + b ∧ c = (a + b) % w) := by
  unfold addW at h
  split at h
  · next hlt => exact .inl ⟨hlt, by cases h; rfl⟩
  · next hge =>
    split at h
    · cases h
    · exact .inr ⟨by omega, by cases h; rfl⟩

/-! ## Slices -/

/-- `l[a..b]`. -/
def slice (l : List α) (a b : Nat) : Outcome ε (List α) :=
  if a ≤ b ∧ b ≤ l.length then ok ((l.drop a).take (b - a)) else panic

/-- `l[a..a + n]` copied into an array. -/
def sliceVec (l : List α) (a n : Nat) : Outcome ε (Vector α n) :=
  if h : a + n ≤ l.length then ok ⟨((l.drop a).take n).toArray, by simp; omega⟩ else panic

/-- `out.copy_from_slice(l)` into a fresh array. -/
def copyFromSlice (n : Nat) (l : List α) : Outcome ε (Vector α n) :=
  if h : l.length = n then ok (arrOfList l h) else panic

/-- `l[i]`. -/
def index (l : List α) (i : Nat) : Outcome ε α :=
  match l[i]? with
  | some a => ok a
  | none => panic

theorem slice_ok {l : List α} {a b : Nat} (h1 : a ≤ b) (h2 : b ≤ l.length) :
    (slice l a b : Outcome ε (List α)) = ok ((l.drop a).take (b - a)) := if_pos ⟨h1, h2⟩

theorem slice_panic {l : List α} {a b : Nat} (h : ¬ (a ≤ b ∧ b ≤ l.length)) :
    (slice l a b : Outcome ε (List α)) = panic := if_neg h

/-- A slice that came out is the middle of a three-way split. -/
theorem slice_eq_ok {l m : List α} {a b : Nat} :
    (slice l a b : Outcome ε (List α)) = ok m ↔
      ∃ p s, l = p ++ (m ++ s) ∧ p.length = a ∧ b = a + m.length := by
  constructor
  · intro h
    unfold slice at h
    split at h
    · next hab =>
      obtain ⟨h1, h2⟩ := hab
      cases h
      refine ⟨l.take a, l.drop b, ?_, by simp; omega, by simp; omega⟩
      have hb : l.drop b = (l.drop a).drop (b - a) := by
        rw [List.drop_drop, show a + (b - a) = b by omega]
      rw [hb, List.take_append_drop, List.take_append_drop]
    · cases h
  · rintro ⟨p, s, rfl, rfl, rfl⟩
    rw [slice_ok (by omega) (by simp)]
    simp

/-- Reading the middle of a three-way split. -/
theorem slice_mid {l p m s : List α} {a b : Nat} (hl : l = p ++ (m ++ s)) (ha : p.length = a)
    (hb : b = a + m.length) : (slice l a b : Outcome ε (List α)) = ok m :=
  slice_eq_ok.mpr ⟨p, s, hl, ha, hb⟩

theorem slice_bounds {l m : List α} {a b : Nat} (h : (slice l a b : Outcome ε (List α)) = ok m) :
    a ≤ b ∧ b ≤ l.length ∧ m.length = b - a := by
  obtain ⟨p, s, rfl, rfl, rfl⟩ := slice_eq_ok.mp h
  simp

/-- Adjacent slices join. -/
theorem slice_append {l m n : List α} {a b c : Nat} (h1 : (slice l a b : Outcome ε (List α)) = ok m)
    (h2 : (slice l b c : Outcome ε (List α)) = ok n) :
    (slice l a c : Outcome ε (List α)) = ok (m ++ n) := by
  obtain ⟨p, s, hl, hp, hb⟩ := slice_eq_ok.mp h1
  obtain ⟨q, t, hl', hq, hc⟩ := slice_eq_ok.mp h2
  have hsplit : (p ++ m) ++ s = q ++ (n ++ t) := by
    rw [← hl', hl, List.append_assoc]
  obtain ⟨-, hs⟩ := List.append_inj hsplit (by simp; omega)
  exact slice_mid (p := p) (s := t) (by rw [hl, hs]; simp) hp (by simp; omega)

/-- A concatenation is read piece by piece. -/
theorem slice_append_iff {l m n : List α} {a b : Nat} :
    (slice l a b : Outcome ε (List α)) = ok (m ++ n) ↔
      (slice l a (a + m.length) : Outcome ε (List α)) = ok m ∧
      (slice l (a + m.length) b : Outcome ε (List α)) = ok n := by
  refine ⟨fun h => ?_, fun ⟨h1, h2⟩ => slice_append h1 h2⟩
  obtain ⟨p, s, hl, hp, hb⟩ := slice_eq_ok.mp h
  rw [List.append_assoc] at hl
  exact ⟨slice_mid hl hp rfl,
    slice_mid (p := p ++ m) (s := s) (by rw [hl]; simp) (by simp [hp]) (by simp [hb, Nat.add_assoc])⟩

/-- Reading at the front is stripping a front. -/
theorem slice_zero_iff {l m : List α} {n : Nat} :
    (slice l 0 n : Outcome ε (List α)) = ok m ↔ n = m.length ∧ ∃ s, l = m ++ s := by
  rw [slice_eq_ok]
  constructor
  · rintro ⟨p, s, rfl, hp, hn⟩
    rw [List.length_eq_zero_iff.mp hp]
    exact ⟨by omega, s, rfl⟩
  · rintro ⟨rfl, s, rfl⟩
    exact ⟨[], s, rfl, rfl, by omega⟩

theorem slice_all {l m : List α} {b : Nat} (h : (slice l 0 b : Outcome ε (List α)) = ok m)
    (hb : b = l.length) : m = l := by
  obtain ⟨p, s, rfl, hp, rfl⟩ := slice_eq_ok.mp h
  have hp : p = [] := List.length_eq_zero_iff.mp hp
  subst hp
  have hs : s = [] := List.length_eq_zero_iff.mp (by simpa using hb)
  simp [hs]

/-- An array that came out is a slice of that many elements. -/
theorem sliceVec_eq_ok {l : List α} {a n : Nat} {v : Vector α n} :
    (sliceVec l a n : Outcome ε (Vector α n)) = ok v ↔
      (slice l a (a + n) : Outcome ε (List α)) = ok v.toList := by
  unfold sliceVec slice
  by_cases h : a + n ≤ l.length
  · simp [h, ← Vector.toList_inj]
  · simp [h]

/-- An element that came out is a slice of one element. -/
theorem index_eq_ok {l : List α} {i : Nat} {a : α} :
    (index l i : Outcome ε α) = ok a ↔ (slice l i (i + 1) : Outcome ε (List α)) = ok [a] := by
  unfold index slice
  by_cases h : i < l.length
  · have hone : (l.drop i).take (i + 1 - i) = [l[i]] := by
      rw [Nat.add_sub_cancel_left, List.drop_eq_getElem_cons h, List.take_succ_cons, List.take_zero]
    rw [List.getElem?_eq_getElem h, if_pos ⟨Nat.le_succ i, h⟩, hone, ok.injEq, ok.injEq,
      List.singleton_inj]
  · rw [List.getElem?_eq_none (Nat.not_lt.mp h), if_neg fun hle => h hle.2]
    exact ⟨nofun, nofun⟩

theorem index_ok {l : List α} {i : Nat} (h : i < l.length) :
    ∃ a, (index l i : Outcome ε α) = ok a := by
  unfold index
  rw [List.getElem?_eq_getElem h]
  exact ⟨_, rfl⟩

theorem copyFromSlice_eq_ok {n : Nat} {l : List α} {v : Vector α n} :
    (copyFromSlice n l : Outcome ε (Vector α n)) = ok v ↔ l = v.toList := by
  unfold copyFromSlice
  by_cases h : l.length = n
  · simp [h, ← Vector.toList_inj]
  · rw [dif_neg h]
    refine ⟨nofun, fun hl => absurd ?_ h⟩
    rw [hl, Vector.length_toList]

theorem sliceVec_settles {l : List α} {a n : Nat} (h : a + n ≤ l.length) :
    Settles (sliceVec l a n : Outcome ε (Vector α n)) := by
  simp [sliceVec, h]

theorem slice_settles {l : List α} {a b : Nat} (h1 : a ≤ b) (h2 : b ≤ l.length) :
    Settles (slice l a b : Outcome ε (List α)) := by
  simp [slice_ok h1 h2]

theorem index_settles {l : List α} {i : Nat} (h : i < l.length) :
    Settles (index l i : Outcome ε α) := by
  simp [index, List.getElem?_eq_getElem h]

/-! ## Reading a concatenation -/

/-- Reading past what is in front. -/
theorem slice_skip {p l : List α} {a b : Nat} (h : p.length ≤ a) (hab : a ≤ b) :
    (slice (p ++ l) a b : Outcome ε (List α)) = slice l (a - p.length) (b - p.length) := by
  have hlen : (p ++ l).length = p.length + l.length := List.length_append
  unfold slice
  by_cases hb : b ≤ (p ++ l).length
  · rw [if_pos ⟨hab, hb⟩, if_pos ⟨by omega, by omega⟩, List.drop_append, List.drop_eq_nil_of_le h,
      List.nil_append, Nat.sub_sub_sub_cancel_right h]
  · rw [if_neg (by omega), if_neg (by omega)]

theorem slice_head {m s : List α} {n : Nat} (h : m.length = n) :
    (slice (m ++ s) 0 n : Outcome ε (List α)) = ok m := by
  subst h; simp [slice]

theorem sliceVec_skip {p l : List α} {a n : Nat} (h : p.length ≤ a) :
    (sliceVec (p ++ l) a n : Outcome ε (Vector α n)) = sliceVec l (a - p.length) n := by
  have hlen : (p ++ l).length = p.length + l.length := List.length_append
  unfold sliceVec
  by_cases hb : a + n ≤ (p ++ l).length
  · rw [dif_pos hb, dif_pos (by omega)]
    simp [List.drop_append, List.drop_eq_nil_of_le h]
  · rw [dif_neg hb, dif_neg (by omega)]

theorem sliceVec_head {n : Nat} (v : Vector α n) (s : List α) :
    (sliceVec (v.toList ++ s) 0 n : Outcome ε (Vector α n)) = ok v := by
  rw [sliceVec_eq_ok, Nat.zero_add, slice_head (by simp)]

theorem index_skip {p l : List α} {i : Nat} (h : p.length ≤ i) :
    (index (p ++ l) i : Outcome ε α) = index l (i - p.length) := by
  rw [index, index, List.getElem?_append_right h]

theorem slice_cons (x : α) (l : List α) (a b : Nat) :
    (slice (x :: l) (a + 1) (b + 1) : Outcome ε (List α)) = slice l a b := by
  simp [slice]

theorem sliceVec_cons (x : α) (l : List α) (a n : Nat) :
    (sliceVec (x :: l) (a + 1) n : Outcome ε (Vector α n)) = sliceVec l a n := by
  simp [sliceVec, Nat.add_right_comm a 1 n]

theorem index_cons (x : α) (l : List α) (i : Nat) :
    (index (x :: l) (i + 1) : Outcome ε α) = index l i := by
  simp [index]

theorem index_head (a : α) (l : List α) : (index (a :: l) 0 : Outcome ε α) = ok a := by
  simp [index]

end Outcome

end Base
