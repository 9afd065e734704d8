import Krcm.Base.Bytes
import Mathlib.Logic.Function.Basic

/-!
# Files

A directory tree as a map from paths to files and of files to contents, so that
an open file survives the renaming and the removal of its path. A file that is
created is a fresh one: `next` is above all that paths lead to.
-/

namespace Base

structure Files (Path : Type) where
  /-- The file of a path. -/
  entry : Path → Option Nat
  content : Nat → Bytes
  next : Nat
  entry_lt : ∀ {p k}, entry p = some k → k < next

/-- `l` with the chunk at an offset, zeros in between. -/
def overwrite (l : Bytes) (pos : Nat) (chunk : Bytes) : Bytes :=
  l.take pos ++ List.replicate (pos - l.length) 0 ++ chunk ++ l.drop (pos + chunk.length)

/-- A chunk behind what is there. -/
theorem overwrite_append {l chunk : Bytes} {pos : Nat} (h : pos = l.length) :
    overwrite l pos chunk = l ++ chunk := by
  subst h
  unfold overwrite
  rw [List.take_length, Nat.sub_self, List.drop_eq_nil_of_le (Nat.le_add_right _ _),
    List.append_nil, List.replicate_zero, List.append_nil]

namespace Files

variable {Path : Type}

/-- No file at all. -/
def empty (Path : Type) : Files Path where
  entry _ := none
  content _ := []
  next := 0
  entry_lt h := by cases h

/-- What stands at a path. -/
def read (s : Files Path) (p : Path) : Option Bytes := (s.entry p).map s.content

def setContent (s : Files Path) (k : Nat) (data : Bytes) : Files Path where
  entry := s.entry
  content := Function.update s.content k data
  next := s.next
  entry_lt := s.entry_lt

/-- Writing at an offset of an open file. -/
def writeAt (s : Files Path) (k pos : Nat) (chunk : Bytes) : Files Path :=
  s.setContent k (overwrite (s.content k) pos chunk)

/-- The path leads to the file, and no other path does. -/
structure Sole (s : Files Path) (p : Path) (k : Nat) : Prop where
  entry : s.entry p = some k
  only : ∀ q, s.entry q = some k → q = p

section
variable {s : Files Path} {p q : Path} {k : Nat} {data : Bytes}

theorem entry_ne_next (s : Files Path) (p : Path) : s.entry p ≠ some s.next :=
  fun h => Nat.lt_irrefl _ (s.entry_lt h)

@[simp] theorem entry_setContent : (s.setContent k data).entry = s.entry := rfl

@[simp] theorem next_setContent : (s.setContent k data).next = s.next := rfl

@[simp] theorem content_setContent_self : (s.setContent k data).content k = data :=
  Function.update_self ..

theorem content_setContent_of_ne {k' : Nat} (h : k' ≠ k) :
    (s.setContent k data).content k' = s.content k' := Function.update_of_ne h ..

theorem read_eq_some : s.read p = some data ↔ ∃ k, s.entry p = some k ∧ s.content k = data :=
  Option.map_eq_some_iff

/-- A path that leads to the same file of the same content reads the same. -/
theorem read_congr {s' : Files Path} (hentry : s'.entry p = s.entry p)
    (hcontent : ∀ k, s.entry p = some k → s'.content k = s.content k) : s'.read p = s.read p := by
  unfold read
  rw [hentry]
  cases h : s.entry p with
  | none => rfl
  | some k => exact congrArg some (hcontent k h)

theorem Sole.ne (h : s.Sole p k) (hq : q ≠ p) : s.entry q ≠ some k := fun h' => hq (h.only q h')

/-- Two files of one path are one. -/
theorem Sole.unique {k' : Nat} (h : s.Sole p k) (h' : s.Sole p k') : k = k' :=
  Option.some.inj (h.entry.symm.trans h'.entry)

/-- What is seen of an entry is seen of all that agree on it. -/
theorem Sole.congr {s' : Files Path} (h : s.Sole p k)
    (hentry : ∀ q, s'.entry q = s.entry q ∨ s'.entry q ≠ some k ∧ s.entry q ≠ some k) :
    s'.Sole p k where
  entry := by
    rcases hentry p with heq | ⟨-, hne⟩
    · rw [heq]
      exact h.entry
    · exact absurd h.entry hne
  only q hq := by
    rcases hentry q with heq | ⟨hne, -⟩
    · exact h.only q (heq ▸ hq)
    · exact absurd hq hne

end

/-! ## Operations on paths -/

variable [DecidableEq Path]

/-- A fresh empty file at a path. -/
def create (s : Files Path) (p : Path) : Files Path where
  entry := Function.update s.entry p (some s.next)
  content := Function.update s.content s.next []
  next := s.next + 1
  entry_lt {q k} h := by
    by_cases hq : q = p
    · rw [hq, Function.update_self] at h
      have hk : s.next = k := Option.some.inj h
      omega
    · rw [Function.update_of_ne hq] at h
      exact Nat.lt_succ_of_lt (s.entry_lt h)

/-- Opening for writing: the file of the path, emptied, or a fresh one. -/
def openTruncate (s : Files Path) (p : Path) : Files Path × Nat :=
  match s.entry p with
  | some k => (s.setContent k [], k)
  | none => (s.create p, s.next)

def remove (s : Files Path) (p : Path) : Files Path where
  entry := Function.update s.entry p none
  content := s.content
  next := s.next
  entry_lt {q k} h := by
    by_cases hq : q = p
    · rw [hq, Function.update_self] at h
      cases h
    · rw [Function.update_of_ne hq] at h
      exact s.entry_lt h

/-- `p` takes the place of `q`; two paths of one file stay as they are. -/
def rename (s : Files Path) (p q : Path) : Files Path :=
  if s.entry p = s.entry q then s
  else
    { entry := Function.update (Function.update s.entry q (s.entry p)) p none
      content := s.content
      next := s.next
      entry_lt := fun {r k} h => by
        by_cases hp : r = p
        · rw [hp, Function.update_self] at h
          cases h
        · rw [Function.update_of_ne hp] at h
          by_cases hq : r = q
          · rw [hq, Function.update_self] at h
            exact s.entry_lt h
          · rw [Function.update_of_ne hq] at h
            exact s.entry_lt h }

variable {s : Files Path} {p q : Path} {k : Nat}

@[simp] theorem entry_create_self : (s.create p).entry p = some s.next := Function.update_self ..

theorem entry_create_of_ne (h : q ≠ p) : (s.create p).entry q = s.entry q :=
  Function.update_of_ne h ..

@[simp] theorem content_create_self : (s.create p).content s.next = [] := Function.update_self ..

theorem content_create_of_ne (h : k ≠ s.next) : (s.create p).content k = s.content k :=
  Function.update_of_ne h ..

@[simp] theorem next_create : (s.create p).next = s.next + 1 := rfl

@[simp] theorem entry_remove_self : (s.remove p).entry p = none := Function.update_self ..

theorem entry_remove_of_ne (h : q ≠ p) : (s.remove p).entry q = s.entry q :=
  Function.update_of_ne h ..

@[simp] theorem content_remove : (s.remove p).content = s.content := rfl

@[simp] theorem next_remove : (s.remove p).next = s.next := rfl

@[simp] theorem content_rename : (s.rename p q).content = s.content := by
  unfold rename
  split <;> rfl

@[simp] theorem next_rename : (s.rename p q).next = s.next := by
  unfold rename
  split <;> rfl

theorem entry_rename_of_ne {r : Path} (hp : r ≠ p) (hq : r ≠ q) :
    (s.rename p q).entry r = s.entry r := by
  unfold rename
  split
  · rfl
  · show Function.update _ _ _ _ = _
    rw [Function.update_of_ne hp, Function.update_of_ne hq]

/-- The file leaves its old path. -/
theorem entry_rename_source (h : s.entry p ≠ s.entry q) : (s.rename p q).entry p = none := by
  unfold rename
  rw [if_neg h]
  exact Function.update_self ..

/-- The new path leads to the file. -/
theorem entry_rename_target (hpq : p ≠ q) : (s.rename p q).entry q = s.entry p := by
  unfold rename
  by_cases h : s.entry p = s.entry q
  · rw [if_pos h, h]
  · rw [if_neg h]
    show Function.update _ _ _ _ = _
    rw [Function.update_of_ne hpq.symm, Function.update_self]

/-- The file that is opened: the one of the path, or a fresh one. -/
theorem openTruncate_file (s : Files Path) (p : Path) :
    s.entry p = some (s.openTruncate p).2 ∨ (s.openTruncate p).2 = s.next := by
  unfold openTruncate
  cases h : s.entry p with
  | none => exact .inr rfl
  | some k => exact .inl rfl

@[simp] theorem entry_openTruncate_self :
    (s.openTruncate p).1.entry p = some (s.openTruncate p).2 := by
  unfold openTruncate
  cases h : s.entry p with
  | none => exact entry_create_self
  | some k => exact h

theorem entry_openTruncate_of_ne (h : q ≠ p) : (s.openTruncate p).1.entry q = s.entry q := by
  unfold openTruncate
  cases s.entry p with
  | none => exact entry_create_of_ne h
  | some k => rfl

@[simp] theorem content_openTruncate_self :
    (s.openTruncate p).1.content (s.openTruncate p).2 = [] := by
  unfold openTruncate
  cases s.entry p with
  | none => exact content_create_self
  | some k => exact content_setContent_self

theorem content_openTruncate_of_ne (h : k ≠ (s.openTruncate p).2) :
    (s.openTruncate p).1.content k = s.content k := by
  unfold openTruncate at h ⊢
  cases hp : s.entry p with
  | none =>
    rw [hp] at h
    exact content_create_of_ne h
  | some k' =>
    rw [hp] at h
    exact content_setContent_of_ne h

theorem sole_create (s : Files Path) (p : Path) : (s.create p).Sole p s.next where
  entry := entry_create_self
  only q h := by
    by_contra hq
    rw [entry_create_of_ne hq] at h
    exact s.entry_ne_next q h

/-! ## Paths that share their file with no other -/

def Alone (s : Files Path) (p : Path) : Prop := ∀ k, s.entry p = some k → s.Sole p k

omit [DecidableEq Path] in
theorem Alone.of_none (h : s.entry p = none) : s.Alone p := fun k hk => by cases h.symm.trans hk

omit [DecidableEq Path] in
/-- Entries decide. -/
theorem Alone.congr {s' : Files Path} (h : s.Alone p) (hentry : s'.entry = s.entry) :
    s'.Alone p :=
  fun k hk => ⟨hk, fun q hq => (h k (hentry ▸ hk)).only q (hentry ▸ hq)⟩

/-- Opening for writing shares no file. -/
theorem Alone.sole_openTruncate (h : s.Alone p) :
    (s.openTruncate p).1.Sole p (s.openTruncate p).2 := by
  unfold openTruncate
  cases hp : s.entry p with
  | none => exact sole_create s p
  | some k => exact ⟨hp, (h k hp).only⟩

theorem Alone.create (hq : s.Alone q) : (s.create p).Alone q := by
  intro k hk
  by_cases hqp : q = p
  · subst hqp
    obtain rfl := Option.some.inj (entry_create_self.symm.trans hk)
    exact sole_create s q
  · rw [entry_create_of_ne hqp] at hk
    refine (hq k hk).congr fun r => ?_
    by_cases hr : r = p
    · subst hr
      refine .inr ⟨?_, (hq k hk).ne (Ne.symm hqp)⟩
      rw [entry_create_self]
      exact fun hnext => s.entry_ne_next q (hnext ▸ hk)
    · exact .inl (entry_create_of_ne hr)

theorem Alone.openTruncate (hq : s.Alone q) : (s.openTruncate p).1.Alone q := by
  unfold Files.openTruncate
  cases s.entry p with
  | none => exact hq.create
  | some k => exact hq.congr rfl

theorem Alone.remove (hq : s.Alone q) : (s.remove p).Alone q := by
  intro k hk
  have hne : q ≠ p := by
    rintro rfl
    cases entry_remove_self.symm.trans hk
  rw [entry_remove_of_ne hne] at hk
  refine (hq k hk).congr fun r => ?_
  by_cases hr : r = p
  · subst hr
    exact .inr ⟨by rw [entry_remove_self]; exact nofun, (hq k hk).ne hne.symm⟩
  · exact .inl (entry_remove_of_ne hr)

theorem Alone.rename {r : Path} (h : s.Alone p) (hpr : p ≠ r) (hq : s.Alone q) :
    (s.rename p r).Alone q := by
  by_cases hsame : s.entry p = s.entry r
  · unfold Files.rename
    rw [if_pos hsame]
    exact hq
  intro k hk
  have hsource := entry_rename_source hsame
  have htarget : (s.rename p r).entry r = s.entry p := entry_rename_target hpr
  have hqp : q ≠ p := by
    rintro rfl
    cases hsource.symm.trans hk
  -- Behind the renaming one path less or another leads to a file.
  refine ⟨hk, fun x hx => ?_⟩
  have hxp : x ≠ p := by
    rintro rfl
    cases hsource.symm.trans hx
  by_cases hqr : q = r <;> by_cases hxr : x = r
  · rw [hxr, hqr]
  · rw [hqr, htarget] at hk
    rw [entry_rename_of_ne hxp hxr] at hx
    exact absurd ((h k hk).only x hx) hxp
  · rw [entry_rename_of_ne hqp hqr] at hk
    rw [hxr, htarget] at hx
    exact absurd ((hq k hk).only p hx).symm hqp
  · rw [entry_rename_of_ne hqp hqr] at hk
    rw [entry_rename_of_ne hxp hxr] at hx
    exact (hq k hk).only x hx

end Files

end Base
