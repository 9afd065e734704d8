import Krcm.Base.Files

/-!
# Replacing files by renaming

Any number of writers share the files. A writer has at most one temporary: a
file it created, which the path of the temporary alone leads to. It writes to
that file, and lets go of it by renaming it over a target or by removing it. So
a file that no one holds never changes (`Held.frozen`), a path that is no
temporary reads as before, or as the file that was renamed over it
(`Held.reads`), and the paths that are new are temporaries and targets
(`Held.made`).
-/

namespace Base.Files

variable {Path ι : Type}

/-- The temporary of a writer: its path, and the file it leads to. -/
abbrev Holding (Path : Type) := Option (Path × Nat)

section
variable [DecidableEq Path]

/-- What a writer does to the files and to its temporary, where `Temp` are the paths of temporaries;
last, what it puts where. -/
inductive Act (Temp : Path → Prop) (s : Files Path) :
    Holding Path → Files Path → Holding Path → Option (Path × Bytes) → Prop where
  | rest (held : Holding Path) : Act Temp s held s held none
  | create {p : Path} (htemp : Temp p) (hfree : s.entry p = none) :
    Act Temp s none (s.create p) (some (p, s.next)) none
  | write {p : Path} {k : Nat} (pos : Nat) (chunk : Bytes) :
    Act Temp s (some (p, k)) (s.writeAt k pos chunk) (some (p, k)) none
  | install {p q : Path} {k : Nat} (htarget : ¬ Temp q) :
    Act Temp s (some (p, k)) (s.rename p q) none (some (q, s.content k))
  | discard {p : Path} {k : Nat} : Act Temp s (some (p, k)) (s.remove p) none none

end

/-- What holds of the files at all times. -/
structure Held (Temp : Path → Prop) (s : Files Path) (hold : ι → Holding Path) : Prop where
  temp : ∀ {i p k}, hold i = some (p, k) → Temp p
  sole : ∀ {i p k}, hold i = some (p, k) → s.Sole p k
  alone : ∀ {i j p q k}, hold i = some (p, k) → hold j = some (q, k) → i = j

namespace Act

variable [DecidableEq Path] {Temp : Path → Prop} {s s' : Files Path} {held held' : Holding Path}
  {put : Option (Path × Bytes)}

theorem next_le (h : Act Temp s held s' held' put) : s.next ≤ s'.next := by
  cases h with
  | rest => exact le_rfl
  | create => exact Nat.le_succ _
  | write => exact le_rfl
  | install => rw [next_rename]
  | discard => exact le_rfl

/-- A writer changes no file but its own. -/
theorem content_eq (h : Act Temp s held s' held' put) {k : Nat} (hk : k < s.next)
    (hother : ∀ p, held ≠ some (p, k)) : s'.content k = s.content k := by
  cases h with
  | rest => rfl
  | create => exact content_create_of_ne (Nat.ne_of_lt hk)
  | write => exact content_setContent_of_ne fun heq => hother _ (by rw [heq])
  | install => rw [content_rename]
  | discard => rfl

/-- A temporary is the one a writer had, or a fresh file. -/
theorem held_eq (h : Act Temp s held s' held' put) {p : Path} {k : Nat} (hp : held' = some (p, k)) :
    held = some (p, k) ∨ k = s.next := by
  cases h with
  | rest => exact .inl hp
  | create =>
    cases hp
    exact .inr rfl
  | write => exact .inl hp
  | install => cases hp
  | discard => cases hp

/-- A path stays that is no temporary or leads to a file, where the writer does not hold it and puts
nothing there. -/
theorem entry_eq (h : Act Temp s held s' held' put) {q : Path} (hq : Temp q → s.entry q ≠ none)
    (hheld : ∀ k, held ≠ some (q, k)) (hput : ∀ data, put ≠ some (q, data)) :
    s'.entry q = s.entry q := by
  cases h with
  | rest => rfl
  | create htemp hfree => exact entry_create_of_ne fun heq => hq (heq ▸ htemp) (heq ▸ hfree)
  | write => rfl
  | install =>
    exact entry_rename_of_ne (fun heq => hheld _ (by rw [heq])) fun heq => hput _ (by rw [heq])
  | discard => exact entry_remove_of_ne fun heq => hheld _ (by rw [heq])

end Act

namespace Held

variable {Temp : Path → Prop} {s s' : Files Path} {hold hold' : ι → Holding Path} {i : ι}

/-- Where no one has a temporary. -/
theorem start : Held Temp s (fun _ : ι => none) where
  temp h := by cases h
  sole h := by cases h
  alone h := by cases h

section
variable (h : Held Temp s hold)
include h

theorem file_lt {p : Path} {k : Nat} (hi : hold i = some (p, k)) : k < s.next :=
  s.entry_lt (h.sole hi).entry

/-- The file at a path that is no temporary is held by no one. -/
theorem unheld {p : Path} {k : Nat} (hp : ¬ Temp p) (hentry : s.entry p = some k) (j : ι) (q : Path) :
    hold j ≠ some (q, k) := fun hj => hp ((h.sole hj).only p hentry ▸ h.temp hj)

section
variable [DecidableEq Path] {p q : Path} {k : Nat} (hi : hold i = some (p, k)) (hq : ¬ Temp q)
include hi hq

theorem entry_rename_temp : (s.rename p q).entry p = none := by
  have hsole := h.sole hi
  have hqp : q ≠ p := fun heq => hq (heq ▸ h.temp hi)
  refine entry_rename_source ?_
  rw [hsole.entry]
  exact (hsole.ne hqp).symm

theorem entry_rename_target : (s.rename p q).entry q = some k := by
  have hpq : p ≠ q := fun heq => hq (heq ▸ h.temp hi)
  exact (Files.entry_rename_target hpq).trans (h.sole hi).entry

end

/-- Someone else changes the paths that are no temporaries, and brings files of its own there. -/
theorem beside (htemps : ∀ q, Temp q → s'.entry q = s.entry q)
    (hnew : ∀ q k, ¬ Temp q → s'.entry q = some k → s.entry q = some k ∨ k = s.next) :
    Held Temp s' hold where
  temp := h.temp
  alone := h.alone
  sole {i p k} hi := by
    have hsole := h.sole hi
    refine hsole.congr fun q => ?_
    by_cases hq : Temp q
    · exact .inl (htemps q hq)
    have hne : s.entry q ≠ some k := hsole.ne fun heq => hq (heq ▸ h.temp hi)
    refine .inr ⟨fun heq => ?_, hne⟩
    rcases hnew q k hq heq with hold | rfl
    · exact hne hold
    · exact absurd (h.file_lt hi) (Nat.lt_irrefl _)

section
variable (hothers : ∀ j, j ≠ i → hold' j = hold j)
include hothers

/-- A writer lets go of its file: the temporary is gone, and every other path leads where it led, or
is no temporary and leads to the file. -/
theorem letGo {p : Path} {k : Nat} (hi : hold i = some (p, k)) (hi' : hold' i = none)
    (hp : s'.entry p = none)
    (hentry : ∀ q, q ≠ p → s'.entry q = s.entry q ∨ ¬ Temp q ∧ s'.entry q = some k) :
    Held Temp s' hold' := by
  have hback {j : ι} {x : Path × Nat} (hj : hold' j = some x) : j ≠ i ∧ hold j = some x := by
    have hji : j ≠ i := by
      rintro rfl
      cases hi'.symm.trans hj
    exact ⟨hji, hothers j hji ▸ hj⟩
  refine ⟨fun hj => h.temp (hback hj).2, fun {j q k'} hj => ?_,
    fun hj hj' => h.alone (hback hj).2 (hback hj').2⟩
  obtain ⟨hji, hj⟩ := hback hj
  have hsole := h.sole hj
  have hk : k' ≠ k := fun heq => hji (h.alone hj (heq ▸ hi))
  have hqp : q ≠ p := by
    rintro rfl
    exact hk (hsole.unique (h.sole hi))
  refine hsole.congr fun r => ?_
  by_cases hr : r = p
  · right
    rw [hr, hp]
    exact ⟨nofun, hsole.ne hqp.symm⟩
  · rcases hentry r hr with hsame | ⟨htarget, hnew⟩
    · exact .inl hsame
    · right
      rw [hnew]
      exact ⟨fun heq => hk (Option.some.inj heq).symm, hsole.ne fun heq => htarget (heq ▸ h.temp hj)⟩

end

section
variable [DecidableEq Path] {held' : Holding Path} {put : Option (Path × Bytes)}
  (hact : Act Temp s (hold i) s' held' put)
include hact

/-- The file of another writer is left alone. -/
theorem others {j : ι} (hji : j ≠ i) {p : Path} {k : Nat} (hj : hold j = some (p, k)) :
    s'.content k = s.content k :=
  hact.content_eq (h.file_lt hj) fun _ hi => hji (h.alone hj hi)

/-- **What a writer leaves alone**: where it puts nothing, the paths that are no temporaries and those
that lead to a file it does not hold. -/
theorem keeps {q : Path} (hq : Temp q → s.entry q ≠ none ∧ ∀ k, hold i ≠ some (q, k))
    (hput : ∀ data, put ≠ some (q, data)) : s'.entry q = s.entry q ∧ s'.read q = s.read q := by
  have hheld (k : Nat) : hold i ≠ some (q, k) := fun hi => (hq (h.temp hi)).2 k hi
  have hentry := hact.entry_eq (fun htemp => (hq htemp).1) hheld hput
  refine ⟨hentry, read_congr hentry fun k hk => hact.content_eq (s.entry_lt hk) fun p hi => ?_⟩
  exact hheld k ((h.sole hi).only q hk ▸ hi)

/-- **What a writer brings**: a path that is there was there and no temporary of the writer, but for
the one it now holds and what it puts. -/
theorem made {q : Path} (hheld : ∀ k, held' ≠ some (q, k)) (hput : ∀ data, put ≠ some (q, data))
    (hq : s'.entry q ≠ none) : s.entry q ≠ none ∧ ∀ k, hold i ≠ some (q, k) := by
  generalize hi : hold i = held at hact
  cases hact with
  | rest => exact ⟨hq, hheld⟩
  | create =>
    rw [entry_create_of_ne fun heq => hheld _ (by rw [heq])] at hq
    exact ⟨hq, nofun⟩
  | write => exact ⟨hq, hheld⟩
  | @install p t k htarget =>
    have hqt : q ≠ t := fun heq => hput _ (by rw [heq])
    have hqp : q ≠ p := by
      rintro rfl
      exact hq (h.entry_rename_temp hi htarget)
    rw [entry_rename_of_ne hqp hqt] at hq
    refine ⟨hq, fun k' hk' => hqp ?_⟩
    cases hk'
    rfl
  | @discard p k =>
    have hqp : q ≠ p := fun heq => hq (heq ▸ entry_remove_self)
    rw [entry_remove_of_ne hqp] at hq
    refine ⟨hq, fun k' hk' => hqp ?_⟩
    cases hk'
    rfl

/-- What a writer puts at a path is read there. -/
theorem installs {q : Path} {data : Bytes} (hput : put = some (q, data)) : s'.read q = some data := by
  generalize hi : hold i = held at hact
  cases hact with
  | @install p _ k htarget =>
    cases hput
    rw [read_eq_some]
    exact ⟨k, h.entry_rename_target hi htarget, by rw [content_rename]⟩
  | _ => cases hput

/-- **A path that is no temporary** reads as before, or as what is put there. -/
theorem reads {q : Path} (hq : ¬ Temp q) :
    s'.read q = put.elim (s.read q) fun x => Function.update s.read x.1 (some x.2) q := by
  cases put with
  | none => exact (h.keeps hact (absurd · hq) nofun).2
  | some x =>
    show _ = Function.update s.read x.1 (some x.2) q
    by_cases hx : q = x.1
    · rw [hx, Function.update_self]
      exact h.installs hact rfl
    · rw [Function.update_of_ne hx]
      exact (h.keeps hact (absurd · hq) fun data heq => hx (by cases heq; rfl)).2

end

end

section
variable [DecidableEq Path] {put : Option (Path × Bytes)} (hact : Act Temp s (hold i) s' (hold' i) put)
include hact

/-- **A file that no one holds never changes**, and no one comes to hold it. -/
theorem frozen (hothers : ∀ j, j ≠ i → hold' j = hold j) {k : Nat} (hk : k < s.next)
    (hfree : ∀ j p, hold j ≠ some (p, k)) :
    k < s'.next ∧ (∀ j p, hold' j ≠ some (p, k)) ∧ s'.content k = s.content k := by
  refine ⟨Nat.lt_of_lt_of_le hk hact.next_le, fun j p hj => ?_, hact.content_eq hk (hfree i)⟩
  by_cases hji : j = i
  · subst hji
    rcases hact.held_eq hj with hold | hnew
    · exact hfree j p hold
    · omega
  · rw [hothers j hji] at hj
    exact hfree j p hj

/-- **What a writer does keeps the invariant.** -/
theorem act (h : Held Temp s hold) (hothers : ∀ j, j ≠ i → hold' j = hold j) :
    Held Temp s' hold' := by
  generalize hi : hold i = held, hi' : hold' i = held' at hact
  have hback {j : ι} {x : Path × Nat} (hj : hold' j = some x) :
      j = i ∧ held' = some x ∨ j ≠ i ∧ hold j = some x := by
    by_cases hji : j = i
    · exact .inl ⟨hji, hi' ▸ hji ▸ hj⟩
    · exact .inr ⟨hji, hothers j hji ▸ hj⟩
  have hsame (heq : held' = held) : hold' = hold := by
    funext j
    by_cases hji : j = i
    · rw [hji, hi, hi', heq]
    · exact hothers j hji
  cases hact with
  | rest => rwa [hsame rfl]
  | @create p htemp hfree =>
    refine ⟨fun {j q k} hj => ?_, fun {j q k} hj => ?_, fun {j j' q q' k} hj hj' => ?_⟩
    · rcases hback hj with ⟨-, hx⟩ | ⟨-, hx⟩
      · cases hx
        exact htemp
      · exact h.temp hx
    · rcases hback hj with ⟨-, hx⟩ | ⟨-, hx⟩
      · cases hx
        exact sole_create s p
      · refine (h.sole hx).congr fun r => ?_
        by_cases hr : r = p
        · right
          rw [hr, entry_create_self, hfree]
          exact ⟨fun heq => Nat.ne_of_gt (h.file_lt hx) (Option.some.inj heq), nofun⟩
        · exact .inl (entry_create_of_ne hr)
    · rcases hback hj with ⟨rfl, hx⟩ | ⟨-, hx⟩ <;> rcases hback hj' with ⟨rfl, hx'⟩ | ⟨-, hx'⟩
      · rfl
      · cases hx
        exact absurd (h.file_lt hx') (Nat.lt_irrefl _)
      · cases hx'
        exact absurd (h.file_lt hx) (Nat.lt_irrefl _)
      · exact h.alone hx hx'
  | write =>
    rw [hsame rfl]
    exact ⟨h.temp, fun hj => (h.sole hj).congr fun _ => .inl rfl, h.alone⟩
  | @install p t k htarget =>
    refine h.letGo hothers hi hi' (h.entry_rename_temp hi htarget) fun q hq => ?_
    by_cases hqt : q = t
    · subst hqt
      exact .inr ⟨htarget, h.entry_rename_target hi htarget⟩
    · exact .inl (entry_rename_of_ne hq hqt)
  | @discard p k =>
    exact h.letGo hothers hi hi' entry_remove_self fun q hq => .inl (entry_remove_of_ne hq)

end

end Held

end Base.Files
