import Krcm.Cli.AtomicWrite

/-!
# atomic_write beside another process

The calls of `atomic_write` while another process puts files at the output
path, edits them and removes them. Without `--force` a call looks for a file
there before it starts, and its rename replaces whatever has come since:
`overwrites_iff` says when what stands at the output survives a call.
-/

namespace Krcm.Cli

open Base Files

variable {Dir : Type} [DecidableEq Dir]

/-- What another process does at the output path. -/
inductive OtherStep (out : Output Dir) (s : FileSystem Dir) : FileSystem Dir → Prop where
  | put (data : Bytes) : OtherStep out s ((s.create out.path).setContent s.next data)
  | edit {file : Nat} (h : s.entry out.path = some file) (data : Bytes) :
    OtherStep out s (s.setContent file data)
  | remove : OtherStep out s (s.remove out.path)

section
variable {ι : Type} (out : Output Dir) (req : ι → Request)

/-- A call makes a step, or the other process does. -/
def OpenStep (a : Calls Dir ι) : Option ι → Calls Dir ι → Prop
  | some i, b => Step out req a i b
  | none, b => OtherStep out a.shared b.shared ∧ b.own = a.own

abbrev OpenRun (files : FileSystem Dir) (moves : List (Move (Calls Dir ι) (Option ι)))
    (t : Calls Dir ι) : Prop :=
  Trace (OpenStep out req) ⟨files, fun _ => .start⟩ moves t

end

variable {ι : Type} {out : Output Dir} {req : ι → Request} {files : FileSystem Dir}
  {a b : Calls Dir ι}

/-- The other process touches no temporary. -/
theorem OtherStep.keeps {s s' : FileSystem Dir} (h : OtherStep out s s') :
    s.next ≤ s'.next ∧ (∀ p, p ≠ out.path → s'.entry p = s.entry p) ∧
      (∀ file, s'.entry out.path = some file → s.entry out.path = some file ∨ file = s.next) ∧
      ∀ file, file < s.next → s.entry out.path ≠ some file → s'.content file = s.content file := by
  cases h with
  | put data =>
    refine ⟨Nat.le_succ _, fun p hp => Files.entry_create_of_ne hp, fun file hfile => ?_,
      fun file hlt _ => ?_⟩
    · rw [Files.entry_setContent, Files.entry_create_self] at hfile
      exact .inr (Option.some.inj hfile).symm
    · rw [Files.content_setContent_of_ne (by omega), Files.content_create_of_ne (by omega)]
  | edit hfile data =>
    refine ⟨le_rfl, fun _ _ => rfl, fun _ h => .inl h, fun file' _ hne => ?_⟩
    exact Files.content_setContent_of_ne fun heq => hne (heq ▸ hfile)
  | remove =>
    refine ⟨le_rfl, fun p hp => Files.entry_remove_of_ne hp, fun file hfile => ?_, fun _ _ _ => rfl⟩
    rw [Files.entry_remove_self] at hfile
    cases hfile

theorem Inv.other (h : Inv out req files a) (hother : OtherStep out a.shared b.shared)
    (hown : b.own = a.own) : Inv out req files b := by
  obtain ⟨hnext, hentry, hpath, hcontent⟩ := hother.keeps
  have htemps (q : Dir × Bytes) (hq : out.IsTmpPath q) : b.shared.entry q = a.shared.entry q :=
    hentry q fun heq => out.not_isTmpPath (heq ▸ hq)
  have hnew (q : Dir × Bytes) (k : Nat) (_ : ¬ out.IsTmpPath q) (hk : b.shared.entry q = some k) :
      a.shared.entry q = some k ∨ k = a.shared.next := by
    by_cases hq : q = out.path
    · rw [hq] at hk ⊢
      exact hpath k hk
    · exact .inl (hentry q hq ▸ hk)
  refine ⟨hown ▸ h.held.beside htemps hnew, h.next.trans hnext, hown ▸ h.fresh, ?_, ?_, ?_⟩
  · intro p hp hfile
    rw [hentry p hp, h.entry p hp hfile]
  · intro p hp
    rw [hown]
    by_cases heq : p = out.path
    · exact .inr (.inl heq)
    · exact h.made p (hentry p heq ▸ hp)
  · intro i
    rw [hown]
    refine (h.written i).congr fun p file hi => hcontent file (h.held.file_lt hi) fun heq => ?_
    exact h.held.unheld out.not_isTmpPath heq i p hi

theorem Inv.openStep (h : Inv out req files a) {actor : Option ι}
    (hstep : OpenStep out req a actor b) : Inv out req files b := by
  cases actor with
  | some i => exact h.step hstep
  | none => exact h.other hstep.1 hstep.2

namespace OpenRun

variable {moves : List (Move (Calls Dir ι) (Option ι))} {t : Calls Dir ι}

theorem inv (h : OpenRun out req files moves t) : Inv out req files t :=
  h.invariant (fun _ _ _ ha hstep => ha.openStep hstep) (.start out req files)

theorem inv_before (h : OpenRun out req files moves t) {m : Move (Calls Dir ι) (Option ι)}
    (hm : m ∈ moves) : Inv out req files m.before ∧ OpenStep out req m.before m.actor m.after :=
  h.invariant_before (fun _ _ _ ha hstep => ha.openStep hstep) (.start out req files) hm

theorem next [DecidableEq ι] (h : OpenRun out req files moves a) (i : ι) {shared : FileSystem Dir}
    {c : Call} (hstep : CallStep out (req i) (a.shared, a.own i) (shared, c)) :
    OpenRun out req files (⟨a, some i, ⟨shared, Function.update a.own i c⟩⟩ :: moves)
      ⟨shared, Function.update a.own i c⟩ :=
  .move h (Parties.step_update hstep)

theorem other (h : OpenRun out req files moves a) {shared : FileSystem Dir}
    (hstep : OtherStep out a.shared shared) :
    OpenRun out req files (⟨a, none, ⟨shared, a.own⟩⟩ :: moves) ⟨shared, a.own⟩ :=
  .move h ⟨hstep, rfl⟩

end OpenRun

/-! ## What survives a call -/

/-- The move is the rename of a call. -/
structure IsRename (m : Move (Calls Dir ι) (Option ι)) (i : ι) : Prop where
  actor : m.actor = some i
  before : ∃ suffix file, m.before.own i = .synced suffix file
  after : m.after.own i = .renamed

/-- A rename finds the output free, or holding what it installs. -/
def FindsFree (out : Output Dir) (req : ι → Request) (i : ι) (a : Calls Dir ι) : Prop :=
  a.shared.entry out.path = none ∨ a.shared.read out.path = some (req i).data

/-- A call that is no rename leaves the output, and a rename puts its data there. -/
theorem Inv.keeps_or_renames (h : Inv out req files a) {i : ι} (hstep : Step out req a i b) :
    b.shared.read out.path = a.shared.read out.path ∨
      IsRename ⟨a, some i, b⟩ i ∧ b.shared.read out.path = some (req i).data := by
  by_cases hinstall : (b.own i).Installed → (a.own i).Installed
  · exact .inl (h.keeps hstep hinstall (.inl rfl)).2
  · rw [Classical.not_imp] at hinstall
    obtain ⟨hafter, suffix, file, hbefore, -, hread⟩ := h.installs hstep hinstall.2 hinstall.1
    exact .inr ⟨⟨rfl, ⟨suffix, file, hbefore⟩, hafter⟩, hread⟩

/-- **When a call without `--force` overwrites nothing**: in a run beside another process, all that
stands at the output survives the steps of the call iff its rename finds the output free, or holding
the very data. A call that finds a file before it starts returns an error, and no new path is left but
the output and the temporaries of calls under way. -/
theorem overwrites_iff (out : Output Dir) (req : ι → Request) (files : FileSystem Dir)
    (moves : List (Move (Calls Dir ι) (Option ι))) (t : Calls Dir ι)
    (h : OpenRun out req files moves t) (i : ι) (hforce : (req i).force = false) :
    ((∀ m ∈ moves, m.actor = some i → ∀ data, m.before.shared.read out.path = some data →
        m.after.shared.read out.path = some data) ↔
      ∀ m ∈ moves, IsRename m i → FindsFree out req i m.before) ∧
    (∀ m ∈ moves, m.actor = some i → m.before.own i = .start →
      m.before.shared.entry out.path ≠ none → m.after.own i = .returnedErr) ∧
    ∀ p, t.shared.entry p ≠ none → files.entry p ≠ none ∨ p = out.path ∨
      ∃ j suffix file, (t.own j).temporary = some (suffix, file) ∧ p = out.tmpPath suffix := by
  refine ⟨⟨fun hkept m hm hrename => ?_, fun hfree m hm hactor data hdata => ?_⟩,
    fun m hm hactor hstart hexists => ?_, fun p hp => h.inv.made_temporary hp⟩
  · obtain ⟨hinv, hstep⟩ := h.inv_before hm
    rw [hrename.actor] at hstep
    obtain ⟨suffix, file, hsynced⟩ := hrename.before
    obtain ⟨-, -, -, -, -, hread⟩ := hinv.installs hstep (by rw [hsynced]; exact id)
      (by rw [hrename.after]; trivial)
    cases hentry : m.before.shared.entry out.path with
    | none => exact .inl hentry
    | some k =>
      have hbefore : m.before.shared.read out.path = some (m.before.shared.content k) := by
        rw [Files.read_eq_some]
        exact ⟨k, hentry, rfl⟩
      have hafter := hkept m hm hrename.actor _ hbefore
      rw [hread] at hafter
      exact .inr (hbefore.trans hafter.symm)
  · obtain ⟨hinv, hstep⟩ := h.inv_before hm
    rw [hactor] at hstep
    rcases hinv.keeps_or_renames hstep with hkept | ⟨hrename, hread⟩
    · exact hkept.trans hdata
    · rcases hfree m hm ⟨hactor, hrename.before, hrename.after⟩ with hnone | hsame
      · unfold Files.read at hdata
        rw [hnone] at hdata
        cases hdata
      · rw [hread, ← hsame, hdata]
  · obtain ⟨-, hstep⟩ := h.inv_before hm
    rw [hactor] at hstep
    have hmoves : CallStep out (req i) (m.before.shared, m.before.own i)
        (m.after.shared, m.after.own i) := hstep.moves
    rw [hstart] at hmoves
    generalize m.after.own i = c, m.after.shared = s at hmoves ⊢
    cases hmoves with
    | refuse _ _ => rfl
    | pass hpass =>
      rcases hpass with hnone | htrue
      · exact absurd hnone hexists
      · rw [hforce] at htrue
        cases htrue

theorem overwrites_iff_early_file : ∃ moves t,
    OpenRun (⟨(), ascii "o"⟩ : Output Unit) (fun _ : Unit => ⟨[1, 2], false⟩) (.empty _) moves t ∧
      t.own () = .returnedErr ∧ t.shared.read ((), ascii "o") = some [9] ∧
      ∀ m ∈ moves, m.actor = some () → m.before.own () = .start →
        m.before.shared.entry ((), ascii "o") ≠ none → m.after.own () = .returnedErr := by
  have begun : OpenRun (⟨(), ascii "o"⟩ : Output Unit) (fun _ : Unit => ⟨[1, 2], false⟩)
    (.empty _) [] ⟨.empty _, fun _ => .start⟩ := .start
  have taken := begun.other (.put [9])
  have refused := taken.next () (.refuse (Option.some_ne_none 0) rfl)
  obtain ⟨-, hrefuses, -⟩ := overwrites_iff _ _ _ _ _ refused () rfl
  exact ⟨_, _, refused, rfl, rfl, hrefuses⟩

/-- A file that comes between the check and the rename is lost. -/
theorem overwrites_late_file : ∃ moves t,
    OpenRun (⟨(), ascii "o"⟩ : Output Unit) (fun _ : Unit => ⟨[1, 2], false⟩) (.empty _) moves t ∧
      t.own () = .returnedOk ∧ ∃ m ∈ moves, m.actor = some () ∧
        m.before.shared.read ((), ascii "o") = some [9] ∧
        m.after.shared.read ((), ascii "o") = some [1, 2] := by
  have begun : OpenRun (⟨(), ascii "o"⟩ : Output Unit) (fun _ : Unit => ⟨[1, 2], false⟩)
    (.empty _) [] ⟨.empty _, fun _ => .start⟩ := .start
  have named := begun.next () (.pass (.inl rfl))
  have created := named.next () (@CallStep.create _ _ _ _ _ 0 rfl)
  have written := created.next () (@CallStep.write _ _ _ _ _ 0 0 0 2 (by decide) (by decide))
  have flushed := written.next () (@CallStep.flush _ _ _ _ _ 0 0)
  have synced := flushed.next () (@CallStep.sync _ _ _ _ _ 0 0)
  have taken := synced.other (.put [9])
  have hthere := (@Held.sole _ _ _ _ _ taken.inv.held () _ 0 rfl).entry
  have renamed := taken.next () (@CallStep.rename _ _ _ _ _ 0 0
    (by rw [hthere]; exact Option.some_ne_none 0))
  have returned := renamed.next () .finish
  obtain ⟨hinv, hstep⟩ := renamed.inv_before List.mem_cons_self
  obtain ⟨-, -, -, -, -, hread⟩ := hinv.installs hstep id trivial
  exact ⟨_, _, returned, rfl, _, List.mem_cons_of_mem _ List.mem_cons_self, rfl, rfl, hread⟩

end Krcm.Cli
