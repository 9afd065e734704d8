import Krcm.Base.Replace
import Krcm.Base.Trace
import Krcm.Cli.AtomicWrite
import Krcm.Cli.Command

/-!
# Processes of the command

Calls of `krcm encrypt`, `krcm decrypt` and `krcm migrate` that share the files,
each with an input, an output and a password of its own. A process checks its
output, asks for the password, reads its input piece by piece, computes, and
ends with the calls of `atomic_write`; each of these is a step, between which
the other processes move, and each may fail. `Session` is the invariant of such
runs.
-/

namespace Krcm.Cli

open Base Outcome Files

/-- A call of the command, with what its user answers at the prompts. -/
structure Job (Dir : Type) where
  action : Action
  input : Dir × Bytes
  output : Output Dir
  force : Bool
  first : Option Bytes
  second : Option Bytes

def Job.password {Dir : Type} (job : Job Dir) : Krcm.Run Bytes :=
  readPassword job.action.confirms job.first job.second

/-- Where a process stands. -/
inductive Process where
  | start
  /-- The output is free, or may be replaced. -/
  | checked
  | opening (password : Bytes)
  | reading (password : Bytes) (file : Nat) (data : Bytes)
  | ready (password source : Bytes)
  /-- In `atomic_write`. -/
  | writing (password source result : Bytes) (call : Call)
  | failed (e : KrcmError)
  | panicked

variable {Dir : Type}

section
variable [DecidableEq Dir]

/-- The steps of `run`. -/
inductive ProcessStep (E : Env) (job : Job Dir) :
    FileSystem Dir × Process → FileSystem Dir × Process → Prop where
  -- `ensure_output_available`
  | refuse {s : FileSystem Dir} (hexists : s.entry job.output.path ≠ none)
    (hforce : job.force = false) : ProcessStep E job (s, .start) (s, .failed .io)
  | pass {s : FileSystem Dir} (h : s.entry job.output.path = none ∨ job.force = true) :
    ProcessStep E job (s, .start) (s, .checked)
  -- the version, and `read_password`
  | checkFails {s : FileSystem Dir} {e : KrcmError} (h : job.action.check = .err e) :
    ProcessStep E job (s, .checked) (s, .failed e)
  | ask {s : FileSystem Dir} {password : Bytes} (hcheck : job.action.check = .ok ())
    (h : job.password = .ok password) : ProcessStep E job (s, .checked) (s, .opening password)
  | askFails {s : FileSystem Dir} {e : KrcmError} (hcheck : job.action.check = .ok ())
    (h : job.password = .err e) : ProcessStep E job (s, .checked) (s, .failed e)
  -- `fs::read`, in pieces of any size
  | openInput {s : FileSystem Dir} {password : Bytes} {file : Nat} (h : s.entry job.input = some file) :
    ProcessStep E job (s, .opening password) (s, .reading password file [])
  | openFails {s : FileSystem Dir} {password : Bytes} :
    ProcessStep E job (s, .opening password) (s, .failed .io)
  | read {s : FileSystem Dir} {password data : Bytes} {file n : Nat} (hn : 0 < n)
    (hrest : data.length + n ≤ (s.content file).length) :
    ProcessStep E job (s, .reading password file data)
      (s, .reading password file (data ++ ((s.content file).drop data.length).take n))
  | readEnd {s : FileSystem Dir} {password data : Bytes} {file : Nat}
    (h : (s.content file).length ≤ data.length) :
    ProcessStep E job (s, .reading password file data) (s, .ready password data)
  | readFails {s : FileSystem Dir} {password data : Bytes} {file : Nat} :
    ProcessStep E job (s, .reading password file data) (s, .failed .io)
  -- the transformation, into a `Vec` of at most `isize::MAX` bytes
  | transform {s : FileSystem Dir} {password source result : Bytes} {drawn : Drawn}
    (h : job.action.transform E source password drawn = .ok result)
    (hfits : result.length < 2 ^ 63) :
    ProcessStep E job (s, .ready password source) (s, .writing password source result .start)
  | transformFails {s : FileSystem Dir} {password source : Bytes} {drawn : Drawn} {e : KrcmError}
    (h : job.action.transform E source password drawn = .err e) :
    ProcessStep E job (s, .ready password source) (s, .failed e)
  | transformPanics {s : FileSystem Dir} {password source : Bytes} {drawn : Drawn}
    (h : job.action.transform E source password drawn = .panic) :
    ProcessStep E job (s, .ready password source) (s, .panicked)
  | tooLarge {s : FileSystem Dir} {password source result : Bytes} {drawn : Drawn}
    (h : job.action.transform E source password drawn = .ok result)
    (hlarge : 2 ^ 63 ≤ result.length) :
    ProcessStep E job (s, .ready password source) (s, .panicked)
  -- `atomic_write`
  | write {s s' : FileSystem Dir} {password source result : Bytes} {c c' : Call}
    (h : CallStep job.output ⟨result, job.force⟩ (s, c) (s', c')) :
    ProcessStep E job (s, .writing password source result c) (s', .writing password source result c')

end

/-! ## What a process knows -/

namespace Process

/-- The temporary of a process. -/
def holding (out : Output Dir) : Process → Holding (Dir × Bytes)
  | writing _ _ _ call => call.holding out
  | _ => none

/-- The file a process reads. -/
def file : Process → Option Nat
  | reading _ file _ => some file
  | _ => none

/-- The rename is done. -/
def Installed : Process → Prop
  | writing _ _ _ call => call.Installed
  | _ => False

end Process

/-- How far a command is, where it takes its input and puts its output in one step each. -/
inductive Phase where
  | waiting
  | loaded (source : Bytes)
  | done

/-- How far a process is. One that has failed may have its input or not. -/
def Process.Shows (s : FileSystem Dir) (phase : Phase) : Process → Prop
  | start | checked | opening _ => phase = .waiting
  | reading _ file _ => phase = .loaded (s.content file)
  | ready _ source => phase = .loaded source
  | writing _ source _ call => (call.Installed → phase = .done) ∧
      (¬ call.Installed → phase = .loaded source)
  | failed _ | panicked => phase ≠ .done

/-- The process has read its input whole, and its result is what the command makes of it. -/
structure Made (E : Env) (job : Job Dir) (password source result : Bytes) : Prop where
  asked : job.password = .ok password
  transformed : ∃ drawn, job.action.transform E source password drawn = .ok result
  fits : result.length < 2 ^ 63

/-- What a process has read and computed. -/
def Process.Sound (E : Env) (job : Job Dir) (s : FileSystem Dir) : Process → Prop
  | opening password | ready password _ => job.password = .ok password
  | reading password file data => job.password = .ok password ∧ data <+: s.content file
  | writing password source result call => Made E job password source result ∧
      call.Written result s.content
  | _ => True

/-- What a process knows stays true while the files it reads and writes stay. -/
theorem Process.Sound.congr {E : Env} {job : Job Dir} {s s' : FileSystem Dir} {c : Process}
    (h : c.Sound E job s)
    (hread : ∀ k, c.file = some k → s'.content k = s.content k)
    (hheld : ∀ p k, c.holding job.output = some (p, k) → s'.content k = s.content k) :
    c.Sound E job s' := by
  cases c with
  | opening password => exact h
  | reading password file data => exact ⟨h.1, hread file rfl ▸ h.2⟩
  | ready password source => exact h
  | writing password source result call => exact ⟨h.1, h.2.congr hheld⟩
  | _ => trivial

/-! ## The invariant -/

abbrev Processes (Dir ι : Type) := Parties (FileSystem Dir) Process ι

section
variable {ι : Type} (E : Env) (jobs : ι → Job Dir)

/-- A process makes a step. -/
abbrev ProcessesStep [DecidableEq Dir] (a : Processes Dir ι) (i : ι) (b : Processes Dir ι) : Prop :=
  a.Step (fun i => ProcessStep E (jobs i)) i b

/-- The path of a temporary of a process. -/
def IsTemporary (p : Dir × Bytes) : Prop := ∃ i suffix, p = (jobs i).output.tmpPath suffix

/-- No process reads or replaces what may be the temporary of a process. -/
structure Apart : Prop where
  input : ∀ i, ¬ IsTemporary jobs (jobs i).input
  output : ∀ i, ¬ IsTemporary jobs (jobs i).output.path

/-- The name of a temporary starts with a dot. -/
theorem Apart.of_head (hinput : ∀ i, (jobs i).input.2.head? ≠ some 0x2E)
    (houtput : ∀ i, (jobs i).output.fileName.head? ≠ some 0x2E) : Apart jobs where
  input i := fun ⟨_, _, h⟩ => hinput i (congrArg (fun p => p.2.head?) h)
  output i := fun ⟨_, _, h⟩ => houtput i (congrArg (fun p => p.2.head?) h)

/-- What holds at all times. -/
structure Session (a : Processes Dir ι) : Prop where
  held : Held (IsTemporary jobs) a.shared fun i => (a.own i).holding (jobs i).output
  sound : ∀ i, (a.own i).Sound E (jobs i) a.shared
  /-- No one writes to a file that is read. -/
  unheld : ∀ i k, (a.own i).file = some k →
    k < a.shared.next ∧ ∀ j p, (a.own j).holding (jobs j).output ≠ some (p, k)

end

/-! ## Steps -/

section
variable [DecidableEq Dir] {ι : Type} {E : Env} {jobs : ι → Job Dir} {s s' : FileSystem Dir} {i : ι}

/-- What a step of a process does to the files, to its temporary and to what stands elsewhere. -/
inductive ProcessEffect (jobs : ι → Job Dir) (i : ι) (s : FileSystem Dir) (c : Process)
    (s' : FileSystem Dir) (c' : Process) : Prop where
  | quiet (hact : Act (IsTemporary jobs) s (c.holding (jobs i).output) s'
      (c'.holding (jobs i).output) none)
    (hshows : ∀ phase, c.Shows s phase → c'.Shows s' phase)
  | load {password : Bytes} {file : Nat} (hentry : s.entry (jobs i).input = some file)
    (hfiles : s' = s) (hbefore : c = .opening password) (hafter : c' = .reading password file [])
  | install {password source result : Bytes} {suffix : UInt64} {file : Nat}
    (hact : Act (IsTemporary jobs) s (c.holding (jobs i).output) s' (c'.holding (jobs i).output)
      (some ((jobs i).output.path, s.content file)))
    (hbefore : c = .writing password source result (.synced suffix file))
    (hafter : c' = .writing password source result .renamed)

theorem ProcessStep.effect {c c' : Process} (h : ProcessStep E (jobs i) (s, c) (s', c'))
    (hsound : c.Sound E (jobs i) s) (hapart : Apart jobs) : ProcessEffect jobs i s c s' c' := by
  cases h with
  | openInput h => exact .load h rfl rfl rfl
  | @write _ _ password source result call call' h =>
    cases h.effect (fun suffix => ⟨i, suffix, rfl⟩) (hapart.output i) with
    | quiet hact hinstalled =>
      exact .quiet hact fun phase hshows => ⟨fun h => hshows.1 (hinstalled.mp h),
        fun h => hshows.2 fun h' => h (hinstalled.mpr h')⟩
    | rename hact _ hbefore hafter =>
      subst hbefore hafter
      exact .install hact rfl rfl
  | pass | ask | read => exact .quiet (.rest none) fun _ hshows => hshows
  | readEnd hend =>
    refine .quiet (.rest none) fun phase hshows => ?_
    have hall := hsound.2.eq_of_length (Nat.le_antisymm hsound.2.length_le hend)
    exact hshows.trans (congrArg _ hall.symm)
  | transform => exact .quiet (.rest none) fun _ hshows => ⟨False.elim, fun _ => hshows⟩
  | refuse | checkFails | askFails | openFails | readFails | transformFails | transformPanics
  | tooLarge => exact .quiet (.rest none) fun _ hshows => ne_of_eq_of_ne hshows nofun

theorem ProcessStep.act {c c' : Process} (h : ProcessStep E (jobs i) (s, c) (s', c'))
    (hsound : c.Sound E (jobs i) s) (hapart : Apart jobs) : ∃ put,
      Act (IsTemporary jobs) s (c.holding (jobs i).output) s' (c'.holding (jobs i).output) put := by
  cases h.effect hsound hapart with
  | quiet hact _ => exact ⟨_, hact⟩
  | load _ hfiles hbefore hafter =>
    subst hfiles hbefore hafter
    exact ⟨_, .rest none⟩
  | install hact _ _ => exact ⟨_, hact⟩

/-- A process knows what its step found out. -/
theorem ProcessStep.sound {c c' : Process} (h : ProcessStep E (jobs i) (s, c) (s', c'))
    (hsound : c.Sound E (jobs i) s) : c'.Sound E (jobs i) s' := by
  cases h with
  | ask _ hpw => exact hpw
  | openInput => exact ⟨hsound, List.nil_prefix⟩
  | @read _ password data file n _ hrest =>
    obtain ⟨hpw, rest, hdata⟩ := hsound
    refine ⟨hpw, ?_⟩
    rw [← hdata, List.drop_left]
    exact ⟨rest.drop n, by rw [List.append_assoc, List.take_append_drop]⟩
  | readEnd => exact hsound.1
  | transform hresult hfits => exact ⟨⟨hsound, ⟨_, hresult⟩, hfits⟩, trivial⟩
  | write h => exact ⟨hsound.1, h.written hsound.2⟩
  | _ => trivial

/-- The file a process reads is one that stood at its input, or the one it was reading. -/
theorem ProcessStep.file {c c' : Process} (h : ProcessStep E (jobs i) (s, c) (s', c')) {k : Nat}
    (hk : c'.file = some k) : c.file = some k ∨ s.entry (jobs i).input = some k := by
  cases h with
  | openInput hfile =>
    cases hk
    exact .inr hfile
  | read => exact .inl hk
  | _ => cases hk

namespace Session

omit [DecidableEq Dir] in
theorem start (E : Env) (jobs : ι → Job Dir) (files : FileSystem Dir) :
    Session E jobs ⟨files, fun _ => .start⟩ where
  held := .start
  sound _ := trivial
  unheld _ _ h := by cases h

variable {a b : Processes Dir ι} (h : Session E jobs a) (hstep : ProcessesStep E jobs a i b)
include hstep

theorem others_holding (j : ι) (hj : j ≠ i) :
    (b.own j).holding (jobs j).output = (a.own j).holding (jobs j).output := by
  rw [hstep.others j hj]

include h

/-- A file that is read, or stands at the input of a process, stays. -/
theorem frozen (hapart : Apart jobs) {j : ι} {k : Nat}
    (hk : (a.own j).file = some k ∨ a.shared.entry (jobs j).input = some k) :
    k < b.shared.next ∧ (∀ j p, (b.own j).holding (jobs j).output ≠ some (p, k)) ∧
      b.shared.content k = a.shared.content k := by
  obtain ⟨put, hact⟩ := hstep.moves.act (h.sound i) hapart
  refine Held.frozen hact (others_holding hstep) ?_ ?_
  · exact hk.elim (fun hk => (h.unheld j k hk).1) a.shared.entry_lt
  · exact hk.elim (fun hk => (h.unheld j k hk).2) (h.held.unheld (hapart.input j))

/-- **A step of a process keeps the invariant.** -/
theorem step (hapart : Apart jobs) : Session E jobs b := by
  obtain ⟨put, hact⟩ := hstep.moves.act (h.sound i) hapart
  refine ⟨Held.act hact h.held (others_holding hstep), fun j => ?_, fun j k hk => ?_⟩
  · by_cases hj : j = i
    · rw [hj]
      exact hstep.moves.sound (h.sound i)
    · rw [hstep.others j hj]
      exact (h.sound j).congr (fun k hk => (h.frozen hstep hapart (.inl hk)).2.2)
        fun p k hp => h.held.others hact hj hp
  · have hbefore : (a.own j).file = some k ∨ a.shared.entry (jobs j).input = some k := by
      by_cases hj : j = i
      · rw [hj] at hk ⊢
        exact hstep.moves.file hk
      · rw [hstep.others j hj] at hk
        exact .inl hk
    obtain ⟨hlt, hfree, -⟩ := h.frozen hstep hapart hbefore
    exact ⟨hlt, hfree⟩

end Session

end

end Krcm.Cli
