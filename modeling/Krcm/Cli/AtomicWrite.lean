import Krcm.Base.Replace
import Krcm.Base.Text
import Krcm.Base.Trace
import Krcm.Env

/-!
# atomic_write

The calls of `atomic_write` of the `krcm` command on one output path, as steps
on the files they share: each system call is a step of its own, and each may
fail. The calls replace files by renaming (`CallStep.effect`): a call writes to
a file that only its temporary leads to, so the output is replaced by a rename
of the complete data or not at all (`atomicWrite_all_or_nothing`).
-/

namespace Krcm.Cli

open Base Files

/-! ## Names -/

def isContinuation (b : UInt8) : Bool := 0x80 ≤ b ∧ b < 0xC0

/-- The bytes of the UTF-8 sequence that starts with `a`; 0 where none does. -/
def utf8Width (a : UInt8) : Nat :=
  if a < 0x80 then 1 else if a < 0xC2 then 0 else if a < 0xE0 then 2 else if a < 0xF0 then 3
  else if a < 0xF5 then 4 else 0

/-- The second byte of a sequence. -/
def isSecond (a b : UInt8) : Bool :=
  if a = 0xE0 then 0xA0 ≤ b ∧ b < 0xC0
  else if a = 0xED then 0x80 ≤ b ∧ b < 0xA0
  else if a = 0xF0 then 0x90 ≤ b ∧ b < 0xC0
  else if a = 0xF4 then 0x80 ≤ b ∧ b < 0x90
  else isContinuation b

/-- The bytes behind `a` that go on with its sequence. -/
def followers (a : UInt8) : Bytes → Nat
  | [] => 0
  | b :: l => if 2 ≤ utf8Width a ∧ isSecond a b
      then 1 + min (utf8Width a - 2) (l.takeWhile isContinuation).length else 0

theorem followers_le (a : UInt8) (l : Bytes) :
    followers a l = 0 ∨ followers a l + 1 ≤ utf8Width a := by
  unfold followers
  split
  · exact .inl rfl
  · split
    · right
      omega
    · exact .inl rfl

/-- `String::from_utf8_lossy`: U+FFFD for each piece that is no sequence. -/
def fromUtf8Lossy : Bytes → Bytes
  | [] => []
  | a :: l =>
    let n := followers a l
    if n + 1 = utf8Width a then a :: (l.take n ++ fromUtf8Lossy (l.drop n))
    else 0xEF :: 0xBF :: 0xBD :: fromUtf8Lossy (l.drop n)
termination_by l => l.length
decreasing_by all_goals simp only [List.length_drop, List.length_cons]; omega

/-- A name gets no shorter. -/
theorem length_fromUtf8Lossy (l : Bytes) : l.length ≤ (fromUtf8Lossy l).length := by
  have hwidth (a : UInt8) : utf8Width a ≤ 4 := by
    unfold utf8Width
    split_ifs <;> omega
  fun_induction fromUtf8Lossy l with
  | case1 => exact le_rfl
  | case2 a l n h ih =>
    rw [List.length_drop] at ih
    simp only [List.length_cons, List.length_append, List.length_take]
    omega
  | case3 a l n h ih =>
    have hle : n = 0 ∨ n + 1 ≤ utf8Width a := followers_le a l
    have hfour := hwidth a
    rw [List.length_drop] at ih
    simp only [List.length_cons]
    omega

/-- An output path that has a file name. -/
structure Output (Dir : Type) where
  directory : Dir
  fileName : Bytes

namespace Output

variable {Dir : Type}

def path (out : Output Dir) : Dir × Bytes := (out.directory, out.fileName)

/-- `.{file_name}.{suffix}.tmp`. -/
def tmpPath (out : Output Dir) (suffix : UInt64) : Dir × Bytes :=
  (out.directory, ascii "." ++ fromUtf8Lossy out.fileName ++ ascii "." ++
    (digits suffix.toNat).map UInt8.ofNat ++ ascii ".tmp")

/-- The paths of the temporaries. -/
def IsTmpPath (out : Output Dir) (p : Dir × Bytes) : Prop := ∃ suffix, p = out.tmpPath suffix

theorem tmpPath_ne_path (out : Output Dir) (suffix : UInt64) : out.tmpPath suffix ≠ out.path := by
  intro h
  have hname := congrArg (fun p => p.2.length) h
  have hlossy := length_fromUtf8Lossy out.fileName
  have hdot : (ascii ".").length = 1 := rfl
  simp only [tmpPath, path, List.length_append, hdot] at hname
  omega

/-- Each suffix has a temporary of its own. -/
theorem tmpPath_injective (out : Output Dir) : Function.Injective out.tmpPath := by
  have hdigits (suffix : UInt64) : ((digits suffix.toNat).map UInt8.ofNat).map UInt8.toNat =
      digits suffix.toNat := by
    rw [List.map_map]
    refine (List.map_congr_left fun c hc => ?_).trans (List.map_id _)
    have hdigit := isDigit_of_mem_digits hc
    simp only [isDigit, decide_eq_true_eq] at hdigit
    exact UInt8.toNat_ofNat_of_lt' (show c < 256 by omega)
  intro suffix suffix' h
  have hname := congrArg Prod.snd h
  simp only [tmpPath] at hname
  rw [List.append_left_inj, List.append_right_inj] at hname
  have hsame := congrArg (List.map UInt8.toNat) hname
  rw [hdigits, hdigits] at hsame
  have hnat := congrArg ofDigits hsame
  rw [ofDigits_digits, ofDigits_digits] at hnat
  exact UInt64.toNat_inj.mp hnat

theorem not_isTmpPath (out : Output Dir) : ¬ out.IsTmpPath out.path :=
  fun ⟨suffix, h⟩ => out.tmpPath_ne_path suffix h.symm

end Output

/-! ## Steps -/

structure Request where
  data : Bytes
  force : Bool

/-- Where a call stands. A call that has a temporary knows its suffix and the file it opened. -/
inductive Call where
  | start
  /-- Before the next `create_new`. -/
  | naming
  | writing (suffix : UInt64) (file written : Nat)
  | flushed (suffix : UInt64) (file : Nat)
  | synced (suffix : UInt64) (file : Nat)
  | renamed
  | failed (suffix : UInt64) (file : Nat)
  | returnedOk
  | returnedErr
  /-- An error is returned, and the temporary could not be removed. -/
  | leftBehind (suffix : UInt64) (file : Nat)

abbrev FileSystem (Dir : Type) := Files (Dir × Bytes)

variable {Dir : Type}

section
variable [DecidableEq Dir]

/-- The steps of `atomic_write`. -/
inductive CallStep (out : Output Dir) (req : Request) :
    FileSystem Dir × Call → FileSystem Dir × Call → Prop where
  -- `ensure_output_available`
  | refuse {s : FileSystem Dir} (hexists : s.entry out.path ≠ none) (hforce : req.force = false) :
    CallStep out req (s, .start) (s, .returnedErr)
  | pass {s : FileSystem Dir} (h : s.entry out.path = none ∨ req.force = true) :
    CallStep out req (s, .start) (s, .naming)
  -- the loop over the names
  | clash {s : FileSystem Dir} {suffix : UInt64} (h : s.entry (out.tmpPath suffix) ≠ none) :
    CallStep out req (s, .naming) (s, .naming)
  | create {s : FileSystem Dir} {suffix : UInt64} (h : s.entry (out.tmpPath suffix) = none) :
    CallStep out req (s, .naming) (s.create (out.tmpPath suffix), .writing suffix s.next 0)
  | createFails {s : FileSystem Dir} : CallStep out req (s, .naming) (s, .returnedErr)
  -- `write_all`, in pieces of any size
  | write {s : FileSystem Dir} {suffix : UInt64} {file written n : Nat} (hn : 0 < n)
    (hrest : written + n ≤ req.data.length) :
    CallStep out req (s, .writing suffix file written)
      (s.writeAt file written ((req.data.drop written).take n), .writing suffix file (written + n))
  | writeFails {s : FileSystem Dir} {suffix : UInt64} {file written : Nat}
    (h : written < req.data.length) :
    CallStep out req (s, .writing suffix file written) (s, .failed suffix file)
  | flush {s : FileSystem Dir} {suffix : UInt64} {file : Nat} :
    CallStep out req (s, .writing suffix file req.data.length) (s, .flushed suffix file)
  | flushFails {s : FileSystem Dir} {suffix : UInt64} {file : Nat} :
    CallStep out req (s, .writing suffix file req.data.length) (s, .failed suffix file)
  | sync {s : FileSystem Dir} {suffix : UInt64} {file : Nat} :
    CallStep out req (s, .flushed suffix file) (s, .synced suffix file)
  | syncFails {s : FileSystem Dir} {suffix : UInt64} {file : Nat} :
    CallStep out req (s, .flushed suffix file) (s, .failed suffix file)
  | rename {s : FileSystem Dir} {suffix : UInt64} {file : Nat}
    (h : s.entry (out.tmpPath suffix) ≠ none) :
    CallStep out req (s, .synced suffix file) (s.rename (out.tmpPath suffix) out.path, .renamed)
  | renameFails {s : FileSystem Dir} {suffix : UInt64} {file : Nat} :
    CallStep out req (s, .synced suffix file) (s, .failed suffix file)
  -- the sync of the directory, whatever comes of it
  | finish {s : FileSystem Dir} : CallStep out req (s, .renamed) (s, .returnedOk)
  | remove {s : FileSystem Dir} {suffix : UInt64} {file : Nat}
    (h : s.entry (out.tmpPath suffix) ≠ none) :
    CallStep out req (s, .failed suffix file) (s.remove (out.tmpPath suffix), .returnedErr)
  | removeFails {s : FileSystem Dir} {suffix : UInt64} {file : Nat} :
    CallStep out req (s, .failed suffix file) (s, .leftBehind suffix file)

end

/-! ## What a step changes -/

namespace Call

/-- The temporary of a call: its suffix, and the file the call opened. -/
def temporary : Call → Option (UInt64 × Nat)
  | writing suffix file _ | flushed suffix file | synced suffix file | failed suffix file
  | leftBehind suffix file => some (suffix, file)
  | _ => none

/-- The temporary, under its path. -/
def holding (out : Output Dir) (c : Call) : Holding (Dir × Bytes) :=
  c.temporary.map fun temporary => (out.tmpPath temporary.1, temporary.2)

theorem holding_eq_some {out : Output Dir} {c : Call} {p : Dir × Bytes} {file : Nat} :
    c.holding out = some (p, file) ↔
      ∃ suffix, c.temporary = some (suffix, file) ∧ p = out.tmpPath suffix := by
  unfold holding
  rw [Option.map_eq_some_iff]
  constructor
  · rintro ⟨⟨suffix, file⟩, h, heq⟩
    cases heq
    exact ⟨suffix, h, rfl⟩
  · rintro ⟨suffix, h, rfl⟩
    exact ⟨_, h, rfl⟩

/-- What the file of the call holds. -/
def Written (data : Bytes) (content : Nat → Bytes) : Call → Prop
  | writing _ file written => written ≤ data.length ∧ content file = data.take written
  | flushed _ file | synced _ file => content file = data
  | _ => True

/-- The rename is done. -/
def Installed : Call → Prop
  | renamed | returnedOk => True
  | _ => False

theorem Written.congr {data : Bytes} {content content' : Nat → Bytes} {out : Output Dir} {c : Call}
    (h : c.Written data content)
    (hcontent : ∀ p file, c.holding out = some (p, file) → content' file = content file) :
    c.Written data content' := by
  cases c with
  | writing suffix file written => exact ⟨h.1, (hcontent _ file rfl).trans h.2⟩
  | flushed suffix file => exact (hcontent _ file rfl).trans h
  | synced suffix file => exact (hcontent _ file rfl).trans h
  | _ => trivial

end Call

section
variable [DecidableEq Dir] {out : Output Dir} {req : Request} {s s' : FileSystem Dir} {c c' : Call}

/-- What a step does to the files and to the temporary of the call, where `Temp` are the paths of
temporaries. -/
inductive Effect (out : Output Dir) (Temp : Dir × Bytes → Prop) (s : FileSystem Dir) (c : Call)
    (s' : FileSystem Dir) (c' : Call) : Prop where
  | quiet (hact : Act Temp s (c.holding out) s' (c'.holding out) none)
    (hinstalled : c'.Installed ↔ c.Installed)
  | rename {suffix : UInt64} {file : Nat}
    (hact : Act Temp s (c.holding out) s' (c'.holding out) (some (out.path, s.content file)))
    (hfiles : s' = s.rename (out.tmpPath suffix) out.path)
    (hbefore : c = .synced suffix file) (hafter : c' = .renamed)

/-- **A step replaces files by renaming.** -/
theorem CallStep.effect (h : CallStep out req (s, c) (s', c')) {Temp : Dir × Bytes → Prop}
    (htemp : ∀ suffix, Temp (out.tmpPath suffix)) (hpath : ¬ Temp out.path) :
    Effect out Temp s c s' c' := by
  cases h with
  | create hfree => exact .quiet (.create (htemp _) hfree) Iff.rfl
  | write => exact .quiet (.write _ _) Iff.rfl
  | rename => exact .rename (.install hpath) rfl rfl rfl
  | remove => exact .quiet .discard Iff.rfl
  | _ => exact .quiet (.rest _) Iff.rfl

theorem Effect.act {Temp : Dir × Bytes → Prop} (h : Effect out Temp s c s' c') : ∃ put,
    Act Temp s (c.holding out) s' (c'.holding out) put ∧
      ∀ p data, put = some (p, data) → p = out.path := by
  cases h with
  | quiet hact _ => exact ⟨_, hact, nofun⟩
  | rename hact _ _ _ =>
    refine ⟨_, hact, fun p data hput => ?_⟩
    cases hput
    rfl

/-- The bytes written so far are the beginning of the data. -/
theorem CallStep.written (h : CallStep out req (s, c) (s', c'))
    (hwritten : c.Written req.data s.content) : c'.Written req.data s'.content := by
  cases h with
  | create => exact ⟨Nat.zero_le _, content_create_self⟩
  | @write _ suffix file written n _ hrest =>
    obtain ⟨hle, hdata⟩ := hwritten
    have hlen : written = (s.content file).length := by
      rw [hdata, List.length_take, Nat.min_eq_left hle]
    refine ⟨hrest, ?_⟩
    show (writeAt _ _ _ _).content file = _
    unfold writeAt
    rw [content_setContent_self, overwrite_append hlen, hdata, ← List.take_add]
  | flush =>
    have hall := hwritten.2
    rw [List.take_length] at hall
    exact hall
  | sync => exact hwritten
  | _ => trivial

end

/-! ## The invariant -/

/-- The files, and the calls on the output path. -/
abbrev Calls (Dir ι : Type) := Parties (FileSystem Dir) Call ι

section
variable {ι : Type} (out : Output Dir) (req : ι → Request)

/-- A call makes a step. -/
abbrev Step [DecidableEq Dir] (a : Calls Dir ι) (i : ι) (b : Calls Dir ι) : Prop :=
  a.Step (fun i => CallStep out (req i)) i b

variable {out req} in
theorem Step.effect [DecidableEq Dir] {a b : Calls Dir ι} {i : ι} (h : Step out req a i b) :
    Effect out out.IsTmpPath a.shared (a.own i) b.shared (b.own i) :=
  h.moves.effect (fun suffix => ⟨suffix, rfl⟩) out.not_isTmpPath

/-- What holds at all times of files that were `files` when the calls began. -/
structure Inv (files : FileSystem Dir) (a : Calls Dir ι) : Prop where
  held : Held out.IsTmpPath a.shared fun i => (a.own i).holding out
  next : files.next ≤ a.shared.next
  fresh : ∀ i p file, (a.own i).holding out = some (p, file) → files.next ≤ file
  /-- Every path that was there stays, but for the output. -/
  entry : ∀ p, p ≠ out.path → files.entry p ≠ none → a.shared.entry p = files.entry p
  /-- Every other path is the output or a temporary. -/
  made : ∀ p, a.shared.entry p ≠ none → files.entry p ≠ none ∨ p = out.path ∨
    ∃ i file, (a.own i).holding out = some (p, file)
  written : ∀ i, (a.own i).Written (req i).data a.shared.content

end

namespace Inv

variable {ι : Type} {out : Output Dir} {req : ι → Request} {files : FileSystem Dir}
  {a b : Calls Dir ι} {i : ι}

theorem start (out : Output Dir) (req : ι → Request) (files : FileSystem Dir) :
    Inv out req files ⟨files, fun _ => .start⟩ where
  held := .start
  next := le_rfl
  fresh _ _ _ h := by cases h
  entry _ _ _ := rfl
  made _ h := .inl h
  written _ := trivial

variable (h : Inv out req files a)
include h

/-- A temporary is at no path that was there. -/
theorem entry_held {p : Dir × Bytes} {file : Nat} (hi : (a.own i).holding out = some (p, file)) :
    files.entry p = none := by
  by_contra hp
  have hne : p ≠ out.path := fun heq => out.not_isTmpPath (heq ▸ h.held.temp hi)
  have hentry := h.entry p hne hp
  rw [(h.held.sole hi).entry] at hentry
  have hlt := files.entry_lt hentry.symm
  have hle := h.fresh i p file hi
  omega

/-- The temporaries that the calls know are those that are there. -/
theorem made_temporary {p : Dir × Bytes} (hp : a.shared.entry p ≠ none) : files.entry p ≠ none ∨
    p = out.path ∨ ∃ i suffix file, (a.own i).temporary = some (suffix, file) ∧
      p = out.tmpPath suffix := by
  refine (h.made p hp).imp_right (Or.imp_right ?_)
  rintro ⟨i, file, hi⟩
  obtain ⟨suffix, htemporary, rfl⟩ := Call.holding_eq_some.mp hi
  exact ⟨i, suffix, file, htemporary, rfl⟩

variable [DecidableEq Dir]

/-- **A step keeps the invariant.** -/
theorem step (hstep : Step out req a i b) : Inv out req files b := by
  obtain ⟨put, hact, hput⟩ := hstep.effect.act
  have hothers (j : ι) (hj : j ≠ i) : (b.own j).holding out = (a.own j).holding out := by
    rw [hstep.others j hj]
  refine ⟨Held.act hact h.held hothers, h.next.trans hact.next_le, ?_, ?_, ?_, ?_⟩
  · intro j p file hj
    by_cases hji : j = i
    · rw [hji] at hj
      rcases hact.held_eq hj with hold | rfl
      · exact h.fresh i p file hold
      · exact h.next
    · exact h.fresh j p file (hothers j hji ▸ hj)
  · intro p hp hfile
    have hentry := h.entry p hp hfile
    refine (hact.entry_eq (fun _ => hentry ▸ hfile) (fun k hi => ?_) fun data heq => ?_).trans hentry
    · exact hfile (h.entry_held hi)
    · exact hp (hput p data heq)
  · intro p hp
    by_cases hheld : ∃ file, (b.own i).holding out = some (p, file)
    · exact .inr (.inr ⟨i, hheld⟩)
    by_cases hpath : p = out.path
    · exact .inr (.inl hpath)
    obtain ⟨hold, hnot⟩ := h.held.made hact (not_exists.mp hheld)
      (fun data heq => hpath (hput p data heq)) hp
    refine (h.made p hold).imp_right (Or.imp_right ?_)
    rintro ⟨j, file, hj⟩
    have hji : j ≠ i := by
      rintro rfl
      exact hnot file hj
    exact ⟨j, file, (hothers j hji).trans hj⟩
  · intro j
    by_cases hji : j = i
    · rw [hji]
      exact hstep.moves.written (h.written i)
    · rw [hstep.others j hji]
      exact (h.written j).congr fun p file hj => h.held.others hact hji hj

/-- **What the rename of a call installs.** -/
theorem installs (hstep : Step out req a i b) (hbefore : ¬ (a.own i).Installed)
    (hafter : (b.own i).Installed) : b.own i = .renamed ∧ ∃ suffix file,
      a.own i = .synced suffix file ∧
      b.shared = a.shared.rename (out.tmpPath suffix) out.path ∧
      b.shared.read out.path = some (req i).data := by
  cases hstep.effect with
  | quiet _ hinstalled => exact absurd (hinstalled.mp hafter) hbefore
  | @rename suffix file hact hfiles hc hc' =>
    have hdata := h.written i
    rw [hc] at hdata
    refine ⟨hc', suffix, file, hc, hfiles, h.held.installs hact ?_⟩
    rw [show a.shared.content file = (req i).data from hdata]

/-- **What a call leaves alone** until its rename: the output, all that was there, and all paths
but its temporary. -/
theorem keeps (hstep : Step out req a i b) (hinstall : (b.own i).Installed → (a.own i).Installed)
    {p : Dir × Bytes} (hp : p = out.path ∨ files.entry p ≠ none ∨ a.shared.entry p ≠ none ∧
      ∀ suffix file, (a.own i).temporary = some (suffix, file) → p ≠ out.tmpPath suffix) :
    b.shared.entry p = a.shared.entry p ∧ b.shared.read p = a.shared.read p := by
  cases hstep.effect with
  | quiet hact _ =>
    refine h.held.keeps hact (fun htemp => ?_) nofun
    have hpath : p ≠ out.path := fun heq => out.not_isTmpPath (heq ▸ htemp)
    rcases hp.resolve_left hpath with hfile | ⟨hthere, hother⟩
    · exact ⟨h.entry p hpath hfile ▸ hfile, fun k hi => hfile (h.entry_held hi)⟩
    · refine ⟨hthere, fun k hi => ?_⟩
      obtain ⟨suffix, htemporary, heq⟩ := Call.holding_eq_some.mp hi
      exact hother suffix k htemporary heq
  | rename _ _ hc hc' =>
    rw [hc, hc'] at hinstall
    exact (hinstall trivial).elim

end Inv

/-- An installed file counts for good. -/
theorem Step.installed [DecidableEq Dir] {ι : Type} {out : Output Dir} {req : ι → Request} {i j : ι}
    {a b : Calls Dir ι} (hi : (a.own i).Installed) (hstep : Step out req a j b) :
    (b.own i).Installed := by
  by_cases hj : i = j
  · subst hj
    cases hstep.effect with
    | quiet _ hinstalled => exact hinstalled.mpr hi
    | rename _ _ hc _ => exact absurd hi (by rw [hc]; exact id)
  · rw [hstep.others i hj]
    exact hi

/-! ## Runs -/

section
variable [DecidableEq Dir] {ι : Type} {out : Output Dir} {req : ι → Request}
  {files : FileSystem Dir} {moves : List (Move (Calls Dir ι) ι)} {t : Calls Dir ι}

/-- A run of the calls, from their beginning. -/
abbrev Run (out : Output Dir) (req : ι → Request) (files : FileSystem Dir)
    (moves : List (Move (Calls Dir ι) ι)) (t : Calls Dir ι) : Prop :=
  Trace (Step out req) ⟨files, fun _ => .start⟩ moves t

theorem Run.inv (h : Run out req files moves t) : Inv out req files t :=
  h.invariant (fun _ _ _ ha hstep => ha.step hstep) (.start out req files)

theorem Run.inv_before (h : Run out req files moves t) {m : Move (Calls Dir ι) ι} (hm : m ∈ moves) :
    Inv out req files m.before ∧ Step out req m.before m.actor m.after :=
  h.invariant_before (fun _ _ _ ha hstep => ha.step hstep) (.start out req files) hm

/-- Every move leaves the output or puts the data of its call there. -/
theorem Run.read_move (h : Run out req files moves t) {m : Move (Calls Dir ι) ι} (hm : m ∈ moves) :
    m.after.shared.read out.path = m.before.shared.read out.path ∨
      m.after.shared.read out.path = some (req m.actor).data := by
  obtain ⟨hinv, hstep⟩ := h.inv_before hm
  by_cases hinstall : (m.after.own m.actor).Installed → (m.before.own m.actor).Installed
  · exact .inl (hinv.keeps hstep hinstall (.inl rfl)).2
  · rw [Classical.not_imp] at hinstall
    obtain ⟨-, -, -, -, -, hread⟩ := hinv.installs hstep hinstall.2 hinstall.1
    exact .inr hread

/-- **`atomic_write` is all or nothing**, whichever of its system calls fail and however any number
of calls on one output path interleave. The output holds what it held or the data of a call, and a
step leaves it or puts the data of its call there; a call that returned `Ok` installed its data by its
rename; a call that returned an error changed neither the output nor a path that was there, nor any
path but its temporary; and the paths that are new are the output and the temporaries of the calls
that have not returned, or could not remove theirs. -/
theorem atomicWrite_all_or_nothing (out : Output Dir) (req : ι → Request) (files : FileSystem Dir)
    (moves : List (Move (Calls Dir ι) ι)) (t : Calls Dir ι) (h : Run out req files moves t) :
    (t.shared.read out.path = files.read out.path ∨
      ∃ i, t.shared.read out.path = some (req i).data) ∧
    (∀ m ∈ moves, m.after.shared.read out.path = m.before.shared.read out.path ∨
      m.after.shared.read out.path = some (req m.actor).data) ∧
    (∀ i, t.own i = .returnedOk → ∃ m ∈ moves, m.actor = i ∧ m.after.own i = .renamed ∧
      (∃ suffix file, m.before.own i = .synced suffix file ∧
        m.after.shared = m.before.shared.rename (out.tmpPath suffix) out.path) ∧
      m.after.shared.read out.path = some (req i).data) ∧
    (∀ i, t.own i = .returnedErr ∨ (∃ suffix file, t.own i = .leftBehind suffix file) →
      ∀ m ∈ moves, m.actor = i → ∀ p, (p = out.path ∨ files.entry p ≠ none ∨
          m.before.shared.entry p ≠ none ∧ ∀ suffix file,
            (m.before.own i).temporary = some (suffix, file) → p ≠ out.tmpPath suffix) →
        m.after.shared.entry p = m.before.shared.entry p ∧
          m.after.shared.read p = m.before.shared.read p) ∧
    ∀ p, t.shared.entry p ≠ none → files.entry p ≠ none ∨ p = out.path ∨
      ∃ i suffix file, (t.own i).temporary = some (suffix, file) ∧ p = out.tmpPath suffix := by
  refine ⟨?_, fun m hm => h.read_move hm, fun i hi => ?_, fun i hi m hm hactor p hp => ?_,
    fun p hp => h.inv.made_temporary hp⟩
  · refine h.kept_or (f := fun a => a.shared.read out.path)
      (D := fun content => ∃ i, content = some (req i).data) fun m hm => ?_
    exact (h.read_move hm).imp_right fun hread => ⟨_, hread⟩
  · obtain ⟨m, hm, hbefore, hafter⟩ := h.crossing (P := fun a => (a.own i).Installed) id
      (by rw [hi]; trivial)
    obtain ⟨hinv, hstep⟩ := h.inv_before hm
    have hactor : m.actor = i := by
      by_contra hne
      rw [hstep.others i (Ne.symm hne)] at hafter
      exact hbefore hafter
    subst hactor
    obtain ⟨hrenamed, suffix, file, hsynced, hfiles, hread⟩ := hinv.installs hstep hbefore hafter
    exact ⟨m, hm, rfl, hrenamed, ⟨suffix, file, hsynced, hfiles⟩, hread⟩
  · subst hactor
    obtain ⟨hinv, hstep⟩ := h.inv_before hm
    refine hinv.keeps hstep (fun hinstalled => absurd ?_ (?_ : ¬ (t.own m.actor).Installed)) hp
    · exact h.stable (P := fun a => (a.own m.actor).Installed) (fun _ _ _ ha hs => hs.installed ha)
        hm hinstalled
    · rcases hi with hi | ⟨suffix, file, hi⟩ <;> rw [hi] <;> exact id

end

/-- Two calls at once: the second clashes with the first, and replaces what the first has put. -/
theorem atomicWrite_two_calls : ∃ moves t,
    Run (⟨(), ascii "o"⟩ : Output Unit) (fun i : Bool => ⟨if i then [1] else [2, 3], true⟩)
        (.empty _) moves t ∧
      (∀ i, t.own i = .returnedOk) ∧
      ∀ i : Bool, ∃ m ∈ moves, m.actor = i ∧ m.after.own i = .renamed ∧
        m.after.shared.read ((), ascii "o") = some (if i then [1] else [2, 3]) := by
  have begun : Run (⟨(), ascii "o"⟩ : Output Unit)
    (fun i : Bool => ⟨if i then [1] else [2, 3], true⟩) (.empty _) []
    ⟨.empty _, fun _ => .start⟩ := .start
  have named := begun.next true (.pass (.inl rfl))
  have named' := named.next false (.pass (.inl rfl))
  have created := named'.next true (@CallStep.create _ _ _ _ _ 0 rfl)
  have hthere := (@Held.sole _ _ _ _ _ (Run.inv created).held true _ 0 rfl).entry
  have clashed := created.next false (@CallStep.clash _ _ _ _ _ 0 (hthere ▸ Option.some_ne_none 0))
  have created' := clashed.next false (@CallStep.create _ _ _ _ _ 1
    (entry_create_of_ne fun heq => absurd (Output.tmpPath_injective _ heq) (by decide)))
  have written := created'.next true (@CallStep.write _ _ _ _ _ 0 0 0 1 (by decide) (by decide))
  have written' := written.next false (@CallStep.write _ _ _ _ _ 1 1 0 2 (by decide) (by decide))
  have flushed := written'.next true (@CallStep.flush _ _ _ _ _ 0 0)
  have flushed' := flushed.next false (@CallStep.flush _ _ _ _ _ 1 1)
  have synced := flushed'.next true (@CallStep.sync _ _ _ _ _ 0 0)
  have synced' := synced.next false (@CallStep.sync _ _ _ _ _ 1 1)
  have hsource := (@Held.sole _ _ _ _ _ (Run.inv synced').held true _ 0 rfl).entry
  have renamed := synced'.next true (@CallStep.rename _ _ _ _ _ 0 0
    (hsource ▸ Option.some_ne_none 0))
  have hsource' := (@Held.sole _ _ _ _ _ (Run.inv renamed).held false _ 1 rfl).entry
  have renamed' := renamed.next false (@CallStep.rename _ _ _ _ _ 1 1
    (hsource' ▸ Option.some_ne_none 1))
  have returned := (renamed'.next true .finish).next false .finish
  obtain ⟨-, -, hok, -, -⟩ := atomicWrite_all_or_nothing _ _ _ _ _ returned
  refine ⟨_, _, returned, fun i => by cases i <;> rfl, fun i => ?_⟩
  obtain ⟨m, hm, hactor, hrenamed, -, hread⟩ := hok i (by cases i <;> rfl)
  exact ⟨m, hm, hactor, hrenamed, hread⟩

end Krcm.Cli
