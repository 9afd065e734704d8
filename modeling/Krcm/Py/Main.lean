import Krcm.Py.Cli
import Krcm.Py.Interchange

/-!
# The command line of the Python package

`main` of `cli.py`, one command after another: it checks the output, asks for
the password, reads the input, computes, and ends with `_atomic_write`. A
command replaces its output by its result or leaves every path but its
temporary as it was, wherever it is stopped (`main_exact`), and so a directory
keeps its documents through any commands (`mains_keep_documents`).
-/

namespace Krcm.Py

open Base Outcome Files

inductive Cmd where
  | encrypt (confirmPassword : Bool)
  | decrypt
  deriving DecidableEq

/-- `args`, and what is typed at the prompts; `none` interrupts. -/
structure Args (Dir : Type) where
  cmd : Cmd
  input : Dir × Bytes
  output : Output Dir
  force : Bool
  password : Option Str
  password2 : Option Str

inductive Asked where
  | password (password : Str)
  | mismatch
  | interrupted

def Args.ask {Dir : Type} (args : Args Dir) : Asked :=
  match args.password with
  | none => .interrupted
  | some password =>
    if args.cmd = .encrypt true then
      match args.password2 with
      | none => .interrupted
      | some password2 => if password ≠ password2 then .mismatch else .password password
    else .password password

@[simp] abbrev defaultIterations : Int := 200000

/-- What `secrets.token_bytes` returns, and whether the extension is loaded. -/
structure Drawn where
  native : Bool
  salt : Salt
  nonce : Nonce

def Cmd.transform (E : Env) (I : Interp) (drawn : Drawn) (password : Str) (source : Bytes) :
    Cmd → PyRun Bytes
  | encrypt _ => encryptBytesWith E I drawn.native source (.text password) defaultIterations
      drawn.salt.toList drawn.nonce.toList
  | decrypt => decryptBytesWith E I drawn.native source (.text password)

/-- Where `main` stands. -/
inductive Main where
  | start
  /-- The output is free, or may be replaced. -/
  | asking
  | asked (password : Str)
  | loaded (password : Str) (source : Bytes)
  /-- In `_atomic_write`. -/
  | writing (password : Str) (source result : Bytes) (c : Writer)
  | exited (code : Nat)
  /-- Exited with 1, behind the `replace`. -/
  | exitedLate
  /-- An exception that `main` does not catch. -/
  | raised

variable {Dir : Type}

section
variable [DecidableEq Dir]

/-- The steps of `main`. -/
inductive MainStep (E : Env) (I : Interp) (args : Args Dir) :
    FileSystem Dir × Main → FileSystem Dir × Main → Prop where
  | refuse {s : FileSystem Dir} (hexists : s.entry args.output.path ≠ none)
    (hforce : args.force = false) : MainStep E I args (s, .start) (s, .exited 1)
  | pass {s : FileSystem Dir} (h : s.entry args.output.path = none ∨ args.force = true) :
    MainStep E I args (s, .start) (s, .asking)
  | existsFails {s : FileSystem Dir} : MainStep E I args (s, .start) (s, .exited 1)
  -- `getpass.getpass`
  | ask {s : FileSystem Dir} {password : Str} (h : args.ask = .password password) :
    MainStep E I args (s, .asking) (s, .asked password)
  | mismatch {s : FileSystem Dir} (h : args.ask = .mismatch) :
    MainStep E I args (s, .asking) (s, .exited 2)
  | interrupted {s : FileSystem Dir} (h : args.ask = .interrupted) :
    MainStep E I args (s, .asking) (s, .raised)
  | askFails {s : FileSystem Dir} : MainStep E I args (s, .asking) (s, .exited 1)
  -- `args.input.read_bytes()`, of at most `sys.maxsize` bytes
  | read {s : FileSystem Dir} {password : Str} {source : Bytes}
    (h : s.read args.input = some source) (hfits : source.length < 2 ^ 63) :
    MainStep E I args (s, .asked password) (s, .loaded password source)
  | readFails {s : FileSystem Dir} {password : Str} :
    MainStep E I args (s, .asked password) (s, .exited 1)
  | readRaises {s : FileSystem Dir} {password : Str} :
    MainStep E I args (s, .asked password) (s, .raised)
  -- `encrypt_bytes` or `decrypt_bytes`
  | transform {s : FileSystem Dir} {password : Str} {source result : Bytes} {drawn : Drawn}
    (h : args.cmd.transform E I drawn password source = .ok result) :
    MainStep E I args (s, .loaded password source) (s, .writing password source result .start)
  | transformFails {s : FileSystem Dir} {password : Str} {source : Bytes} {drawn : Drawn}
    {e : PyError} (h : args.cmd.transform E I drawn password source = .err e)
    (hhandled : handled (.package e) = true) :
    MainStep E I args (s, .loaded password source) (s, .exited 1)
  | transformRaises {s : FileSystem Dir} {password : Str} {source : Bytes} {drawn : Drawn}
    {e : PyError} (h : args.cmd.transform E I drawn password source = .err e)
    (hhandled : handled (.package e) = false) :
    MainStep E I args (s, .loaded password source) (s, .raised)
  -- `_atomic_write`
  | write {s s' : FileSystem Dir} {password : Str} {source result : Bytes} {c c' : Writer}
    (h : WriterStep args.output ⟨result, args.force⟩ (s, c) (s', c')) :
    MainStep E I args (s, .writing password source result c)
      (s', .writing password source result c')
  | returns {s : FileSystem Dir} {password : Str} {source result : Bytes} :
    MainStep E I args (s, .writing password source result (.ended true)) (s, .exited 0)
  | writeRaises {s : FileSystem Dir} {password : Str} {source result : Bytes} :
    MainStep E I args (s, .writing password source result (.ended false)) (s, .exited 1)
  | writeRaisesLate {s : FileSystem Dir} {password : Str} {source result : Bytes} :
    MainStep E I args (s, .writing password source result .endedLate) (s, .exitedLate)

/-- What a command has done of its steps. -/
inductive MainRun (E : Env) (I : Interp) (args : Args Dir) (files : FileSystem Dir) :
    FileSystem Dir → Main → Prop where
  | start : MainRun E I args files files .start
  | step {s s' : FileSystem Dir} {c c' : Main} (h : MainRun E I args files s c)
    (hstep : MainStep E I args (s, c) (s', c')) : MainRun E I args files s' c'

end

/-! ## The files of one command -/

/-- The files under a run of `_atomic_write` that no one else disturbs. -/
structure Undisturbed (out : Output Dir) (data : Bytes) (s : FileSystem Dir) (c : Writer) : Prop where
  alone : s.Alone out.tmp
  held : ∀ k, c.file = some k → s.entry out.tmp = some k
  written : c.Written data s.content
  gone : c.Replaced → s.entry out.tmp = none

/-- Every path but the temporary reads as before. -/
def Kept (out : Output Dir) (s s' : FileSystem Dir) : Prop :=
  ∀ p, p ≠ out.tmp → s'.read p = s.read p

theorem Kept.refl (out : Output Dir) (files : FileSystem Dir) : Kept out files files :=
  fun _ _ => rfl

theorem Kept.trans {out : Output Dir} {s₁ s₂ s₃ : FileSystem Dir} (h : Kept out s₁ s₂)
    (h' : Kept out s₂ s₃) : Kept out s₁ s₃ :=
  fun p hp => (h' p hp).trans (h p hp)

section
variable [DecidableEq Dir] {out : Output Dir} {data : Bytes} {s s' : FileSystem Dir} {c c' : Writer}

/-- Every path but the temporary reads as before, and the output the data. -/
def Put (out : Output Dir) (data : Bytes) (s s' : FileSystem Dir) : Prop :=
  ∀ p, p ≠ out.tmp → s'.read p = Function.update s.read out.path (some data) p

namespace Undisturbed

variable (h : Undisturbed out data s c)
include h

theorem openTmp : Undisturbed out data (s.openTruncate out.tmp).1
    (.writing (s.openTruncate out.tmp).2 0) ∧ Kept out s (s.openTruncate out.tmp).1 := by
  have hsole := h.alone.sole_openTruncate
  refine ⟨⟨fun k hk => ?_, fun k hk => ?_, ⟨Nat.zero_le _, content_openTruncate_self⟩, False.elim⟩,
    fun p hp => ?_⟩
  · obtain rfl := Option.some.inj (hsole.entry.symm.trans hk)
    exact hsole
  · cases hk
    exact hsole.entry
  · have hentry := entry_openTruncate_of_ne (s := s) hp
    refine read_congr hentry fun k hk => content_openTruncate_of_ne ?_
    rintro rfl
    exact hp (hsole.only p (hentry.trans hk))

omit [DecidableEq Dir] in
theorem write {file pos : Nat} {chunk : Bytes} (hbefore : c.file = some file)
    (hafter : c'.file = some file)
    (hwritten : c.Written data s.content → c'.Written data (s.writeAt file pos chunk).content)
    (hreplaced : ¬ c'.Replaced) :
    Undisturbed out data (s.writeAt file pos chunk) c' ∧ Kept out s (s.writeAt file pos chunk) := by
  have hsole := h.alone file (h.held file hbefore)
  refine ⟨⟨h.alone.congr rfl, fun k hk => ?_, hwritten h.written, fun hr => absurd hr hreplaced⟩,
    fun p hp => ?_⟩
  · obtain rfl := Option.some.inj (hafter.symm.trans hk)
    exact h.held file hbefore
  · refine read_congr rfl fun k hk => content_setContent_of_ne ?_
    rintro rfl
    exact hp (hsole.only p hk)

theorem replace {file : Nat} (hbefore : c = .closed file) :
    Undisturbed out data (s.rename out.tmp out.path) (.cleanup true) ∧
      Put out data s (s.rename out.tmp out.path) := by
  subst hbefore
  have hsole := h.alone file (h.held file rfl)
  have hdata : s.content file = data := h.written
  have hdiffer : s.entry out.tmp ≠ s.entry out.path := by
    rw [hsole.entry]
    exact (hsole.ne out.tmp_ne_path.symm).symm
  have hsource := entry_rename_source hdiffer
  refine ⟨⟨.of_none hsource, nofun, trivial, fun _ => hsource⟩, fun p hp => ?_⟩
  · by_cases hpath : p = out.path
    · subst hpath
      rw [Function.update_self, read_eq_some]
      exact ⟨file, (entry_rename_target out.tmp_ne_path).trans hsole.entry, by rw [content_rename, hdata]⟩
    · rw [Function.update_of_ne hpath]
      exact read_congr (entry_rename_of_ne hp hpath) fun _ _ => by rw [content_rename]

omit h in
theorem unlink (hafter : c'.file = none) :
    Undisturbed out data (s.remove out.tmp) c' ∧ Kept out s (s.remove out.tmp) := by
  refine ⟨⟨.of_none entry_remove_self, fun k hk => ?_, .of_none hafter,
    fun _ => entry_remove_self⟩, fun p hp => ?_⟩
  · cases hafter.symm.trans hk
  · exact read_congr (entry_remove_of_ne hp) fun _ _ => by rw [content_remove]

/-- **A step of an undisturbed run** leaves every path but the temporary, or is the `replace`. -/
theorem step {overwrite : Bool} (hstep : WriterStep out ⟨data, overwrite⟩ (s, c) (s', c')) :
    Undisturbed out data s' c' ∧ (Kept out s s' ∧ (c'.Replaced ↔ c.Replaced) ∨
      Put out data s s' ∧ ¬ c.Replaced ∧ c'.Replaced) := by
  cases hstep.effect with
  | quiet hfiles hfile hwritten hreplaced =>
    subst hfiles
    refine ⟨⟨h.alone, fun k hk => ?_, hwritten h.written, fun hr => h.gone (hreplaced.mp hr)⟩,
      .inl ⟨fun _ _ => rfl, hreplaced⟩⟩
    rcases hfile with hsame | hnone
    · exact h.held k (hsame.symm.trans hk)
    · cases hnone.symm.trans hk
  | openTmp hfiles hbefore hafter =>
    subst hfiles hbefore hafter
    exact ⟨h.openTmp.1, .inl ⟨h.openTmp.2, Iff.rfl⟩⟩
  | write hfiles hbefore hafter hwritten hreplaced =>
    subst hfiles
    obtain ⟨hinv, hkept⟩ := h.write hbefore hafter hwritten hreplaced.1
    exact ⟨hinv, .inl ⟨hkept, iff_of_false hreplaced.1 hreplaced.2⟩⟩
  | replace _ hfiles hbefore hafter =>
    obtain ⟨hinv, hput⟩ := h.replace hbefore
    subst hfiles hbefore hafter
    exact ⟨hinv, .inr ⟨hput, id, rfl⟩⟩
  | unlink hfiles _ hafter _ hreplaced =>
    subst hfiles
    obtain ⟨hinv, hkept⟩ : Undisturbed out data _ c' ∧ _ := unlink hafter
    exact ⟨hinv, .inl ⟨hkept, hreplaced⟩⟩

end Undisturbed

end

/-! ## One command -/

namespace Main

/-- The output is replaced. -/
def Replaced : Main → Prop
  | writing _ _ _ c => c.Replaced
  | exited code => code = 0
  | exitedLate => True
  | _ => False

end Main

/-- The command may replace its output, has read its input whole, and makes its result of it. -/
structure MadeOf (E : Env) (I : Interp) (args : Args Dir) (files : FileSystem Dir)
    (password : Str) (source result : Bytes) : Prop where
  free : files.entry args.output.path = none ∨ args.force = true
  asked : args.ask = .password password
  reads : files.read args.input = some source
  fits : source.length < 2 ^ 63
  transformed : ∃ drawn, args.cmd.transform E I drawn password source = .ok result

section
variable [DecidableEq Dir]

/-- What a command knows, and what it has left alone. -/
def Main.Knows (E : Env) (I : Interp) (args : Args Dir) (files s : FileSystem Dir) : Main → Prop
  | start => s = files
  | asking => s = files ∧ (files.entry args.output.path = none ∨ args.force = true)
  | asked password => s = files ∧ (files.entry args.output.path = none ∨ args.force = true) ∧
      args.ask = .password password
  | loaded password source => s = files ∧
      (files.entry args.output.path = none ∨ args.force = true) ∧ args.ask = .password password ∧
      files.read args.input = some source ∧ source.length < 2 ^ 63
  | writing password source result c => MadeOf E I args files password source result ∧
      Undisturbed args.output result s c ∧ (¬ c.Replaced → Kept args.output files s) ∧
      (c.Replaced → Put args.output result files s)
  | exited 0 | exitedLate => (∃ password source result, MadeOf E I args files password source result ∧
      Put args.output result files s) ∧ s.entry args.output.tmp = none
  | exited (_ + 1) | raised => Kept args.output files s

variable {E : Env} {I : Interp} {args : Args Dir} {files s s' : FileSystem Dir} {c c' : Main}

theorem Kept.put {out : Output Dir} {data : Bytes} {s₁ s₂ s₃ : FileSystem Dir} (h : Kept out s₁ s₂)
    (h' : Put out data s₂ s₃) : Put out data s₁ s₃ := by
  intro p hp
  rw [h' p hp]
  by_cases hpath : p = out.path
  · rw [hpath, Function.update_self, Function.update_self]
  · rw [Function.update_of_ne hpath, Function.update_of_ne hpath, h p hp]

theorem Put.kept {out : Output Dir} {data : Bytes} {s₁ s₂ s₃ : FileSystem Dir}
    (h : Put out data s₁ s₂) (h' : Kept out s₂ s₃) : Put out data s₁ s₃ :=
  fun p hp => (h' p hp).trans (h p hp)

/-- **A step of a command** keeps what it knows. -/
theorem MainStep.knows (hstep : MainStep E I args (s, c) (s', c'))
    (halone : s.Alone args.output.tmp) (h : c.Knows E I args files s) :
    s'.Alone args.output.tmp ∧ c'.Knows E I args files s' := by
  cases hstep with
  | refuse | existsFails => exact ⟨halone, h ▸ .refl _ _⟩
  | mismatch | interrupted | askFails | readFails | readRaises | transformFails | transformRaises =>
    exact ⟨halone, h.1 ▸ .refl _ _⟩
  | pass hfree => exact ⟨halone, h, h ▸ hfree⟩
  | ask hask => exact ⟨halone, h.1, h.2, hask⟩
  | read hread hfits => exact ⟨halone, h.1, h.2.1, h.2.2, h.1 ▸ hread, hfits⟩
  | transform hresult =>
    obtain ⟨rfl, hfree, hask, hread, hfits⟩ := h
    exact ⟨halone, ⟨hfree, hask, hread, hfits, _, hresult⟩, ⟨halone, nofun, trivial, False.elim⟩,
      fun _ => .refl _ _, False.elim⟩
  | write hwrite =>
    obtain ⟨hmade, hundisturbed, hkept, hput⟩ := h
    obtain ⟨hinv, ⟨hsame, hiff⟩ | ⟨hput', hbefore, hafter⟩⟩ := hundisturbed.step hwrite
    · exact ⟨hinv.alone, hmade, hinv, fun h => (hkept fun h' => h (hiff.mpr h')).trans hsame,
        fun h => (hput (hiff.mp h)).kept hsame⟩
    · exact ⟨hinv.alone, hmade, hinv, fun h => absurd hafter h, fun _ => (hkept hbefore).put hput'⟩
  | returns => exact ⟨halone, ⟨_, _, _, h.1, h.2.2.2 rfl⟩, h.2.1.gone rfl⟩
  | writeRaisesLate => exact ⟨halone, ⟨_, _, _, h.1, h.2.2.2 trivial⟩, h.2.1.gone trivial⟩
  | writeRaises => exact ⟨halone, h.2.2.1 nofun⟩

/-- A command shares no file between two paths. -/
theorem MainStep.alone (hstep : MainStep E I args (s, c) (s', c')) {p : Dir × Bytes}
    (htmp : s.Alone args.output.tmp) (h : s.Alone p) : s'.Alone p := by
  cases hstep with
  | write hwrite =>
    cases hwrite.effect with
    | quiet hfiles => exact hfiles ▸ h
    | openTmp hfiles => exact hfiles ▸ h.openTruncate
    | write hfiles => exact hfiles ▸ h.congr rfl
    | replace _ hfiles => exact hfiles ▸ htmp.rename args.output.tmp_ne_path h
    | unlink hfiles => exact hfiles ▸ h.remove
  | _ => exact h

theorem MainRun.alone (h : MainRun E I args files s c) {p : Dir × Bytes}
    (htmp : files.Alone args.output.tmp) (hp : files.Alone p) : s.Alone p := by
  have hboth : s.Alone args.output.tmp ∧ s.Alone p := by
    induction h with
    | start => exact ⟨htmp, hp⟩
    | step _ hstep ih => exact ⟨hstep.alone ih.1 ih.1, hstep.alone ih.1 ih.2⟩
  exact hboth.2

theorem MainRun.knows (h : MainRun E I args files s c) (halone : files.Alone args.output.tmp) :
    s.Alone args.output.tmp ∧ c.Knows E I args files s := by
  induction h with
  | start => exact ⟨halone, rfl⟩
  | step _ hstep ih => exact hstep.knows ih.1 ih.2

/-- What a command that has replaced its output has made, and what one that has not has left. -/
theorem Main.Knows.kept_or_put (h : c.Knows E I args files s) :
    (¬ c.Replaced → Kept args.output files s) ∧ (c.Replaced → ∃ password source result,
      MadeOf E I args files password source result ∧ Put args.output result files s) ∧
    (c.Replaced → s.entry args.output.tmp = none) := by
  cases c with
  | start => exact ⟨fun _ => h ▸ .refl _ _, False.elim, False.elim⟩
  | asking | asked | loaded => exact ⟨fun _ => h.1 ▸ .refl _ _, False.elim, False.elim⟩
  | writing password source result w =>
    exact ⟨h.2.2.1, fun hr => ⟨_, _, _, h.1, h.2.2.2 hr⟩, h.2.1.gone⟩
  | exited code =>
    cases code with
    | zero => exact ⟨fun hr => absurd rfl hr, fun _ => h.1, fun _ => h.2⟩
    | succ code => exact ⟨fun _ => h, nofun, nofun⟩
  | exitedLate => exact ⟨fun hr => absurd trivial hr, fun _ => h.1, fun _ => h.2⟩
  | raised => exact ⟨fun _ => h, False.elim, False.elim⟩

/-- A command on its way comes to open its temporary. -/
theorem MadeOf.opens {password : Str} {source result : Bytes}
    (hmade : MadeOf E I args files password source result) :
    MainRun E I args files (files.openTruncate args.output.tmp).1
      (.writing password source result (.writing (files.openTruncate args.output.tmp).2 0)) := by
  obtain ⟨drawn, hresult⟩ := hmade.transformed
  have loaded : MainRun E I args files files (.loaded password source) :=
    ((MainRun.start.step (.pass hmade.free)).step (.ask hmade.asked)).step
      (.read hmade.reads hmade.fits)
  exact ((loaded.step (.transform hresult)).step (.write (.pass hmade.free))).step (.write .openTmp)

/-- A command that nothing fails returns. -/
theorem MadeOf.returns {password : Str} {source result : Bytes}
    (hmade : MadeOf E I args files password source result)
    (halone : files.Alone args.output.tmp) : ∃ s, MainRun E I args files s (.exited 0) := by
  obtain ⟨s, written⟩ : ∃ s, MainRun E I args files s
      (.writing password source result (.writing (files.openTruncate args.output.tmp).2
        result.length)) := by
    by_cases hempty : result.length = 0
    · rw [hempty]
      exact ⟨_, hmade.opens⟩
    · have written := hmade.opens.step (.write (@WriterStep.write _ _ _ _ _ _ 0 result.length
        (Nat.pos_of_ne_zero hempty) (Nat.zero_add _).le))
      rw [Nat.zero_add] at written
      exact ⟨_, written⟩
  have closed := ((written.step (.write .flush)).step (.write .sync)).step (.write .close)
  have hheld := (closed.knows halone).2.2.1.held _ rfl
  have replaced := closed.step (.write (.replace (by rw [hheld]; exact Option.some_ne_none _)))
  have hgone := (replaced.knows halone).2.2.1.gone rfl
  exact ⟨_, (replaced.step (.write (.gone hgone))).step .returns⟩

/-- An input that stands where the temporary is to be is lost, also without `--force`: it is emptied
before anything is written. -/
theorem MadeOf.input_lost {password : Str} {source result : Bytes}
    (hmade : MadeOf E I args files password source result) (htmp : args.input = args.output.tmp) :
    ∃ s c, MainRun E I args files s c ∧ ¬ c.Replaced ∧ s.read args.input = some [] := by
  refine ⟨_, _, hmade.opens, id, ?_⟩
  rw [htmp, read_eq_some]
  exact ⟨_, entry_openTruncate_self, content_openTruncate_self⟩

end

/-! ## A small command -/

/-- `krcm encrypt a b`, with the password `a`. -/
def encryptArgs : Args Unit where
  cmd := .encrypt false
  input := ((), ascii "a")
  output := ⟨(), ascii "b"⟩
  force := false
  password := some [0x61]
  password2 := none

/-- One file, `a`, of one byte. -/
def documentFile : FileSystem Unit := ((Files.empty _).create ((), ascii "a")).setContent 0 [7]

theorem documentFile_entry {p : Unit × Bytes} (h : p ≠ ((), ascii "a")) :
    documentFile.entry p = none := entry_create_of_ne h

theorem documentFile_read : documentFile.read ((), ascii "a") = some [7] :=
  read_eq_some.mpr ⟨0, rfl, content_setContent_self⟩

theorem documentFile_alone : documentFile.Alone encryptArgs.output.tmp :=
  .of_none (documentFile_entry (by decide))

theorem encryptArgs_run : ∃ n, ∀ m, n ≤ m → ∃ s,
    MainRun (Env.zero.withFuel m) .default encryptArgs documentFile s (.exited 0) := by
  obtain ⟨n, hn⟩ := (samplingTerminates_of_zero fun _ _ => rfl : SamplingTerminates Env.zero).fuel
  refine ⟨n, fun m hm => ?_⟩
  obtain ⟨_, _, hS⟩ := (hn m hm).sharedTables
  have haccepts : AcceptsWith (.text [0x61]) defaultIterations (List.replicate 16 0)
      (List.replicate 16 0) :=
    ⟨by simp only [Password.Encodable]; decide, List.cons_ne_nil _ _, by decide,
      List.length_replicate, List.length_replicate⟩
  have htaken : (Password.text [0x61]).Taken (Env.zero.withFuel m) := by
    refine Password.taken_withFuel.mpr ?_
    rintro _ ⟨⟩
    exact Env.takes_zero (by decide)
  obtain ⟨container, _, -, hwrite, -⟩ := encryptBytesWith_returns hS .default false
    (show [(7 : UInt8)].length < 2 ^ 62 by decide) haccepts htaken
  have hmade : MadeOf (Env.zero.withFuel m) .default encryptArgs documentFile [0x61] [7]
      container := by
    refine ⟨.inl (documentFile_entry (by decide)), rfl, documentFile_read, by decide,
      ⟨false, Vector.replicate 16 0, Vector.replicate 16 0⟩, ?_⟩
    exact hwrite
  exact hmade.returns documentFile_alone

/-! ## All or nothing -/

/-- **A command is all or nothing**, wherever it is stopped and whatever fails: until its `replace`
every path but its temporary reads as before, and from then on the output reads as what the command
makes of its input under the password, an output that was there only with `--force`, and the
temporary is gone. Exit 0 says so; so does exit 1 where the look for the temporary failed behind the
`replace`, and there alone. -/
theorem main_exact [DecidableEq Dir] (E : Env) (I : Interp) (args : Args Dir) (files : FileSystem Dir)
    (halone : files.Alone args.output.tmp) (s : FileSystem Dir) (c : Main)
    (h : MainRun E I args files s c) :
    (¬ c.Replaced → ∀ p, p ≠ args.output.tmp → s.read p = files.read p) ∧
    (c.Replaced → ∃ password source drawn result, args.ask = .password password ∧
      files.read args.input = some source ∧
      args.cmd.transform E I drawn password source = .ok result ∧
      (files.read args.output.path = none ∨ args.force = true) ∧
      s.read args.output.path = some result ∧ s.read args.output.tmp = none ∧
      ∀ p, p ≠ args.output.tmp → p ≠ args.output.path → s.read p = files.read p) := by
  obtain ⟨-, hknows⟩ := h.knows halone
  obtain ⟨hkept, hput, hgone⟩ := hknows.kept_or_put
  refine ⟨hkept, fun hr => ?_⟩
  obtain ⟨password, source, result, hmade, hput⟩ := hput hr
  obtain ⟨drawn, hresult⟩ := hmade.transformed
  refine ⟨password, source, drawn, result, hmade.asked, hmade.reads, hresult, ?_, ?_, ?_, ?_⟩
  · exact hmade.free.imp_left fun hnone => by rw [Files.read, hnone, Option.map_none]
  · rw [hput _ args.output.tmp_ne_path.symm, Function.update_self]
  · rw [Files.read, hgone hr, Option.map_none]
  · intro p hp hpath
    rw [hput p hp, Function.update_of_ne hpath]

theorem main_exact_encrypt : ∃ n s result,
    MainRun (Env.zero.withFuel n) .default encryptArgs documentFile s (.exited 0) ∧
      s.read ((), ascii "b") = some result ∧ s.read ((), ascii "a") = some [7] := by
  obtain ⟨n, hn⟩ := encryptArgs_run
  obtain ⟨s, h⟩ := hn n le_rfl
  obtain ⟨-, hreplaced⟩ := main_exact _ _ encryptArgs documentFile documentFile_alone s _ h
  obtain ⟨_, _, _, result, -, -, -, -, hresult, -, hrest⟩ := hreplaced rfl
  refine ⟨n, s, result, h, hresult, ?_⟩
  rw [hrest _ (by decide) (by decide), documentFile_read]

/-! ## Commands one after another -/

section
variable [DecidableEq Dir] {ι : Type}

/-- Commands one after another, each of them stopped anywhere. -/
inductive Mains (E : Env) (I : Interp) (args : ι → Args Dir) (files : FileSystem Dir) :
    FileSystem Dir → Prop where
  | start : Mains E I args files files
  | command {s s' : FileSystem Dir} {c : Main} (i : ι) (h : Mains E I args files s)
    (hrun : MainRun E I (args i) s s' c) : Mains E I args files s'

/-- What a path is to hold. -/
inductive Role where
  | any
  | clear (document : Bytes)
  | sealed (password : Str) (document : Bytes)

def Role.Holds (E : Env) (I : Interp) (data : Bytes) : Role → Prop
  | any => True
  | clear document => data = document
  | sealed password document =>
    ∀ native, decryptBytesWith E I native data (.text password) = .ok document

/-- Under a password a command makes data of the second role of data of the first. -/
def Cmd.Keeps (password : Str) : Cmd → Role → Role → Prop
  | _, _, .any => True
  | encrypt _, .clear document, .sealed password' document' =>
    password' = password ∧ document' = document
  | decrypt, .sealed password' document, .clear document' =>
    password' = password ∧ document' = document
  | _, _, _ => False

def IsTmp (args : ι → Args Dir) (p : Dir × Bytes) : Prop := ∃ i, p = (args i).output.tmp

/-- The paths have their roles: the files hold what they are to hold, and the commands keep it. No
command reads the temporary of another. -/
structure KeepingFiles (E : Env) (I : Interp) (args : ι → Args Dir) (files : FileSystem Dir)
    (role : Dir × Bytes → Role) : Prop where
  alone : ∀ i, files.Alone (args i).output.tmp
  input : ∀ i, ¬ IsTmp args (args i).input
  files : ∀ p, ¬ IsTmp args p → ∀ data, files.read p = some data → (role p).Holds E I data
  commands : ∀ i password, (args i).ask = .password password →
    (args i).cmd.Keeps password (role (args i).input) (role (args i).output.path)

/-- What `encrypt_bytes` makes of a file, `decrypt_bytes` opens. -/
theorem encryptBytesWith_opens {p : Hash → Table 256} {q : Hash → Table 32} {E : Env}
    (hS : SharedTables E p q) {I : Interp} {native : Bool} {data salt nonce container : Bytes}
    {password : Password} {iterations : Int} (hdata : data.length < 2 ^ 63)
    (h : encryptBytesWith E I native data password iterations salt nonce = .ok container) :
    container.length ≤ data.length + 4200 ∧
      ∀ native', decryptBytesWith E I native' container password = .ok data := by
  obtain ⟨passwordBytes, hp, hwrite⟩ := bind_eq_ok.mp h
  have hseals := encryptBytes_seals hS (by omega) hwrite
  have hsize := (hseals.length hS (by omega)).2
  refine ⟨hsize, fun native' => ?_⟩
  rw [decryptBytesWith_encoded hp]
  exact hseals.decryptBytes hS (by omega) (takes_of_encryptBytes hwrite)

omit [DecidableEq Dir] in
theorem MadeOf.holds {p : Hash → Table 256} {q : Hash → Table 32} {E : Env} (hS : SharedTables E p q)
    {I : Interp} {args : Args Dir} {files : FileSystem Dir} {password : Str} {source result : Bytes}
    (h : MadeOf E I args files password source result) {before after : Role}
    (hkeeps : args.cmd.Keeps password before after) (hsource : before.Holds E I source) :
    after.Holds E I result := by
  obtain ⟨drawn, hresult⟩ := h.transformed
  cases after with
  | any => trivial
  | clear document' =>
    cases hcmd : args.cmd <;> cases before <;> rw [hcmd] at hkeeps hresult <;>
      try exact hkeeps.elim
    obtain ⟨rfl, rfl⟩ := hkeeps
    exact ok.inj (hresult.symm.trans (hsource drawn.native))
  | sealed password' document' =>
    cases hcmd : args.cmd <;> cases before <;> rw [hcmd] at hkeeps hresult <;>
      try exact hkeeps.elim
    obtain ⟨rfl, rfl⟩ := hkeeps
    obtain rfl : source = _ := hsource
    exact (encryptBytesWith_opens hS h.fits hresult).2

/-- **Commands keep the documents**: where each path is to hold a document, in the clear or sealed
under a password, and each command makes of its input what its output is to hold, then whatever
commands are called, and wherever each of them fails or is stopped, every path that was there is there
and holds its document whole. -/
theorem mains_keep_documents (E : Env) (I : Interp) (hT : SamplingTerminates E) :
    ∃ n, ∀ m, n ≤ m → ∀ (args : ι → Args Dir) (files : FileSystem Dir)
      (role : Dir × Bytes → Role), KeepingFiles (E.withFuel m) I args files role →
      ∀ s, Mains (E.withFuel m) I args files s → ∀ p, ¬ IsTmp args p →
        (∀ data, s.read p = some data → (role p).Holds (E.withFuel m) I data) ∧
          (files.read p ≠ none → s.read p ≠ none) := by
  obtain ⟨n, hn⟩ := hT.fuel
  refine ⟨n, fun m hm args files role hkeeping s h => ?_⟩
  obtain ⟨_, _, hS⟩ := (hn m hm).sharedTables
  have halone (s : FileSystem Dir) (h : Mains (E.withFuel m) I args files s) (i : ι) :
      s.Alone (args i).output.tmp := by
    induction h generalizing i with
    | start => exact hkeeping.alone i
    | command j _ hrun ih => exact hrun.alone (ih j) (ih i)
  induction h with
  | start => exact fun p hp => ⟨hkeeping.files p hp, id⟩
  | @command s s' c i hmains hrun ih =>
    intro p hp
    have hne : p ≠ (args i).output.tmp := fun heq => hp ⟨i, heq⟩
    obtain ⟨hkept, hput, -⟩ := (hrun.knows (halone s hmains i)).2.kept_or_put
    by_cases hr : c.Replaced
    · obtain ⟨password, source, result, hmade, hput⟩ := hput hr
      rw [hput p hne]
      by_cases hpath : p = (args i).output.path
      · subst hpath
        rw [Function.update_self]
        refine ⟨fun data hdata => ?_, fun _ => Option.some_ne_none _⟩
        obtain rfl := Option.some.inj hdata
        exact hmade.holds hS (hkeeping.commands i password hmade.asked)
          ((ih _ (hkeeping.input i)).1 source hmade.reads)
      · rw [Function.update_of_ne hpath]
        exact ih p hp
    · rw [hkept hr p hne]
      exact ih p hp

end

/-- `krcm decrypt b c`, with the same password. -/
def decryptArgs : Args Unit where
  cmd := .decrypt
  input := ((), ascii "b")
  output := ⟨(), ascii "c"⟩
  force := false
  password := some [0x61]
  password2 := none

/-- The one command, and the other after it. -/
def bothArgs (i : Bool) : Args Unit := if i then encryptArgs else decryptArgs

/-- `a` and `c` hold the document, and `b` its container. -/
def bothRoles (p : Unit × Bytes) : Role :=
  if p = ((), ascii "b") then .sealed [0x61] [7] else .clear [7]

theorem bothArgs_tmp {p : Unit × Bytes} (hb : p ≠ encryptArgs.output.tmp)
    (hc : p ≠ decryptArgs.output.tmp) : ¬ IsTmp bothArgs p := by
  rintro ⟨i, h⟩
  cases i
  · exact hc h
  · exact hb h

theorem bothArgs_keeping (E : Env) : KeepingFiles E .default bothArgs documentFile bothRoles where
  alone i := by
    cases i
    · exact .of_none (documentFile_entry (by decide))
    · exact documentFile_alone
  input i := by cases i <;> exact bothArgs_tmp (by decide) (by decide)
  files p _ data hp := by
    by_cases heq : p = ((), ascii "a")
    · subst heq
      rw [documentFile_read] at hp
      cases hp
      rfl
    · rw [Files.read, documentFile_entry heq] at hp
      cases hp
  commands i password hpassword := by
    cases i <;> cases hpassword <;> exact ⟨rfl, rfl⟩

theorem mains_keep_documents_both : ∃ m s data,
    Mains (Env.zero.withFuel m) .default bothArgs documentFile s ∧
      s.read ((), ascii "b") = some data ∧
      (∀ native, decryptBytesWith (Env.zero.withFuel m) .default native data (.text [0x61]) =
        .ok [7]) ∧
      s.read ((), ascii "c") = some [7] := by
  have hT : SamplingTerminates Env.zero := samplingTerminates_of_zero fun _ _ => rfl
  obtain ⟨n, hn⟩ := encryptArgs_run
  obtain ⟨n', hn'⟩ := hT.fuel
  obtain ⟨k, hk⟩ := @mains_keep_documents Unit _ Bool Env.zero .default hT
  obtain ⟨m, hm, hm', hkm⟩ : ∃ m, n ≤ m ∧ n' ≤ m ∧ k ≤ m :=
    ⟨n + n' + k, by omega, by omega, by omega⟩
  obtain ⟨s, hencrypted⟩ := hn m hm
  obtain ⟨_, _, hS⟩ := (hn' m hm').sharedTables
  have hkept := hk m hkm bothArgs documentFile bothRoles (bothArgs_keeping _)
  have hb : ¬ IsTmp bothArgs ((), ascii "b") := bothArgs_tmp (by decide) (by decide)
  have hc : ¬ IsTmp bothArgs ((), ascii "c") := bothArgs_tmp (by decide) (by decide)
  have hfirst : Mains (Env.zero.withFuel m) .default bothArgs documentFile s :=
    .command true .start hencrypted
  obtain ⟨_, _, container, hsealed, hput⟩ :=
    (hencrypted.knows documentFile_alone).2.kept_or_put.2.1 rfl
  have hcontainer : s.read ((), ascii "b") = some container := by
    rw [hput _ (by decide)]
    exact Function.update_self ..
  have hopens := (hkept s hfirst _ hb).1 container hcontainer
  -- The second command finds no `c`, and the container of the first.
  have hfree : s.entry ((), ascii "c") = none := by
    have hread : s.read ((), ascii "c") = none := by
      rw [hput _ (by decide), Function.update_of_ne (by decide), Files.read,
        documentFile_entry (by decide), Option.map_none]
    exact Option.map_eq_none_iff.mp hread
  have hfits : container.length < 2 ^ 63 := by
    obtain ⟨_, hwrite⟩ := hsealed.transformed
    cases documentFile_read.symm.trans hsealed.reads
    have hlen := (encryptBytesWith_opens hS (by decide) hwrite).1
    rw [List.length_singleton] at hlen
    omega
  have hmade : MadeOf (Env.zero.withFuel m) .default decryptArgs s [0x61] container [7] :=
    ⟨.inl hfree, rfl, hcontainer, hfits,
      ⟨false, Vector.replicate 16 0, Vector.replicate 16 0⟩, hopens false⟩
  have halone : s.Alone decryptArgs.output.tmp :=
    hencrypted.alone documentFile_alone (.of_none (documentFile_entry (by decide)))
  obtain ⟨s', hdecrypted⟩ := hmade.returns halone
  have hboth : Mains (Env.zero.withFuel m) .default bothArgs documentFile s' :=
    .command false hfirst hdecrypted
  obtain ⟨_, _, plain, -, hput'⟩ := (hdecrypted.knows halone).2.kept_or_put.2.1 rfl
  have hplain : s'.read ((), ascii "c") = some plain := by
    rw [hput' _ (by decide)]
    exact Function.update_self ..
  have hclear : plain = [7] := (hkept s' hboth _ hc).1 plain hplain
  refine ⟨m, s', container, hboth, ?_, hopens, hclear ▸ hplain⟩
  rw [hput' _ (by decide), Function.update_of_ne (by decide), hcontainer]

end Krcm.Py
