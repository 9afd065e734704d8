import Krcm.Base.Files
import Krcm.Base.Trace
import Krcm.Env

/-!
# _atomic_write

The runs of `_atomic_write` of `cli.py` on one output path, as steps on the
files they share. All of them open one temporary, `path.name + ".tmp"`, with
truncation: a run that opens it while another is under way empties the other's
file (`overlap_tears`). Where no run does, the output is replaced by complete
data or not at all (`exclusive_not_torn`).
-/

namespace Krcm.Py

open Base

abbrev FileSystem (Dir : Type) := Files (Dir × Bytes)

structure Output (Dir : Type) where
  directory : Dir
  name : Bytes

namespace Output

variable {Dir : Type}

def path (out : Output Dir) : Dir × Bytes := (out.directory, out.name)

/-- `path.with_name(path.name + ".tmp")`. -/
def tmp (out : Output Dir) : Dir × Bytes := (out.directory, out.name ++ ascii ".tmp")

theorem tmp_ne_path (out : Output Dir) : out.tmp ≠ out.path := by
  intro h
  have hlen := congrArg (fun p => p.2.length) h
  have hsuffix : (ascii ".tmp").length = 4 := rfl
  simp only [tmp, path, List.length_append, hsuffix] at hlen
  omega

end Output

/-! ## Steps -/

/-- The arguments besides the path. -/
structure Request where
  data : Bytes
  overwrite : Bool

/-- Where a run stands, with the file it has opened. -/
inductive Writer where
  | start
  | opening
  | writing (file written : Nat)
  | flushed (file : Nat)
  | synced (file : Nat)
  /-- Behind the `with`. -/
  | closed (file : Nat)
  /-- An exception leaves the `with`; closing the handle may still write out its buffer. -/
  | failing (file written : Nat)
  /-- In the `finally`; `replaced` says that no exception is on its way. -/
  | cleanup (replaced : Bool)
  | unlinking (replaced : Bool)
  /-- Returned, or raised. -/
  | ended (replaced : Bool)
  /-- Raised behind the `replace`. -/
  | endedLate

variable {Dir : Type}

section
variable [DecidableEq Dir]

/-- The steps of `_atomic_write`. -/
inductive WriterStep (out : Output Dir) (req : Request) :
    FileSystem Dir × Writer → FileSystem Dir × Writer → Prop where
  | refuse {s : FileSystem Dir} (hexists : s.entry out.path ≠ none) (h : req.overwrite = false) :
    WriterStep out req (s, .start) (s, .ended false)
  | pass {s : FileSystem Dir} (h : s.entry out.path = none ∨ req.overwrite = true) :
    WriterStep out req (s, .start) (s, .opening)
  | existsFails {s : FileSystem Dir} : WriterStep out req (s, .start) (s, .ended false)
  -- `open(tmp, "wb")`
  | openTmp {s : FileSystem Dir} : WriterStep out req (s, .opening)
      ((s.openTruncate out.tmp).1, .writing (s.openTruncate out.tmp).2 0)
  | openFails {s : FileSystem Dir} : WriterStep out req (s, .opening) (s, .cleanup false)
  -- `handle.write(data)` and `handle.flush()`, in pieces of any size
  | write {s : FileSystem Dir} {file written n : Nat} (hn : 0 < n)
    (hrest : written + n ≤ req.data.length) :
    WriterStep out req (s, .writing file written)
      (s.writeAt file written ((req.data.drop written).take n), .writing file (written + n))
  | flush {s : FileSystem Dir} {file : Nat} :
    WriterStep out req (s, .writing file req.data.length) (s, .flushed file)
  | writeFails {s : FileSystem Dir} {file written : Nat} :
    WriterStep out req (s, .writing file written) (s, .failing file written)
  | sync {s : FileSystem Dir} {file : Nat} :
    WriterStep out req (s, .flushed file) (s, .synced file)
  | syncFails {s : FileSystem Dir} {file : Nat} :
    WriterStep out req (s, .flushed file) (s, .failing file req.data.length)
  | close {s : FileSystem Dir} {file : Nat} :
    WriterStep out req (s, .synced file) (s, .closed file)
  | closeFails {s : FileSystem Dir} {file : Nat} :
    WriterStep out req (s, .synced file) (s, .cleanup false)
  | writeBuffer {s : FileSystem Dir} {file written n : Nat} (hn : 0 < n)
    (hrest : written + n ≤ req.data.length) :
    WriterStep out req (s, .failing file written)
      (s.writeAt file written ((req.data.drop written).take n), .failing file (written + n))
  | closeFailing {s : FileSystem Dir} {file written : Nat} :
    WriterStep out req (s, .failing file written) (s, .cleanup false)
  -- `os.replace(tmp, path)`
  | replace {s : FileSystem Dir} {file : Nat} (h : s.entry out.tmp ≠ none) :
    WriterStep out req (s, .closed file) (s.rename out.tmp out.path, .cleanup true)
  | replaceFails {s : FileSystem Dir} {file : Nat} :
    WriterStep out req (s, .closed file) (s, .cleanup false)
  -- `tmp.exists()` and `tmp.unlink()`
  | gone {s : FileSystem Dir} {replaced : Bool} (h : s.entry out.tmp = none) :
    WriterStep out req (s, .cleanup replaced) (s, .ended replaced)
  | exists {s : FileSystem Dir} {replaced : Bool} (h : s.entry out.tmp ≠ none) :
    WriterStep out req (s, .cleanup replaced) (s, .unlinking replaced)
  | tmpExistsFails {s : FileSystem Dir} : WriterStep out req (s, .cleanup false) (s, .ended false)
  | tmpExistsFailsLate {s : FileSystem Dir} : WriterStep out req (s, .cleanup true) (s, .endedLate)
  | unlink {s : FileSystem Dir} {replaced : Bool} (h : s.entry out.tmp ≠ none) :
    WriterStep out req (s, .unlinking replaced) (s.remove out.tmp, .ended replaced)
  | unlinkFails {s : FileSystem Dir} {replaced : Bool} :
    WriterStep out req (s, .unlinking replaced) (s, .ended replaced)

end

/-! ## What a step changes -/

namespace Writer

/-- The file of a run between its `open` and its `replace`. -/
def file : Writer → Option Nat
  | writing file _ | flushed file | synced file | closed file | failing file _ => some file
  | _ => none

/-- What the file of the run holds, as far as the run goes on with it. -/
def Written (data : Bytes) (content : Nat → Bytes) : Writer → Prop
  | writing file written => written ≤ data.length ∧ content file = data.take written
  | flushed file | synced file | closed file => content file = data
  | _ => True

theorem Written.of_none {data : Bytes} {content : Nat → Bytes} {c : Writer} (h : c.file = none) :
    c.Written data content := by
  cases c <;> trivial

/-- The `replace` is done. -/
def Replaced : Writer → Prop
  | cleanup replaced | unlinking replaced | ended replaced => replaced = true
  | endedLate => True
  | _ => False

end Writer

section
variable [DecidableEq Dir]

/-- What a step does to the files, and to the file of the run. -/
inductive WriterEffect (out : Output Dir) (data : Bytes) (s : FileSystem Dir) (c : Writer)
    (s' : FileSystem Dir) (c' : Writer) : Prop where
  | quiet (hfiles : s' = s) (hfile : c'.file = c.file ∨ c'.file = none)
    (hwritten : c.Written data s.content → c'.Written data s.content)
    (hreplaced : c'.Replaced ↔ c.Replaced)
  | openTmp (hfiles : s' = (s.openTruncate out.tmp).1) (hbefore : c = .opening)
    (hafter : c' = .writing (s.openTruncate out.tmp).2 0)
  | write {file pos : Nat} {chunk : Bytes} (hfiles : s' = s.writeAt file pos chunk)
    (hbefore : c.file = some file) (hafter : c'.file = some file)
    (hwritten : c.Written data s.content → c'.Written data s'.content)
    (hreplaced : ¬ c'.Replaced ∧ ¬ c.Replaced)
  | replace {file : Nat} (hthere : s.entry out.tmp ≠ none) (hfiles : s' = s.rename out.tmp out.path)
    (hbefore : c = .closed file) (hafter : c' = .cleanup true)
  | unlink (hfiles : s' = s.remove out.tmp) (hbefore : c.file = none) (hafter : c'.file = none)
    (hwritten : ∀ content, c'.Written data content) (hreplaced : c'.Replaced ↔ c.Replaced)

theorem WriterStep.effect {out : Output Dir} {req : Request} {s s' : FileSystem Dir} {c c' : Writer}
    (h : WriterStep out req (s, c) (s', c')) : WriterEffect out req.data s c s' c' := by
  cases h with
  | openTmp => exact .openTmp rfl rfl rfl
  | @write _ file written n hn hrest =>
    refine .write rfl rfl rfl (fun hw => ⟨hrest, ?_⟩) ⟨id, id⟩
    obtain ⟨hle, hdata⟩ := hw
    have hlen : written = (s.content file).length := by
      rw [hdata, List.length_take, Nat.min_eq_left hle]
    unfold Files.writeAt
    rw [Files.content_setContent_self, overwrite_append hlen, hdata, ← List.take_add]
  | writeBuffer => exact .write rfl rfl rfl (fun _ => trivial) ⟨id, id⟩
  | replace h => exact .replace h rfl rfl rfl
  | unlink => exact .unlink rfl rfl rfl (fun _ => trivial) Iff.rfl
  | flush =>
    refine .quiet rfl (.inl rfl) (fun hw => ?_) Iff.rfl
    have hall := hw.2
    rw [List.take_length] at hall
    exact hall
  | sync => exact .quiet rfl (.inl rfl) id Iff.rfl
  | close => exact .quiet rfl (.inl rfl) id Iff.rfl
  | writeFails => exact .quiet rfl (.inl rfl) (fun _ => trivial) Iff.rfl
  | syncFails => exact .quiet rfl (.inl rfl) (fun _ => trivial) Iff.rfl
  | _ => exact .quiet rfl (.inr rfl) (fun _ => trivial) (by simp [Writer.Replaced])

end

/-! ## Exclusive runs -/

/-- The files, and the runs on the output path. -/
abbrev Writers (Dir ι : Type) := Parties (FileSystem Dir) Writer ι

section
variable {ι : Type} (out : Output Dir) (req : ι → Request)

/-- A run makes a step. -/
abbrev WritersStep [DecidableEq Dir] (a : Writers Dir ι) (i : ι) (b : Writers Dir ι) : Prop :=
  a.Step (fun i => WriterStep out (req i)) i b

/-- A run opens the temporary only while no other is between its `open` and its `replace`. -/
def Exclusive (m : Move (Writers Dir ι) ι) : Prop :=
  m.before.own m.actor = .opening → (∃ file, m.after.own m.actor = .writing file 0) →
    ∀ j, j ≠ m.actor → (m.before.own j).file = none

/-- The move leaves the output, or replaces it by the data of its run. -/
def Change [DecidableEq Dir] (m : Move (Writers Dir ι) ι) : Prop :=
  m.after.shared.read out.path = m.before.shared.read out.path ∧
      ((m.after.own m.actor).Replaced ↔ (m.before.own m.actor).Replaced) ∨
    (∃ file, m.before.own m.actor = .closed file) ∧ m.after.own m.actor = .cleanup true ∧
      m.after.shared = m.before.shared.rename out.tmp out.path ∧
      m.after.shared.read out.path = some (req m.actor).data

/-- What holds at all times of exclusive runs. -/
structure WritersInv (a : Writers Dir ι) : Prop where
  alone : ∀ i j, (a.own i).file ≠ none → (a.own j).file ≠ none → i = j
  file_lt : ∀ i file, (a.own i).file = some file → file < a.shared.next
  /-- The temporary leads to the file of the run under way. -/
  tmp : ∀ i file, (a.own i).file = some file → ∀ k, a.shared.entry out.tmp = some k → k = file
  /-- Nothing leads to the file of the output but the output. -/
  output : ∀ k, a.shared.entry out.path = some k →
    a.shared.entry out.tmp ≠ some k ∧ ∀ i, (a.own i).file ≠ some k
  written : ∀ i, (a.own i).Written (req i).data a.shared.content

end

namespace WritersInv

variable {ι : Type} {out : Output Dir} {req : ι → Request} {a b : Writers Dir ι} {i : ι}

theorem start {files : FileSystem Dir}
    (hlinks : ∀ k, files.entry out.path = some k → files.entry out.tmp ≠ some k) :
    WritersInv out req ⟨files, fun _ => .start⟩ where
  alone _ _ h := absurd rfl h
  file_lt _ _ h := by cases h
  tmp _ _ h := by cases h
  output k hk := ⟨hlinks k hk, fun _ => (Option.some_ne_none k).symm⟩
  written _ := trivial

variable (h : WritersInv out req a) (hothers : ∀ j, j ≠ i → b.own j = a.own j)
include h

/-- No run opens a file. -/
theorem shrink (hnext : a.shared.next ≤ b.shared.next)
    (hfile : ∀ j file, (b.own j).file = some file → (a.own j).file = some file)
    (htmp : ∀ k, b.shared.entry out.tmp = some k → a.shared.entry out.tmp = some k)
    (houtput : ∀ k, b.shared.entry out.path = some k →
      b.shared.entry out.tmp ≠ some k ∧ ∀ j, (b.own j).file ≠ some k)
    (hwritten : ∀ j, (b.own j).Written (req j).data b.shared.content) : WritersInv out req b where
  alone j j' hj hj' := by
    obtain ⟨file, hfile'⟩ := Option.ne_none_iff_exists'.mp hj
    obtain ⟨file', hfile''⟩ := Option.ne_none_iff_exists'.mp hj'
    refine h.alone j j' ?_ ?_
    · rw [hfile j file hfile']
      exact Option.some_ne_none file
    · rw [hfile j' file' hfile'']
      exact Option.some_ne_none file'
  file_lt j file hj := (h.file_lt j file (hfile j file hj)).trans_le hnext
  tmp j file hj k hk := h.tmp j file (hfile j file hj) k (htmp k hk)
  output := houtput
  written := hwritten

/-- The other runs have no file while one has. -/
theorem others_none {file : Nat} (hi : (a.own i).file = some file) {j : ι} (hj : j ≠ i) :
    (a.own j).file = none := by
  by_contra hne
  exact hj (h.alone j i hne (by rw [hi]; exact Option.some_ne_none file))

include hothers

theorem quiet (hfiles : b.shared = a.shared)
    (hfile : (b.own i).file = (a.own i).file ∨ (b.own i).file = none)
    (hwritten : (a.own i).Written (req i).data a.shared.content →
      (b.own i).Written (req i).data a.shared.content) : WritersInv out req b := by
  have hsub (j : ι) (file : Nat) (hj : (b.own j).file = some file) : (a.own j).file = some file := by
    by_cases hji : j = i
    · rw [hji] at hj ⊢
      rcases hfile with hsame | hnone
      · exact hsame.symm.trans hj
      · cases hnone.symm.trans hj
    · rw [← hothers j hji]
      exact hj
  refine h.shrink (by rw [hfiles]) hsub (by simp only [hfiles, imp_self, implies_true]) ?_ ?_
  · intro k hk
    rw [hfiles] at hk ⊢
    exact ⟨(h.output k hk).1, fun j hj => (h.output k hk).2 j (hsub j k hj)⟩
  · intro j
    rw [hfiles]
    by_cases hji : j = i
    · rw [hji]
      exact hwritten (h.written i)
    · rw [hothers j hji]
      exact h.written j

theorem write {file pos : Nat} {chunk : Bytes} (hfiles : b.shared = a.shared.writeAt file pos chunk)
    (hbefore : (a.own i).file = some file) (hafter : (b.own i).file = some file)
    (hwritten : (a.own i).Written (req i).data a.shared.content →
      (b.own i).Written (req i).data b.shared.content) : WritersInv out req b := by
  have hentry : b.shared.entry = a.shared.entry := by rw [hfiles]; rfl
  have hsub (j : ι) : (b.own j).file = (a.own j).file := by
    by_cases hji : j = i
    · rw [hji, hafter, hbefore]
    · rw [hothers j hji]
  refine h.shrink (by rw [hfiles]; rfl) (fun j file hj => hsub j ▸ hj) (fun k hk => hentry ▸ hk) ?_ ?_
  · intro k hk
    rw [hentry] at hk ⊢
    exact ⟨(h.output k hk).1, fun j => hsub j ▸ (h.output k hk).2 j⟩
  · intro j
    by_cases hji : j = i
    · rw [hji]
      exact hwritten (h.written i)
    · exact .of_none ((hsub j).trans (h.others_none hbefore hji))

variable [DecidableEq Dir]

omit hothers in
/-- The file that is opened is not the one of the output. -/
theorem opened_ne {k : Nat} (hk : a.shared.entry out.path = some k) :
    k ≠ (a.shared.openTruncate out.tmp).2 := by
  rcases a.shared.openTruncate_file out.tmp with hold | hnew
  · exact fun heq => (h.output k hk).1 (heq ▸ hold)
  · rw [hnew]
    have hlt := a.shared.entry_lt hk
    omega

theorem openTmp (hexclusive : ∀ j, j ≠ i → (a.own j).file = none)
    (hfiles : b.shared = (a.shared.openTruncate out.tmp).1)
    (hafter : b.own i = .writing (a.shared.openTruncate out.tmp).2 0) : WritersInv out req b := by
  have hnone {j : ι} (hj : j ≠ i) : (b.own j).file = none := by
    rw [hothers j hj]
    exact hexclusive j hj
  have hfile {j : ι} {file : Nat} (hj : (b.own j).file = some file) :
      j = i ∧ file = (a.shared.openTruncate out.tmp).2 := by
    by_cases hji : j = i
    · rw [hji, hafter] at hj
      exact ⟨hji, (Option.some.inj hj).symm⟩
    · cases (hnone hji).symm.trans hj
  have htmp : b.shared.entry out.tmp = some (a.shared.openTruncate out.tmp).2 := by
    rw [hfiles, Files.entry_openTruncate_self]
  have hpath : b.shared.entry out.path = a.shared.entry out.path := by
    rw [hfiles, Files.entry_openTruncate_of_ne out.tmp_ne_path.symm]
  refine ⟨?_, ?_, ?_, ?_, ?_⟩
  · intro j j' hj hj'
    obtain ⟨file, hfile'⟩ := Option.ne_none_iff_exists'.mp hj
    obtain ⟨file', hfile''⟩ := Option.ne_none_iff_exists'.mp hj'
    exact (hfile hfile').1.trans (hfile hfile'').1.symm
  · intro j file hj
    obtain ⟨-, rfl⟩ := hfile hj
    exact b.shared.entry_lt htmp
  · intro j file hj k hk
    obtain ⟨-, rfl⟩ := hfile hj
    exact Option.some.inj (hk.symm.trans htmp)
  · intro k hk
    rw [hpath] at hk
    rw [htmp]
    exact ⟨fun heq => h.opened_ne hk (Option.some.inj heq).symm,
      fun j hj => h.opened_ne hk (hfile hj).2⟩
  · intro j
    by_cases hji : j = i
    · rw [hji, hafter, hfiles]
      exact ⟨Nat.zero_le _, Files.content_openTruncate_self⟩
    · exact Writer.Written.of_none (hnone hji)

theorem replace {file : Nat} (hthere : a.shared.entry out.tmp ≠ none)
    (hfiles : b.shared = a.shared.rename out.tmp out.path) (hbefore : a.own i = .closed file)
    (hafter : b.own i = .cleanup true) :
    WritersInv out req b ∧ b.shared.read out.path = some (req i).data := by
  have hi : (a.own i).file = some file := by rw [hbefore]; rfl
  obtain ⟨k, hk⟩ := Option.ne_none_iff_exists'.mp hthere
  have htmp : a.shared.entry out.tmp = some file := by rw [hk, h.tmp i file hi k hk]
  have hdiffer : a.shared.entry out.tmp ≠ a.shared.entry out.path := by
    rw [htmp]
    exact fun heq => (h.output file heq.symm).1 htmp
  have hnone (j : ι) : (b.own j).file = none := by
    by_cases hji : j = i
    · rw [hji, hafter]
      rfl
    · rw [hothers j hji]
      exact h.others_none hi hji
  have hsource : b.shared.entry out.tmp = none := by rw [hfiles, Files.entry_rename_source hdiffer]
  have htarget : b.shared.entry out.path = some file := by
    rw [hfiles, Files.entry_rename_target out.tmp_ne_path, htmp]
  have hdata := h.written i
  rw [hbefore] at hdata
  refine ⟨h.shrink (by rw [hfiles, Files.next_rename]) ?_ ?_ ?_ ?_, ?_⟩
  · intro j file' hj
    cases (hnone j).symm.trans hj
  · intro k' hk'
    cases hsource.symm.trans hk'
  · intro k' hk'
    rw [hsource]
    refine ⟨(Option.some_ne_none k').symm, fun j hj => ?_⟩
    cases (hnone j).symm.trans hj
  · exact fun j => .of_none (hnone j)
  · refine Files.read_eq_some.mpr ⟨file, htarget, ?_⟩
    rw [hfiles, Files.content_rename]
    exact hdata

theorem unlink (hfiles : b.shared = a.shared.remove out.tmp)
    (hfile : ∀ j, (b.own j).file = (a.own j).file)
    (hwritten : ∀ content, (b.own i).Written (req i).data content) : WritersInv out req b := by
  have hpath : b.shared.entry out.path = a.shared.entry out.path := by
    rw [hfiles, Files.entry_remove_of_ne out.tmp_ne_path.symm]
  have hsource : b.shared.entry out.tmp = none := by rw [hfiles, Files.entry_remove_self]
  refine h.shrink (by rw [hfiles, Files.next_remove]) (fun j file hj => hfile j ▸ hj) ?_ ?_ ?_
  · intro k hk
    cases hsource.symm.trans hk
  · intro k hk
    rw [hpath] at hk
    rw [hsource]
    exact ⟨(Option.some_ne_none k).symm, fun j => hfile j ▸ (h.output k hk).2 j⟩
  · intro j
    by_cases hji : j = i
    · rw [hji]
      exact hwritten _
    · rw [hothers j hji, hfiles, Files.content_remove]
      exact h.written j

omit hothers

/-- **A step of exclusive runs** keeps the invariant, and leaves the output or replaces it by the data
of its run. -/
theorem step (hstep : WritersStep out req a i b) (hexclusive : Exclusive ⟨a, i, b⟩) :
    WritersInv out req b ∧ Change out req ⟨a, i, b⟩ := by
  have hothers := hstep.others
  cases hstep.moves.effect with
  | quiet hfiles hfile hwritten hreplaced =>
    exact ⟨h.quiet hothers hfiles hfile hwritten, .inl ⟨by rw [hfiles], hreplaced⟩⟩
  | openTmp hfiles hbefore hafter =>
    have halone := hexclusive hbefore ⟨_, hafter⟩
    refine ⟨h.openTmp hothers halone hfiles hafter, .inl ⟨?_, by rw [hbefore, hafter]; exact Iff.rfl⟩⟩
    rw [hfiles]
    refine Files.read_congr (Files.entry_openTruncate_of_ne out.tmp_ne_path.symm) fun k hk => ?_
    exact Files.content_openTruncate_of_ne (h.opened_ne hk)
  | @write file pos chunk hfiles hbefore hafter hwritten hreplaced =>
    refine ⟨h.write hothers hfiles hbefore hafter hwritten,
      .inl ⟨?_, iff_of_false hreplaced.1 hreplaced.2⟩⟩
    rw [hfiles]
    refine Files.read_congr rfl fun k hk => Files.content_setContent_of_ne fun heq => ?_
    exact (h.output k hk).2 i (heq ▸ hbefore)
  | @replace file hthere hfiles hbefore hafter =>
    obtain ⟨hinv, hread⟩ := h.replace hothers hthere hfiles hbefore hafter
    exact ⟨hinv, .inr ⟨⟨file, hbefore⟩, hafter, hfiles, hread⟩⟩
  | unlink hfiles hbefore hafter hwritten hreplaced =>
    have hfile (j : ι) : (b.own j).file = (a.own j).file := by
      by_cases hji : j = i
      · rw [hji, hbefore, hafter]
      · rw [hothers j hji]
    refine ⟨h.unlink hothers hfiles hfile hwritten, .inl ⟨?_, hreplaced⟩⟩
    rw [hfiles]
    exact Files.read_congr (Files.entry_remove_of_ne out.tmp_ne_path.symm) fun _ _ => rfl

end WritersInv

/-! ## Runs -/

section
variable [DecidableEq Dir] {ι : Type}

/-- Runs on one output path, from their beginning. -/
abbrev WritersRun (out : Output Dir) (req : ι → Request) (files : FileSystem Dir)
    (moves : List (Move (Writers Dir ι) ι)) (t : Writers Dir ι) : Prop :=
  Trace (WritersStep out req) ⟨files, fun _ => .start⟩ moves t

/-- **Exclusive runs tear no output**, whichever of their system calls fail. Where no run opens the
temporary while another is between its `open` and its `replace`, the output holds at all times what it
held or the data of a run, a step leaves it or puts the data of its run there, and a run that returned
has installed its data by its `replace`. The files begin with no link between the temporary and the
output. -/
theorem exclusive_not_torn (out : Output Dir) (req : ι → Request) (files : FileSystem Dir)
    (hlinks : ∀ k, files.entry out.path = some k → files.entry out.tmp ≠ some k)
    (moves : List (Move (Writers Dir ι) ι)) (t : Writers Dir ι)
    (h : WritersRun out req files moves t) (hexclusive : ∀ m ∈ moves, Exclusive m) :
    (t.shared.read out.path = files.read out.path ∨
      ∃ i, t.shared.read out.path = some (req i).data) ∧
    (∀ m ∈ moves, m.after.shared.read out.path = m.before.shared.read out.path ∨
      m.after.shared.read out.path = some (req m.actor).data) ∧
    ∀ i, t.own i = .ended true → ∃ m ∈ moves, m.actor = i ∧
      (∃ file, m.before.own i = .closed file) ∧
      m.after.shared = m.before.shared.rename out.tmp out.path ∧
      m.after.shared.read out.path = some (req i).data := by
  have hkeep (a : Writers Dir ι) (i : ι) (b : Writers Dir ι) (ha : WritersInv out req a)
      (hstep : WritersStep out req a i b) (hallowed : Exclusive ⟨a, i, b⟩) : WritersInv out req b :=
    (ha.step hstep hallowed).1
  have hmove (m : Move (Writers Dir ι) ι) (hm : m ∈ moves) :
      WritersStep out req m.before m.actor m.after ∧ Change out req m := by
    obtain ⟨hinv, hstep⟩ := h.invariant_of_before hkeep hexclusive (.start hlinks) hm
    exact ⟨hstep, (hinv.step hstep (hexclusive m hm)).2⟩
  have hread (m : Move (Writers Dir ι) ι) (hm : m ∈ moves) :
      m.after.shared.read out.path = m.before.shared.read out.path ∨
        m.after.shared.read out.path = some (req m.actor).data :=
    (hmove m hm).2.imp (fun hkept => hkept.1) fun hreplaced => hreplaced.2.2.2
  refine ⟨?_, hread, fun i hi => ?_⟩
  · refine h.kept_or (f := fun a => a.shared.read out.path)
      (D := fun content => ∃ i, content = some (req i).data) fun m hm => ?_
    exact (hread m hm).imp_right fun hdata => ⟨_, hdata⟩
  · obtain ⟨m, hm, hbefore, hafter⟩ := h.crossing (P := fun a => (a.own i).Replaced) id
      (by rw [hi]; rfl)
    obtain ⟨hstep, hchange⟩ := hmove m hm
    have hactor : m.actor = i := by
      by_contra hne
      rw [hstep.others i (Ne.symm hne)] at hafter
      exact hbefore hafter
    subst hactor
    rcases hchange with ⟨-, hreplaced⟩ | ⟨hclosed, -, hfiles, hdata⟩
    · exact absurd (hreplaced.mp hafter) hbefore
    · exact ⟨m, hm, rfl, hclosed, hfiles, hdata⟩

end

/-- Two runs, both under way at once, of which the second opens the temporary behind the `replace` of
the first. -/
theorem exclusive_not_torn_returned : ∃ moves t,
    WritersRun (⟨(), ascii "o"⟩ : Output Unit) (fun i : Bool => ⟨if i then [1] else [2], true⟩)
        (.empty _) moves t ∧
      (∀ i, t.own i = .ended true) ∧
      ∀ i : Bool, ∃ m ∈ moves, m.actor = i ∧
        m.after.shared.read ((), ascii "o") = some (if i then [1] else [2]) := by
  have begun : WritersRun (⟨(), ascii "o"⟩ : Output Unit)
    (fun i : Bool => ⟨if i then [1] else [2], true⟩) (.empty _) []
    ⟨.empty _, fun _ => .start⟩ := .start
  have passed := begun.next true (.pass (.inl rfl))
  have opened := passed.next true .openTmp
  have passed' := opened.next false (.pass (.inl rfl))
  have written := passed'.next true (@WriterStep.write _ _ _ _ _ 0 0 1 (by decide) (by decide))
  have flushed := written.next true (@WriterStep.flush _ _ _ _ _ 0)
  have synced := flushed.next true (@WriterStep.sync _ _ _ _ _ 0)
  have closed := synced.next true (@WriterStep.close _ _ _ _ _ 0)
  have replaced := closed.next true (@WriterStep.replace _ _ _ _ _ 0 (Option.some_ne_none 0))
  have opened' := replaced.next false .openTmp
  have written' := opened'.next false (@WriterStep.write _ _ _ _ _ 1 0 1 (by decide) (by decide))
  have flushed' := written'.next false (@WriterStep.flush _ _ _ _ _ 1)
  have synced' := flushed'.next false (@WriterStep.sync _ _ _ _ _ 1)
  have closed' := synced'.next false (@WriterStep.close _ _ _ _ _ 1)
  have replaced' := closed'.next false (@WriterStep.replace _ _ _ _ _ 1 (Option.some_ne_none 1))
  have gone := replaced'.next true (@WriterStep.gone _ _ _ _ _ true rfl)
  have gone' := gone.next false (@WriterStep.gone _ _ _ _ _ true rfl)
  have hlinks (k : Nat) (h : (Files.empty (Unit × Bytes)).entry ((), ascii "o") = some k) :
      (Files.empty (Unit × Bytes)).entry (Output.tmp ⟨(), ascii "o"⟩) ≠ some k :=
    absurd h (Option.some_ne_none k).symm
  obtain ⟨-, -, hreturned⟩ := exclusive_not_torn _ _ _ hlinks _ _ gone' (by
    -- at both of the moves that open, the other run has no file
    intro m hm
    repeat
      rcases List.mem_cons.mp hm with rfl | hm
      · intro hopening _ j hj
        cases j <;> first | rfl | exact absurd rfl hj | cases hopening
    cases hm)
  refine ⟨_, _, gone', fun i => by cases i <;> rfl, fun i => ?_⟩
  obtain ⟨m, hm, hactor, -, -, hread⟩ := hreturned i (by cases i <;> rfl)
  exact ⟨m, hm, hactor, hread⟩

/-- A run that opens the temporary while another is about to replace the output: the output ends up
empty, and the other run returns. -/
theorem overlap_tears : ∃ moves t,
    WritersRun (⟨(), ascii "o"⟩ : Output Unit) (fun i : Bool => ⟨if i then [1] else [2], true⟩)
        (.empty _) moves t ∧
      t.own true = .ended true ∧ t.shared.read ((), ascii "o") = some [] := by
  have begun : WritersRun (⟨(), ascii "o"⟩ : Output Unit)
    (fun i : Bool => ⟨if i then [1] else [2], true⟩) (.empty _) []
    ⟨.empty _, fun _ => .start⟩ := .start
  have passed := begun.next true (.pass (.inl rfl))
  have opened := passed.next true .openTmp
  have written := opened.next true (@WriterStep.write _ _ _ _ _ 0 0 1 (by decide) (by decide))
  have flushed := written.next true (@WriterStep.flush _ _ _ _ _ 0)
  have synced := flushed.next true (@WriterStep.sync _ _ _ _ _ 0)
  have closed := synced.next true (@WriterStep.close _ _ _ _ _ 0)
  have passed' := closed.next false (.pass (.inl rfl))
  have emptied := passed'.next false .openTmp
  have replaced := emptied.next true (@WriterStep.replace _ _ _ _ _ 0 (Option.some_ne_none 0))
  have gone := replaced.next true (@WriterStep.gone _ _ _ _ _ true rfl)
  exact ⟨_, _, gone, rfl, rfl⟩

end Krcm.Py
