import Krcm.Cli.Process

/-!
# Sessions of the command

A simple machine: a command takes its input whole in one step, and puts its
result in the place of its output in another. The processes refine it
(`sessions_refine`): outside the temporaries a session is a run of the simple
machine, whatever the order of the steps and whatever fails. So what holds of
the simple machine holds of the sessions, as that the documents are kept
(`sessions_keep_documents`).
-/

namespace Krcm.Cli

open Base Outcome Files

variable {Dir ι : Type} [DecidableEq Dir]

/-- What stands at the paths. -/
abbrev Store (Dir : Type) := Dir × Bytes → Option Bytes

inductive AtomicStep (E : Env) (job : Job Dir) : Store Dir × Phase → Store Dir × Phase → Prop where
  | load {store : Store Dir} {source : Bytes} (h : store job.input = some source) :
    AtomicStep E job (store, .waiting) (store, .loaded source)
  | install {store : Store Dir} {password source result : Bytes}
    (h : Made E job password source result) :
    AtomicStep E job (store, .loaded source)
      (Function.update store job.output.path (some result), .done)

section
variable (E : Env) (jobs : ι → Job Dir)

/-- The states of the simple machine. -/
abbrev Commands (Dir ι : Type) := Parties (Store Dir) Phase ι

abbrev CommandsStep (A : Commands Dir ι) (i : ι) (B : Commands Dir ι) : Prop :=
  A.Step (fun i => AtomicStep E (jobs i)) i B

abbrev Sessions (files : FileSystem Dir) (moves : List (Move (Processes Dir ι) ι))
    (t : Processes Dir ι) : Prop :=
  Trace (ProcessesStep E jobs) ⟨files, fun _ => .start⟩ moves t

/-- The simple machine shows what the processes have done, but for the temporaries. -/
structure Refines (a : Processes Dir ι) (A : Commands Dir ι) : Prop where
  files : ∀ p, ¬ IsTemporary jobs p → A.shared p = a.shared.read p
  phase : ∀ i, (a.own i).Shows a.shared (A.own i)

end

variable {E : Env} {jobs : ι → Job Dir} {files : FileSystem Dir} {a b t : Processes Dir ι}
  {A B : Commands Dir ι} {i : ι} {moves : List (Move (Processes Dir ι) ι)}

/-! ## Refinement -/

omit [DecidableEq Dir] in
theorem Process.Shows.congr {s s' : FileSystem Dir} {phase : Phase} {c : Process}
    (h : c.Shows s phase) (hread : ∀ k, c.file = some k → s'.content k = s.content k) :
    c.Shows s' phase := by
  cases c with
  | reading password file data => exact h.trans (congrArg _ (hread file rfl).symm)
  | _ => exact h

omit [DecidableEq Dir] in
theorem Refines.start (jobs : ι → Job Dir) (files : FileSystem Dir) :
    Refines jobs ⟨files, fun _ => .start⟩ ⟨files.read, fun _ => .waiting⟩ where
  files _ _ := rfl
  phase _ := rfl

/-- **A step of a process is one of the simple machine, or none.** -/
theorem Session.simulates (hapart : Apart jobs) (h : Session E jobs a) (hshown : Refines jobs a A)
    (hstep : ProcessesStep E jobs a i b) :
    Refines jobs b A ∨ ∃ B, CommandsStep E jobs A i B ∧ Refines jobs b B := by
  classical
  have hothers {j : ι} (hj : j ≠ i) : (b.own j).Shows b.shared (A.own j) := by
    rw [hstep.others j hj]
    exact (hshown.phase j).congr fun k hk => (h.frozen hstep hapart (.inl hk)).2.2
  have hphase {phase : Phase} (hi : (b.own i).Shows b.shared phase) (j : ι) :
      (b.own j).Shows b.shared (Function.update A.own i phase j) := by
    by_cases hj : j = i
    · rw [hj, Function.update_self]
      exact hi
    · rw [Function.update_of_ne hj]
      exact hothers hj
  cases hstep.moves.effect (h.sound i) hapart with
  | quiet hact hshows =>
    refine .inl ⟨fun p hp => (hshown.files p hp).trans (h.held.reads hact hp).symm, fun j => ?_⟩
    by_cases hj : j = i
    · rw [hj]
      exact hshows _ (hshown.phase i)
    · exact hothers hj
  | @load password file hentry hfiles hbefore hafter =>
    have hwaiting := hshown.phase i
    rw [hbefore] at hwaiting
    have hinput := (hshown.files _ (hapart.input i)).trans (read_eq_some.mpr ⟨file, hentry, rfl⟩)
    have hmove : AtomicStep E (jobs i) (A.shared, A.own i)
        (A.shared, .loaded (a.shared.content file)) := by
      rw [show A.own i = .waiting from hwaiting]
      exact .load hinput
    refine .inr ⟨_, Parties.step_update hmove, fun p hp => ?_, hphase ?_⟩
    · rw [hfiles]
      exact hshown.files p hp
    · rw [hafter, hfiles]
      rfl
  | @install password source result suffix file hact hbefore hafter =>
    have hsound := h.sound i
    have hloaded := hshown.phase i
    rw [hbefore] at hsound hloaded
    obtain ⟨hmade, hwritten⟩ := hsound
    have hmove : AtomicStep E (jobs i) (A.shared, A.own i)
        (Function.update A.shared (jobs i).output.path (some result), .done) := by
      rw [hloaded.2 id]
      exact .install hmade
    refine .inr ⟨_, Parties.step_update hmove, fun p hp => ?_, hphase ?_⟩
    · rw [h.held.reads hact hp, show a.shared.content file = result from hwritten]
      show Function.update _ _ _ _ = Function.update _ _ _ _
      by_cases heq : p = (jobs i).output.path
      · rw [heq, Function.update_self, Function.update_self]
      · rw [Function.update_of_ne heq, Function.update_of_ne heq, hshown.files p hp]
    · rw [hafter]
      exact ⟨fun _ => rfl, fun h => absurd trivial h⟩

theorem Sessions.refines (hapart : Apart jobs) (h : Sessions E jobs files moves t) :
    ∃ simples T, Trace (CommandsStep E jobs) ⟨files.read, fun _ => .waiting⟩ simples T ∧
      Refines jobs t T ∧ List.SublistForall₂ (Mirrors (Refines jobs)) simples moves := by
  have hsim (a i b A) (ha : Session E jobs a) (hshown : Refines jobs a A)
      (hstep : ProcessesStep E jobs a i b) :
      Refines jobs b A ∨ ∃ B, CommandsStep E jobs A i B ∧ Refines jobs b B :=
    ha.simulates hapart hshown hstep
  exact h.simulates (fun _ _ _ ha hstep => Session.step ha hstep hapart) hsim (.start E jobs files)
    (.start jobs files)

theorem Sessions.session (hapart : Apart jobs) (h : Sessions E jobs files moves t) : Session E jobs t :=
  h.invariant (fun _ _ _ ha hstep => Session.step ha hstep hapart) (.start E jobs files)

/-- `krcm decrypt`, from the one file to `b` of a directory. -/
def decryptJob (i : Bool) : Job Bool where
  action := .decrypt
  input := (false, ascii "a")
  output := ⟨i, ascii "b"⟩
  force := false
  first := some [1]
  second := none

theorem decryptJob_apart : Apart decryptJob :=
  @Apart.of_head _ _ decryptJob (by decide) (by decide)

/-- The one file `a`. -/
def sealedFile (container : Bytes) : FileSystem Bool :=
  ((Files.empty _).create (false, ascii "a")).setContent 0 container

/-- The state a session of the two calls can come to. -/
def Comes (E : Env) (container : Bytes) (s : FileSystem Bool) (own : Bool → Process) : Prop :=
  ∃ moves, Sessions E decryptJob (sealedFile container) moves ⟨s, own⟩

theorem Comes.next {E : Env} {container : Bytes} {s s' : FileSystem Bool} {own : Bool → Process}
    {c : Process} (h : Comes E container s own) (i : Bool)
    (hstep : ProcessStep E (decryptJob i) (s, own i) (s', c)) :
    Comes E container s' (Function.update own i c) :=
  h.elim fun _ h => ⟨_, Trace.next h i hstep⟩

/-- The temporary of a call is there. -/
theorem Comes.entry {E : Env} {container : Bytes} {s : FileSystem Bool} {own : Bool → Process}
    (h : Comes E container s own) (i : Bool) {p : Bool × Bytes} {file : Nat}
    (hi : (own i).holding (decryptJob i).output = some (p, file)) : s.entry p ≠ none := by
  obtain ⟨moves, h⟩ := h
  rw [(@Held.sole _ _ _ _ _ (h.session decryptJob_apart).held i _ _ hi).entry]
  exact Option.some_ne_none file

theorem zero_container : ∃ n container, 0 < container.length ∧
    decryptAuto (Env.zero.withFuel n) container [1] = .ok [7] := by
  obtain ⟨n, hn⟩ := Env.zero_shufflesTerminate.fuel
  obtain ⟨s, hs, hlen⟩ := zero_seals (hn n le_rfl) [7] 64 (by decide) (by decide)
  have hopens := (decryptAuto_v5 (magicV5_frame s.frame)).trans (hs.decrypts hlen)
  exact ⟨n, _, Nat.zero_lt_of_lt (decryptAuto_bounds hopens).1, hopens⟩

/-- A call reads the file at once. -/
theorem Comes.load {E : Env} {container : Bytes} {own : Bool → Process} (hne : 0 < container.length)
    (h : Comes E container (sealedFile container) own) (i : Bool) (hi : own i = .reading [1] 0 []) :
    Comes E container (sealedFile container) (Function.update own i (.ready [1] container)) := by
  have hcontent : (sealedFile container).content 0 = container := Files.content_setContent_self
  have hread : ProcessStep E (decryptJob i) (sealedFile container, own i)
      (sealedFile container, .reading [1] 0 container) := by
    have hstep := @ProcessStep.read _ _ E (decryptJob i) (sealedFile container) [1] [] 0 _ hne
      (by rw [hcontent]; exact (Nat.zero_add _).le)
    rw [hcontent, List.nil_append, List.length_nil, List.drop_zero, List.take_length] at hstep
    rwa [hi]
  have hend := (h.next i hread).next i
    (by rw [Function.update_self]; exact .readEnd (by rw [hcontent]))
  rwa [Function.update_idem] at hend

/-- Two calls that decrypt one file, side by side to their ends. -/
theorem decryptJob_session {E : Env} {container : Bytes} (hne : 0 < container.length)
    (h : decryptAuto E container [1] = .ok [7]) : ∃ moves t,
      Sessions E decryptJob (sealedFile container) moves t ∧
        ∀ i, t.own i = .writing [1] container [7] .returnedOk := by
  have begun : Comes E container (sealedFile container) fun _ => .start := ⟨[], .start⟩
  have asked := (begun.next true (.pass (.inl rfl))).next true (.ask rfl rfl)
  have asked' := (asked.next false (.pass (.inl rfl))).next false (.ask rfl rfl)
  have opened := (asked'.next true (.openInput rfl)).next false (.openInput rfl)
  have ready := (opened.load hne true rfl).load hne false rfl
  have computed := ready.next true (@ProcessStep.transform _ _ _ _ _ _ _ _ .zero h (by decide))
  have computed' := computed.next false
    (@ProcessStep.transform _ _ _ _ _ _ _ _ .zero h (by decide))
  have named := (computed'.next true (.write (.pass (.inl rfl)))).next false (.write (.pass (.inl rfl)))
  have created := (named.next true (.write (@CallStep.create _ _ _ _ _ 0 rfl))).next false
    (.write (@CallStep.create _ _ _ _ _ 0 rfl))
  have written := created.next true (.write (@CallStep.write _ _ _ _ _ _ _ _ 1 (by decide) (by decide)))
  have written' := written.next false
    (.write (@CallStep.write _ _ _ _ _ _ _ _ 1 (by decide) (by decide)))
  have flushed := (written'.next true (.write .flush)).next false (.write .flush)
  have synced := (flushed.next true (.write .sync)).next false (.write .sync)
  have renamed := synced.next true (.write (.rename (synced.entry true rfl)))
  have renamed' := renamed.next false (.write (.rename (renamed.entry false rfl)))
  obtain ⟨moves, h⟩ := (renamed'.next true (.write .finish)).next false (.write .finish)
  exact ⟨moves, _, h, fun i => by cases i <;> rfl⟩

/-- **Sessions refine the simple machine.** Where no process reads or replaces a temporary, the moves
that take an input or put a result in its place are, in their order, a run of the machine that does
each at once; the paths that are no temporaries hold what they hold there, and the processes that are
done there are those that have put their result in place. -/
theorem sessions_refine (E : Env) (jobs : ι → Job Dir) (hapart : Apart jobs) (files : FileSystem Dir)
    (moves : List (Move (Processes Dir ι) ι)) (t : Processes Dir ι) (h : Sessions E jobs files moves t) :
    ∃ simples T, Trace (CommandsStep E jobs) ⟨files.read, fun _ => .waiting⟩ simples T ∧
      List.SublistForall₂ (Mirrors (Refines jobs)) simples moves ∧
      (∀ p, ¬ IsTemporary jobs p → t.shared.read p = T.shared p) ∧
      ∀ i, T.own i = .done ↔ (t.own i).Installed := by
  obtain ⟨simples, T, hsimple, hshown, hsub⟩ := h.refines hapart
  refine ⟨simples, T, hsimple, hsub, fun p hp => (hshown.files p hp).symm, fun i => ?_⟩
  have hphase := hshown.phase i
  cases hown : t.own i with
  | writing password source result call =>
    rw [hown] at hphase
    refine ⟨fun hdone => by_contra fun hnot => ?_, hphase.1⟩
    cases hdone.symm.trans (hphase.2 hnot)
  | failed e =>
    rw [hown] at hphase
    exact ⟨fun hdone => hphase hdone, False.elim⟩
  | panicked =>
    rw [hown] at hphase
    exact ⟨fun hdone => hphase hdone, False.elim⟩
  | _ =>
    rw [hown] at hphase
    exact ⟨fun hdone => (nomatch hphase.symm.trans hdone), False.elim⟩

theorem sessions_refine_decrypt : ∃ n container moves t simples T,
    Sessions (Env.zero.withFuel n) decryptJob (sealedFile container) moves t ∧
      Trace (CommandsStep (Env.zero.withFuel n) decryptJob)
        ⟨(sealedFile container).read, fun _ => .waiting⟩ simples T ∧ ∀ i, T.own i = .done := by
  obtain ⟨n, container, hne, hopens⟩ := zero_container
  obtain ⟨moves, t, h, hown⟩ := decryptJob_session hne hopens
  obtain ⟨simples, T, hsimple, -, -, hdone⟩ := sessions_refine _ _ decryptJob_apart _ _ _ h
  refine ⟨n, container, moves, t, simples, T, h, hsimple, fun i => (hdone i).mpr ?_⟩
  rw [hown i]
  trivial

/-! ## Where data comes from -/

/-- What stood at a path from the beginning, and what the commands make of it. -/
inductive Derived (E : Env) (jobs : ι → Job Dir) (store : Store Dir) : Dir × Bytes → Bytes → Prop where
  | initial {p : Dir × Bytes} {data : Bytes} (h : store p = some data) : Derived E jobs store p data
  | made {i : ι} {password source result : Bytes} (hsource : Derived E jobs store (jobs i).input source)
    (h : Made E (jobs i) password source result) :
    Derived E jobs store (jobs i).output.path result

/-- All that stands anywhere, or was taken, is derived, and no path is emptied. -/
structure Traced (E : Env) (jobs : ι → Job Dir) (store : Store Dir) (A : Commands Dir ι) : Prop where
  stands : ∀ p data, A.shared p = some data → Derived E jobs store p data
  loaded : ∀ i source, A.own i = .loaded source → Derived E jobs store (jobs i).input source
  stays : ∀ p, store p ≠ none → A.shared p ≠ none

omit [DecidableEq Dir] in
theorem Traced.start (E : Env) (jobs : ι → Job Dir) (store : Store Dir) :
    Traced E jobs store ⟨store, fun _ => .waiting⟩ where
  stands _ _ h := .initial h
  loaded _ _ h := by cases h
  stays _ h := h

theorem Traced.step {store : Store Dir} (h : Traced E jobs store A) (hstep : CommandsStep E jobs A i B) :
    Traced E jobs store B := by
  obtain ⟨hmoves, hothers⟩ := hstep
  have hloaded (hi : ∀ source, B.own i = .loaded source → Derived E jobs store (jobs i).input source)
      (j : ι) (source : Bytes) (hj : B.own j = .loaded source) :
      Derived E jobs store (jobs j).input source := by
    by_cases hji : j = i
    · subst hji
      exact hi source hj
    · exact h.loaded j source (hothers j hji ▸ hj)
  generalize hstore : A.shared = before, hown : A.own i = own, hstore' : B.shared = after,
    hown' : B.own i = own' at hmoves
  cases hmoves with
  | load hinput =>
    refine ⟨hstore' ▸ hstore ▸ h.stands, hloaded fun source hsource => ?_, hstore' ▸ hstore ▸ h.stays⟩
    rw [hown'] at hsource
    cases hsource
    exact h.stands _ _ (hstore ▸ hinput)
  | @install _ password source result hmade =>
    refine ⟨fun p data hp => ?_, hloaded fun source hsource => ?_, fun p hp => ?_⟩
    · rw [hstore'] at hp
      by_cases heq : p = (jobs i).output.path
      · subst heq
        rw [Function.update_self] at hp
        cases hp
        exact .made (h.loaded i source hown) hmade
      · rw [Function.update_of_ne heq] at hp
        exact h.stands p data (hstore ▸ hp)
    · rw [hown'] at hsource
      cases hsource
    · rw [hstore']
      by_cases heq : p = (jobs i).output.path
      · rw [heq, Function.update_self]
        exact Option.some_ne_none _
      · rw [Function.update_of_ne heq]
        exact hstore ▸ h.stays p hp

/-- Whatever stands at a path that is no temporary stood there from the beginning, or was made whole
of such data; and nothing is removed. -/
theorem Sessions.traced (hapart : Apart jobs) (h : Sessions E jobs files moves t) {p : Dir × Bytes}
    (hp : ¬ IsTemporary jobs p) :
    (∀ data, t.shared.read p = some data → Derived E jobs files.read p data) ∧
      (files.read p ≠ none → t.shared.read p ≠ none) := by
  obtain ⟨simples, T, hsimple, hshown, -⟩ := h.refines hapart
  have htraced := hsimple.invariant (fun _ _ _ hA hstep => Traced.step hA hstep)
    (Traced.start E jobs files.read)
  rw [← hshown.files p hp]
  exact ⟨htraced.stands p, htraced.stays p⟩

/-! ## Documents -/

/-- What is to stand at a path. -/
inductive Role where
  | any
  | clear (document : Bytes)
  | sealed (password document : Bytes)

/-- Data that may stand where a path has a role. -/
def Role.Holds (E : Env) (data : Bytes) : Role → Prop
  | any => True
  | clear document => data = document
  | sealed password document => decryptAuto E data password = .ok document

/-- Under a password a command makes data of the second role of data of the first. -/
def Action.Keeps (E : Env) (password : Bytes) : Action → Role → Role → Prop
  | _, _, .any => True
  | encrypt _ args, .clear document, .sealed password' document' =>
    password' = password ∧ document' = document ∧
      (args.version = 4 → ∀ drawn, E.Reads (args.headerV4 document drawn))
  | decrypt, .sealed password' document, .clear document' =>
    password' = password ∧ document' = document
  | migrate _, .sealed password' document, .sealed password'' document' =>
    password' = password ∧ password'' = password ∧ document' = document
  | _, _, _ => False

/-- The paths have their roles: the files hold what they are to hold, and the commands keep it. -/
structure Keeping (E : Env) (jobs : ι → Job Dir) (files : FileSystem Dir) (role : Dir × Bytes → Role) :
    Prop where
  files : ∀ p data, files.read p = some data → (role p).Holds E data
  jobs : ∀ i password, (jobs i).password = .ok password →
    (jobs i).action.Keeps E password (role (jobs i).input) (role (jobs i).output.path)

omit [DecidableEq Dir] in
theorem Made.holds {job : Job Dir} {password source result : Bytes}
    (h : Made E job password source result) {before after : Role}
    (hkeeps : job.action.Keeps E password before after) (hsource : before.Holds E source) :
    after.Holds E result := by
  obtain ⟨drawn, hresult⟩ := h.transformed
  have hlen : result.length < 2 ^ 64 := by have := h.fits; omega
  cases after with
  | any => trivial
  | clear document' =>
    cases haction : job.action <;> cases before <;> rw [haction] at hkeeps hresult <;>
      try exact hkeeps.elim
    obtain ⟨rfl, rfl⟩ := hkeeps
    exact Outcome.ok.inj (hresult.symm.trans hsource)
  | sealed password' document' =>
    cases haction : job.action <;> cases before <;> rw [haction] at hkeeps hresult <;>
      try exact hkeeps.elim
    · obtain ⟨rfl, rfl, hreads⟩ := hkeeps
      obtain rfl : source = _ := hsource
      exact encrypt_opens hresult hlen fun h4 => hreads h4 drawn
    · obtain ⟨rfl, rfl, rfl⟩ := hkeeps
      exact (migrate_opens hresult).trans hsource

omit [DecidableEq Dir] in
theorem Derived.holds {role : Dir × Bytes → Role} (hkeeping : Keeping E jobs files role)
    {p : Dir × Bytes} {data : Bytes} (h : Derived E jobs files.read p data) :
    (role p).Holds E data := by
  induction h with
  | initial h => exact hkeeping.files _ _ h
  | made _ hmade ih => exact hmade.holds (hkeeping.jobs _ _ hmade.asked) ih

/-- **Sessions keep the documents.** Where each path is to hold a document, in the clear or sealed
under a password, and each command makes of its input what its output is to hold, then at every moment
of every session, whatever the order of the steps and whatever fails, every path that was there is
there and holds its document whole. -/
theorem sessions_keep_documents (E : Env) (jobs : ι → Job Dir) (hapart : Apart jobs)
    (files : FileSystem Dir) (role : Dir × Bytes → Role) (hkeeping : Keeping E jobs files role)
    (moves : List (Move (Processes Dir ι) ι)) (t : Processes Dir ι) (h : Sessions E jobs files moves t)
    (p : Dir × Bytes) (hp : ¬ IsTemporary jobs p) :
    (∀ data, t.shared.read p = some data → (role p).Holds E data) ∧
      (files.read p ≠ none → t.shared.read p ≠ none) := by
  obtain ⟨hderived, hstays⟩ := h.traced hapart hp
  exact ⟨fun data hdata => (hderived data hdata).holds hkeeping, hstays⟩

theorem sessions_keep_documents_decrypt : ∃ n container moves t,
    Sessions (Env.zero.withFuel n) decryptJob (sealedFile container) moves t ∧
      (∀ i, t.own i = .writing [1] container [7] .returnedOk) ∧
      ∀ i data, t.shared.read (i, ascii "b") = some data → data = [7] := by
  obtain ⟨n, container, hne, hopens⟩ := zero_container
  obtain ⟨moves, t, h, hown⟩ := decryptJob_session hne hopens
  have hkeeping : Keeping (Env.zero.withFuel n) decryptJob (sealedFile container)
      fun p => if p = (false, ascii "a") then .sealed [1] [7] else .clear [7] := by
    refine ⟨fun p data hp => ?_, fun i password hpw => ?_⟩
    · obtain ⟨k, hk, rfl⟩ := read_eq_some.mp hp
      by_cases heq : p = (false, ascii "a")
      · subst heq
        cases hk
        rw [if_pos rfl]
        show decryptAuto _ ((sealedFile container).content 0) [1] = _
        rw [show (sealedFile container).content 0 = container from content_setContent_self]
        exact hopens
      · have hnone := @entry_create_of_ne _ _ (Files.empty (Bool × Bytes)) _ _ heq
        cases hk.symm.trans hnone
    · cases hpw
      cases i <;> exact ⟨rfl, rfl⟩
  refine ⟨n, container, moves, t, h, hown, fun i data hdata => ?_⟩
  obtain ⟨hholds, -⟩ := sessions_keep_documents _ _ decryptJob_apart _ _ hkeeping _ _ h
    (i, ascii "b") (decryptJob_apart.output i)
  have hrole := hholds data hdata
  rw [if_neg (by cases i <;> decide)] at hrole
  exact hrole

end Krcm.Cli
