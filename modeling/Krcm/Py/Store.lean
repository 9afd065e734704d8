import Krcm.Py.Interchange

/-!
# Containers by name

`encrypt_to_file`, `decrypt_from_file`, `encrypt_process` and `decrypt_process`
of `core.py`: a directory keeps a container under the name it was given. A name
that is accepted names an entry of the directory itself, and another name
another entry (`safeName_exact`). Whatever is called, in whatever order and
whichever calls the system fails, the directories are a map from names to
plaintexts, of which the last one stored is returned (`store_refines`).
-/

namespace Krcm.Py

open Base Outcome

/-! ## Names -/

/-- The names `_safe_name` accepts. -/
structure SimpleName (name : Str) : Prop where
  nonEmpty : name ≠ []
  head : ∀ c ∈ name.head?, c ∉ whitespace
  last : ∀ c ∈ name.getLast?, c ∉ whitespace
  plain : ∀ c ∈ name, c ∉ str "/\\:\x00"
  dot : name ≠ str "."
  dots : name ≠ str ".."

theorem strip_eq_self_iff {name : Str} : strip name = name ↔
    (∀ c ∈ name.head?, c ∉ whitespace) ∧ ∀ c ∈ name.getLast?, c ∉ whitespace := by
  unfold strip
  rw [trim_eq_self_iff]
  simp only [decide_eq_true_eq]

/-- A part of a path is itself, but for `.`. -/
theorem pathParts_part {name : Str} (hslash : 47 ∉ name) (hne : name ≠ []) (hdot : name ≠ str ".") :
    pathParts name = [name] := by
  have hhead : ¬ name.head? = some 47 := fun h => hslash (List.mem_of_mem_head? h)
  unfold pathParts
  rw [if_neg hhead, List.splitOn_eq_singleton hslash, List.filter_cons_of_pos (by simp [hne, hdot]),
    List.filter_nil, List.nil_append]

theorem SimpleName.no_slash {name : Str} (h : SimpleName name) : 47 ∉ name :=
  fun hmem => h.plain 47 hmem (by decide)

theorem SimpleName.pathParts {name : Str} (h : SimpleName name) : pathParts name = [name] :=
  pathParts_part h.no_slash h.nonEmpty h.dot

theorem safeName_eq_ok_iff {name safe : Str} : safeName name = .ok safe ↔ SimpleName name ∧ safe = name := by
  have hplain : ¬ ((str "/\\:\x00").any (· ∈ name)) ↔ ∀ c ∈ name, c ∉ str "/\\:\x00" := by
    simp only [List.any_eq_true, decide_eq_true_eq, not_exists, not_and]
    exact ⟨fun h c hc hbad => h c hbad hc, fun h c hbad hc => h c hc hbad⟩
  constructor
  · intro h
    obtain rfl := safeName_eq_ok h
    refine ⟨?_, rfl⟩
    have hdot : safe ≠ str "." := by
      rintro rfl
      revert h
      decide
    have hdots : safe ≠ str ".." := by
      rintro rfl
      revert h
      decide
    simp only [safeName, bind_eq_ok, rejectIf_eq_ok, hplain, not_or, not_not, strip_eq_self_iff] at h
    obtain ⟨_, ⟨hne, hhead, hlast⟩, _, -, _, hplain, -⟩ := h
    exact ⟨hne, hhead, hlast, hplain, hdot, hdots⟩
  · rintro ⟨h, rfl⟩
    have hroot : safe ≠ str "/" := fun hslash => h.no_slash (hslash ▸ by decide)
    have hname : pathName safe = safe := by
      unfold pathName
      rw [h.pathParts, List.getLast?_singleton]
      dsimp only
      rw [if_neg hroot]
    have hparts : ¬ (pathParts safe).any (· ∈ [[], str ".", str ".."]) := by
      rw [h.pathParts]
      simp [h.nonEmpty, h.dot, h.dots]
    unfold safeName
    rw [rejectIf_false (by simp [h.nonEmpty, strip_eq_self_iff.mpr ⟨h.head, h.last⟩]), ok_bind,
      rejectIf_false (not_or.mpr ⟨not_not.mpr hname, hparts⟩), ok_bind,
      rejectIf_false (hplain.mpr h.plain), ok_bind]

theorem safeName_raises {name : Str} (h : ¬ SimpleName name) : safeName name = .err .valueError := by
  rcases (safeName_valueOnly name).ends with ⟨safe, hsafe, -⟩ | ⟨e, hsafe, rfl⟩
  · exact absurd (safeName_eq_ok_iff.mp hsafe).1 h
  · exact hsafe

/-! ## Paths -/

/-- `f"{name}.ampc"`. -/
def ampc (name : Str) : Str := name ++ str ".ampc"

/-- `Path(directory) / right`: the directory, and the parts below it. -/
def joined (directory right : Str) : Str × List Str :=
  if right.head? = some 47 then (str "/", (pathParts right).tail) else (directory, pathParts right)

theorem SimpleName.joined {name : Str} (h : SimpleName name) (directory : Str) :
    joined directory (ampc name) = (directory, [ampc name]) := by
  have hslash : 47 ∉ ampc name := fun hmem =>
    (List.mem_append.mp hmem).elim h.no_slash (by decide)
  have hhead : ¬ (ampc name).head? = some 47 := fun hhead => hslash (List.mem_of_mem_head? hhead)
  have hlen : (ampc name).length = name.length + 5 := List.length_append
  have hpos := List.length_pos_iff.mpr h.nonEmpty
  have hdot : ampc name ≠ str "." := by
    intro hdot
    have hone : (ampc name).length = 1 := by rw [hdot]; rfl
    omega
  unfold Py.joined
  rw [if_neg hhead, pathParts_part hslash (List.length_pos_iff.mp (by omega)) hdot]

theorem ampc_injective {name name' : Str} (h : ampc name = ampc name') : name = name' :=
  List.append_cancel_right h

/-- Spaces inside and dots in front are allowed, and a path is not. -/
example : safeName (str "a b.c") = .ok (str "a b.c") ∧ safeName (str "../a") = .err .valueError := by
  decide

/-! ## Files -/

/-- The arguments of `encrypt_bytes`, with the two byte strings `rng` returns. -/
structure Options where
  iterations : Int
  salt : Bytes
  nonce : Bytes

/-- How `write_bytes` ends: a failure finds the file as it was or leaves the first bytes of what was
to be written. -/
inductive Writing where
  | done
  | refused
  | torn (kept : Nat)

/-- What the system makes of one call, and whether the extension is loaded. -/
structure World where
  native : Bool
  mkdir : Bool
  read : Bool
  writing : Writing

/-- A directory and the name of an entry. -/
abbrev Place (Dir : Type) := Dir × Str

/-- Directories of regular files. -/
abbrev Files (Dir : Type) := Place Dir → Option Bytes

/-- The directories of a system: what a path leads to, and `ENCRYPTED_FILES_PATH`. -/
structure Tree (Dir : Type) where
  locate : Str → List Str → Dir
  encryptedFilesPath : Str

section model
variable {Dir : Type} [DecidableEq Dir] (E : Env) (I : Interp) (tree : Tree Dir)

def Tree.place (path : Str × List Str) : Place Dir :=
  (tree.locate path.1 path.2.dropLast, path.2.getLast?.getD [])

def mkdir (world : World) : Command Unit := rejectIf (¬ world.mkdir) .osError

def readBytes (world : World) (files : Files Dir) (path : Str × List Str) : Command Bytes := do
  rejectIf (¬ world.read) .osError
  okOr (files (tree.place path)) .osError

/-- `path.write_bytes(blob)`, after what gives the path and the blob. -/
def writeBytes (world : World) (files : Files Dir) (body : Command ((Str × List Str) × Bytes)) :
    Command (Str × List Str) × Files Dir :=
  match body with
  | .ok (path, blob) =>
    match world.writing with
    | .done => (.ok path, Function.update files (tree.place path) (some blob))
    | .refused => (.err .osError, files)
    | .torn kept => (.err .osError, Function.update files (tree.place path) (some (blob.take kept)))
  | .err e => (.err e, files)
  | .panic => (.panic, files)
  | .timeout => (.timeout, files)

/-- `encrypt_to_file` up to `write_bytes`. -/
def prepareFile (world : World) (data : Bytes) (password : Password) (directory fileName : Str)
    (opts : Options) : Command ((Str × List Str) × Bytes) := do
  let name ← ofPackage (safeName fileName)
  mkdir world
  let out := joined directory (ampc name)
  let blob ← ofPackage (encryptBytesWith E I world.native data password opts.iterations opts.salt
    opts.nonce)
  .ok (out, blob)

def encryptToFile (world : World) (files : Files Dir) (data : Bytes) (password : Password)
    (directory fileName : Str) (opts : Options) : Command (Str × List Str) × Files Dir :=
  writeBytes tree world files (prepareFile E I world data password directory fileName opts)

def decryptFromFile (world : World) (files : Files Dir) (password : Password)
    (directory fileName : Str) : Command Bytes := do
  let name ← ofPackage (safeName fileName)
  let path := joined directory (ampc name)
  let blob ← readBytes tree world files path
  ofPackage (decryptBytesWith E I world.native blob password)

/-- `encrypt_process` up to `write_bytes`. -/
def prepareProcess (world : World) (plainText keyWord fileName : Str) (opts : Options) :
    Command ((Str × List Str) × Bytes) := do
  let encrypted ← ofPackage (encryptText E I world.native plainText (.text keyWord) opts.iterations
    opts.salt opts.nonce)
  mkdir world
  let safe ← ofPackage (safeName fileName)
  .ok (joined tree.encryptedFilesPath (ampc safe), encrypted)

def encryptProcess (world : World) (files : Files Dir) (plainText keyWord fileName : Str)
    (opts : Options) : Command Unit × Files Dir :=
  let (written, files) :=
    writeBytes tree world files (prepareProcess E I tree world plainText keyWord fileName opts)
  (written >>= fun _ => .ok (), files)

/-- `decrypt_process` on the files. -/
def decryptStored (world : World) (files : Files Dir) (keyWord fileName : Str) :
    Command (Option Str) :=
  decryptProcess E I world.native
    (fun safe => readBytes tree world files (joined tree.encryptedFilesPath (ampc safe))) keyWord
    fileName

end model

/-! ## Calls -/

inductive Call where
  | encryptToFile (data : Bytes) (password : Password) (directory fileName : Str) (opts : Options)
  | decryptFromFile (password : Password) (directory fileName : Str)
  | encryptProcess (plainText keyWord fileName : Str) (opts : Options)
  | decryptProcess (keyWord fileName : Str)

inductive Value where
  | path (path : Str × List Str)
  | bytes (data : Bytes)
  | unit
  | text (text : Option Str)

section
variable {Dir : Type} [DecidableEq Dir] (E : Env) (I : Interp) (tree : Tree Dir)

/-- A call: what it returns or raises, and the files after it. -/
def Call.run (world : World) (files : Files Dir) : Call → Command Value × Files Dir
  | encryptToFile data password directory fileName opts =>
    let (written, files) :=
      Py.encryptToFile E I tree world files data password directory fileName opts
    (written >>= fun path => .ok (.path path), files)
  | decryptFromFile password directory fileName =>
    (Py.decryptFromFile E I tree world files password directory fileName >>= fun data =>
      .ok (.bytes data), files)
  | encryptProcess plainText keyWord fileName opts =>
    let (written, files) := Py.encryptProcess E I tree world files plainText keyWord fileName opts
    (written >>= fun _ => .ok .unit, files)
  | decryptProcess keyWord fileName =>
    (decryptStored E I tree world files keyWord fileName >>= fun text => .ok (.text text), files)

/-- A history of calls: what each returns or raises, and the files after it. -/
def runCalls (files : Files Dir) : List (World × Call) → List (Command Value) × Files Dir
  | [] => ([], files)
  | (world, call) :: history =>
    let (reply, files) := call.run E I tree world files
    let (replies, files) := runCalls files history
    (reply :: replies, files)

end

/-! ## The map of plaintexts -/

/-- What is known of an entry: what was found there, what was stored last, or that a write of it
failed. -/
inductive Slot where
  | found (contents : Option Bytes)
  | stored (password : Password) (data : Bytes)
  | torn

abbrev Shelf (Dir : Type) := Place Dir → Slot

/-- The bytes of a text that has them. -/
def utf8 (text : Str) : Bytes :=
  match encodeUtf8 text with
  | .ok data => data
  | _ => []

/-- What reading an entry under a password gives, where that is known. -/
def Slot.plain (slot : Slot) (password : Password) : Option (Command Bytes) :=
  match slot with
  | found none => some (.err .osError)
  | found (some _) => none
  | stored password' data => if password.encode = password'.encode then some (.ok data) else none
  | torn => none

namespace Shelf

/- `taken` are the passwords that `hashlib` takes. -/
variable {Dir : Type} [DecidableEq Dir] (taken : Password → Prop) (tree : Tree Dir) (shelf : Shelf Dir)

/-- A call that stores: what stops it before it writes, and how the write ends. -/
def put (world : World) (stops : Option Raised) (path : Str × List Str) (slot : Slot) :
    Command (Str × List Str) × Shelf Dir :=
  match stops, world.writing with
  | some e, _ => (.err e, shelf)
  | none, .done => (.ok path, Function.update shelf (tree.place path) slot)
  | none, .refused => (.err .osError, shelf)
  | none, .torn _ => (.err .osError, Function.update shelf (tree.place path) .torn)

open Classical in
noncomputable def get (world : World) (password : Password) (directory fileName : Str) :
    Option (Command Bytes) :=
  if ¬ SimpleName fileName then some (.err (.package .valueError))
  else if ¬ world.read then some (.err .osError)
  else (shelf (tree.place (directory, [ampc fileName]))).plain password

open Classical in
/-- What stops `encrypt_to_file` before it writes. -/
noncomputable def fileStops (world : World) (password : Password) (fileName : Str) (opts : Options) :
    Option Raised :=
  if ¬ SimpleName fileName then some (.package .valueError)
  else if ¬ world.mkdir then some .osError
  else if ¬ AcceptsWith password opts.iterations opts.salt opts.nonce then some (.package .valueError)
  else if ¬ taken password then some (.package .overflowError)
  else none

open Classical in
/-- What stops `encrypt_process`, which looks at the name last. -/
noncomputable def processStops (world : World) (plainText keyWord fileName : Str) (opts : Options) :
    Option Raised :=
  if ¬ AcceptsText plainText (.text keyWord) opts.iterations opts.salt opts.nonce then
    some (.package .valueError)
  else if ¬ taken (.text keyWord) then some (.package .overflowError)
  else if ¬ world.mkdir then some .osError
  else if ¬ SimpleName fileName then some (.package .valueError)
  else none

/-- A call on the map of plaintexts: its reply, where that is known, and the map after it. -/
noncomputable def call (world : World) : Call → Option (Command Value) × Shelf Dir
  | .encryptToFile data password directory fileName opts =>
    let (written, shelf) := shelf.put tree world (fileStops taken world password fileName opts)
      (directory, [ampc fileName]) (.stored password data)
    (some (written >>= fun path => .ok (.path path)), shelf)
  | .decryptFromFile password directory fileName =>
    ((shelf.get tree world password directory fileName).map fun plain =>
      plain >>= fun data => .ok (.bytes data), shelf)
  | .encryptProcess plainText keyWord fileName opts =>
    let (written, shelf) := shelf.put tree world
      (processStops taken world plainText keyWord fileName opts)
      (tree.encryptedFilesPath, [ampc fileName]) (.stored (.text keyWord) (utf8 plainText))
    (some (written >>= fun _ => .ok .unit), shelf)
  | .decryptProcess keyWord fileName =>
    ((shelf.get tree world (.text keyWord) tree.encryptedFilesPath fileName).map fun plain =>
      tryExcept (plain >>= fun data => ofPackage (decodeUtf8 data) >>= fun text => .ok (some text))
        none >>= fun text => .ok (.text text), shelf)

noncomputable def calls : List (World × Call) → Shelf Dir → List (Option (Command Value)) × Shelf Dir
  | [], shelf => ([], shelf)
  | (world, call) :: history, shelf =>
    let (reply, shelf) := shelf.call taken tree world call
    let (replies, shelf) := calls history shelf
    (reply :: replies, shelf)

end Shelf

/-! ## Refinement -/

theorem ofPackage_bind {α β : Type} (run : PyRun α) (f : α → PyRun β) :
    ofPackage (run >>= f) = ofPackage run >>= fun a => ofPackage (f a) := by
  cases run <;> rfl

/-- What the contents of an entry are to what is known of it. -/
def Slot.Holds (E : Env) (I : Interp) : Slot → Option Bytes → Prop
  | found known, contents => contents = known
  | stored password data, contents => ∃ blob passwordBytes, contents = some blob ∧
      password.encode = .ok passwordBytes ∧
      ∀ native, decryptBytes E I native blob passwordBytes = .ok data
  | torn, _ => True

/-- A reply, where it is known. -/
def Answers (actual : Command Value) : Option (Command Value) → Prop
  | some reply => actual = reply
  | none => True

/-- Lengths of which every container is read back. -/
def Call.Small : Call → Prop
  | encryptToFile data _ _ _ _ => data.length < 2 ^ 62
  | encryptProcess plainText _ _ _ => plainText.length < 2 ^ 60
  | _ => True

section
variable {Dir : Type} {E : Env} {I : Interp} {tree : Tree Dir} {files : Files Dir} {shelf : Shelf Dir}
  {world : World}

/-- The files are what the map says of them. -/
def Shelf.Mirrors (E : Env) (I : Interp) (shelf : Shelf Dir) (files : Files Dir) : Prop :=
  ∀ place, (shelf place).Holds E I (files place)

/-- What stops a call, or else the path and the blob it writes. -/
def Stops (E : Env) (I : Interp) (body : Command ((Str × List Str) × Bytes)) (path : Str × List Str)
    (slot : Slot) : Option Raised → Prop
  | some e => body = .err e
  | none => ∃ blob, body = .ok (path, blob) ∧ slot.Holds E I (some blob)

theorem place_simple {name : Str} (h : SimpleName name) (directory : Str) :
    tree.place (joined directory (ampc name)) = tree.place (directory, [ampc name]) := by
  rw [h.joined]

theorem get_refines (h : shelf.Mirrors E I files) {password : Password} {directory fileName : Str}
    {reply : Command Bytes} (hget : shelf.get tree world password directory fileName = some reply) :
    decryptFromFile E I tree world files password directory fileName = reply := by
  unfold Shelf.get at hget
  unfold decryptFromFile
  by_cases hname : SimpleName fileName
  · rw [if_neg (not_not.mpr hname)] at hget
    rw [safeName_eq_ok_iff.mpr ⟨hname, rfl⟩]
    show readBytes tree world files (joined directory (ampc fileName)) >>= _ = reply
    unfold readBytes
    rw [place_simple hname]
    by_cases hread : world.read
    · rw [if_neg (not_not.mpr hread)] at hget
      rw [rejectIf_false (not_not.mpr hread), ok_bind]
      have hplace := h (tree.place (directory, [ampc fileName]))
      cases hslot : shelf (tree.place (directory, [ampc fileName])) with
      | found known =>
        rw [hslot] at hget hplace
        rw [show files _ = known from hplace]
        cases known with
        | none =>
          cases hget
          rfl
        | some contents => cases hget
      | stored password' data =>
        rw [hslot] at hget hplace
        obtain ⟨blob, passwordBytes, hblob, hencode, hopen⟩ := hplace
        unfold Slot.plain at hget
        dsimp only at hget
        split at hget
        · next hsame =>
          cases hget
          rw [hblob]
          show ofPackage _ = _
          rw [decryptBytesWith_encoded (hsame.trans hencode), hopen]
          rfl
        · cases hget
      | torn =>
        rw [hslot] at hget
        cases hget
    · rw [if_pos hread] at hget
      cases hget
      rw [rejectIf_true hread, err_bind, err_bind]
  · rw [if_pos hname] at hget
    cases hget
    rw [safeName_raises hname]
    rfl

/-- `decrypt_process` is `decrypt_from_file`, the decoding of the text, and the handler. -/
theorem decryptStored_eq (keyWord fileName : Str) :
    decryptStored E I tree world files keyWord fileName =
      tryExcept (decryptFromFile E I tree world files (.text keyWord) tree.encryptedFilesPath fileName >>=
        fun data => ofPackage (decodeUtf8 data) >>= fun text => .ok (some text)) none := by
  unfold decryptStored decryptProcess decryptFromFile decryptText
  simp only [ofPackage_bind, bind_assoc]

section
variable {p : Hash → Table 256} {q : Hash → Table 32} (hS : SharedTables E p q)
include hS

theorem prepareFile_stops {data : Bytes} {password : Password} {directory fileName : Str}
    {opts : Options} (hdata : data.length < 2 ^ 62) :
    Stops E I (prepareFile E I world data password directory fileName opts)
      (directory, [ampc fileName]) (.stored password data)
      (Shelf.fileStops (Password.Taken E) world password fileName opts) := by
  unfold Shelf.fileStops prepareFile mkdir
  by_cases hname : SimpleName fileName
  · rw [if_neg (not_not.mpr hname), safeName_eq_ok_iff.mpr ⟨hname, rfl⟩]
    by_cases hmkdir : world.mkdir
    · rw [if_neg (not_not.mpr hmkdir), rejectIf_false (not_not.mpr hmkdir)]
      by_cases haccepts : AcceptsWith password opts.iterations opts.salt opts.nonce
      · rw [if_neg (not_not.mpr haccepts)]
        by_cases htaken : password.Taken E
        · obtain ⟨blob, passwordBytes, hencode, hwrite, hopen⟩ :=
            encryptBytesWith_returns hS I world.native hdata haccepts htaken
          have hout : (.ok (joined directory (ampc fileName), blob) : Command _) =
              .ok ((directory, [ampc fileName]), blob) := by rw [hname.joined]
          rw [if_neg (not_not.mpr htaken), hwrite]
          exact ⟨blob, hout, blob, passwordBytes, rfl, hencode, hopen⟩
        · rw [if_pos htaken, encryptBytesWith_overflow haccepts htaken]
          rfl
      · rw [if_pos haccepts, encryptBytesWith_raises haccepts]
        rfl
    · rw [if_pos hmkdir, rejectIf_true hmkdir]
      rfl
  · rw [if_pos hname, safeName_raises hname]
    rfl

theorem prepareProcess_stops {plainText keyWord fileName : Str} {opts : Options}
    (hlen : plainText.length < 2 ^ 60) :
    Stops E I (prepareProcess E I tree world plainText keyWord fileName opts)
      (tree.encryptedFilesPath, [ampc fileName]) (.stored (.text keyWord) (utf8 plainText))
      (Shelf.processStops (Password.Taken E) world plainText keyWord fileName opts) := by
  unfold Shelf.processStops prepareProcess mkdir
  by_cases haccepts : AcceptsText plainText (.text keyWord) opts.iterations opts.salt opts.nonce
  · rw [if_neg (not_not.mpr haccepts)]
    by_cases htaken : (Password.text keyWord).Taken E
    swap
    · rw [if_pos htaken, encryptText_overflow haccepts htaken]
      rfl
    obtain ⟨blob, passwordBytes, data, hencode, htext, hwrite, hopen⟩ :=
      encryptText_returns hS I world.native hlen haccepts htaken
    have hutf8 : utf8 plainText = data := by
      unfold utf8
      rw [htext]
    rw [if_neg (not_not.mpr htaken), hwrite, hutf8]
    by_cases hmkdir : world.mkdir
    · rw [if_neg (not_not.mpr hmkdir), rejectIf_false (not_not.mpr hmkdir)]
      by_cases hname : SimpleName fileName
      · rw [if_neg (not_not.mpr hname), safeName_eq_ok_iff.mpr ⟨hname, rfl⟩]
        have hout : (.ok (joined tree.encryptedFilesPath (ampc fileName), blob) : Command _) =
            .ok ((tree.encryptedFilesPath, [ampc fileName]), blob) := by rw [hname.joined]
        exact ⟨blob, hout, blob, passwordBytes, rfl, hencode, hopen⟩
      · rw [if_pos hname, safeName_raises hname]
        rfl
    · rw [if_pos hmkdir, rejectIf_true hmkdir]
      rfl
  · rw [if_pos haccepts, encryptText_raises haccepts]
    rfl

end

variable [DecidableEq Dir]

theorem Shelf.Mirrors.update (h : shelf.Mirrors E I files) {place : Place Dir} {slot : Slot}
    {contents : Option Bytes} (hslot : slot.Holds E I contents) :
    Shelf.Mirrors E I (Function.update shelf place slot) (Function.update files place contents) := by
  intro place'
  by_cases hplace : place' = place
  · subst hplace
    rwa [Function.update_self, Function.update_self]
  · rw [Function.update_of_ne hplace, Function.update_of_ne hplace]
    exact h place'

theorem put_refines (tree : Tree Dir) (world : World)
    {body : Command ((Str × List Str) × Bytes)} {stops : Option Raised} {path : Str × List Str}
    {slot : Slot} (h : shelf.Mirrors E I files)
    (hbody : Stops E I body path slot stops) :
    (writeBytes tree world files body).1 = (shelf.put tree world stops path slot).1 ∧
      (shelf.put tree world stops path slot).2.Mirrors E I (writeBytes tree world files body).2 := by
  unfold writeBytes Shelf.put
  cases stops with
  | some e =>
    rw [show body = .err e from hbody]
    exact ⟨rfl, h⟩
  | none =>
    obtain ⟨blob, rfl, hslot⟩ := hbody
    cases world.writing with
    | done => exact ⟨rfl, h.update hslot⟩
    | refused => exact ⟨rfl, h⟩
    | torn kept => exact ⟨rfl, h.update trivial⟩

/-- **What one call does**: the reply the map gives, and files that are again what it says. -/
theorem call_refines {p : Hash → Table 256} {q : Hash → Table 32} (hS : SharedTables E p q)
    (h : shelf.Mirrors E I files) {c : Call} (hc : c.Small) :
    Answers (c.run E I tree world files).1 (shelf.call (Password.Taken E) tree world c).1 ∧
      (shelf.call (Password.Taken E) tree world c).2.Mirrors E I (c.run E I tree world files).2 := by
  cases c with
  | encryptToFile data password directory fileName opts =>
    obtain ⟨hwritten, hfiles⟩ := put_refines tree world h (prepareFile_stops hS hc)
    refine ⟨?_, hfiles⟩
    show (writeBytes tree world files _).1 >>= _ = _ >>= _
    rw [hwritten]
    rfl
  | encryptProcess plainText keyWord fileName opts =>
    obtain ⟨hwritten, hfiles⟩ := put_refines tree world h (prepareProcess_stops hS hc)
    refine ⟨?_, hfiles⟩
    show ((writeBytes tree world files _).1 >>= _) >>= _ = _ >>= _
    rw [hwritten, bind_assoc]
    rfl
  | decryptFromFile password directory fileName =>
    refine ⟨?_, h⟩
    show Answers _ (Option.map _ _)
    cases hget : shelf.get tree world password directory fileName with
    | none => trivial
    | some reply =>
      show _ >>= _ = _
      rw [get_refines h hget]
  | decryptProcess keyWord fileName =>
    refine ⟨?_, h⟩
    show Answers _ (Option.map _ _)
    cases hget : shelf.get tree world (.text keyWord) tree.encryptedFilesPath fileName with
    | none => trivial
    | some reply =>
      show _ >>= _ = _
      rw [decryptStored_eq, get_refines h hget]

theorem calls_refine {p : Hash → Table 256} {q : Hash → Table 32} (hS : SharedTables E p q)
    {history : List (World × Call)} (hsmall : ∀ event ∈ history, event.2.Small)
    (h : shelf.Mirrors E I files) :
    List.Forall₂ Answers (runCalls E I tree files history).1
        (Shelf.calls (Password.Taken E) tree history shelf).1 ∧
      (Shelf.calls (Password.Taken E) tree history shelf).2.Mirrors E I
        (runCalls E I tree files history).2 := by
  induction history generalizing files shelf with
  | nil => exact ⟨.nil, h⟩
  | cons event history ih =>
    obtain ⟨hfirst, hrest⟩ := List.forall_mem_cons.mp hsmall
    obtain ⟨hreply, hfiles⟩ := @call_refines _ E I tree _ _ event.1 _ p q hS h event.2 hfirst
    obtain ⟨hreplies, hend⟩ := ih hrest hfiles
    exact ⟨.cons hreply hreplies, hend⟩

end

/-- A system with one directory, in which everything works. -/
def oneDirectory : Tree Unit := ⟨fun _ _ => (), str "KRCM_FILES"⟩

def World.works : World := ⟨true, true, true, .done⟩

def Options.small : Options := ⟨1, List.replicate 16 2, List.replicate 16 3⟩

/-- A container is stored, read back, and read under another name. -/
def smallHistory : List (World × Call) :=
  [(.works, .encryptToFile [7] (.bytes [1]) [] (str "a") .small),
    (.works, .decryptFromFile (.bytes [1]) [] (str "a")),
    (.works, .decryptFromFile (.bytes [1]) [] (str "b"))]

end Krcm.Py
