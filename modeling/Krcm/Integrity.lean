import Krcm.Prefix
import Krcm.Safety
import Krcm.V4.Acceptance
import Krcm.V5.Transcript

/-!
# What the tag protects

`tagged` is `decrypt_auto` up to the comparison of the tag: the key and the
message that the tag has to be of, and the tag. A password that does not verify
it is told what anybody can compute, a plaintext never (`decryptAuto_unverified`). A container that
opens and that no run of encryption wrote carries a tag of a message that no run
tagged under that key (`forged`), and one that opens to two plaintexts shows two
keys with one image (`commits`).
-/

namespace Krcm

open Base Outcome

structure Tagged where
  key : Hash
  message : Bytes
  tag : Bytes

/-- `decrypt_auto` up to the comparison of the tag. -/
def tagged (E : Env) (container password : Bytes) : Run Tagged :=
  if magicV4 <+: container then do
    let (frame, header) ← parseContainerV4 E container
    let (_, authKey) ← deriveKeys E password header.salt.toList header.iterations
    .ok ⟨authKey.key, frame.headerBytes ++ frame.ciphertext, frame.tag⟩
  else if magicV5 <+: container then do
    let (frame, parsed) ← parseContainer E container
    let root ← deriveRootKey E password parsed.salt.toList parsed.kdf
    .ok ⟨(V5Keys.derive E root).authKey.key, transcript frame.publicHeader.toList frame.syntheticIv
      frame.segmentTable frame.ciphertext, frame.tag⟩
  else .err .unsupportedVersion

def Tagged.Verifies (E : Env) (t : Tagged) : Prop :=
  t.tag = (E.hmacSha256 t.key.toList t.message).toList

/-- The tag of the container verifies under the password. -/
def Verified (E : Env) (container password : Bytes) : Prop :=
  ∃ t, tagged E container password = .ok t ∧ t.Verifies E

variable {E E' : Env} {container password data : Bytes}

/-! ## Passwords that do not verify -/

/-- What `decrypt_auto` says of a container whose tag does not verify: no secret enters. -/
def refusal (E : Env) (container : Bytes) : Run Bytes :=
  if magicV4 <+: container then do
    let _ ← parseContainerV4 E container
    .err .authentication
  else if magicV5 <+: container then do
    let (_, parsed) ← parseContainer E container
    rejectIf (¬ parsed.kdf.Admitted) .invalidParameter
    .err .authentication
  else .err .unsupportedVersion

/-- The parsers and the build are the same; the hashes and the key derivations need not be. -/
structure Env.SameParsers (E E' : Env) : Prop where
  jsonFromSlice : E.jsonFromSlice = E'.jsonFromSlice
  base64Decode : E.base64Decode = E'.base64Decode
  overflowChecks : E.overflowChecks = E'.overflowChecks

theorem refusal_eq (h : E.SameParsers E') (container : Bytes) :
    refusal E container = refusal E' container := by
  obtain ⟨hmac, sha, pbkdf2, scrypt, json, encode, decode, limit, checks, fuel⟩ := E
  obtain ⟨hmac', sha', pbkdf2', scrypt', json', encode', decode', limit', checks', fuel'⟩ := E'
  obtain ⟨hjson, hdecode, hchecks⟩ := h
  dsimp only at hjson hdecode hchecks
  subst hjson hdecode hchecks
  rfl

/-- A header that was read has the parameters `derive_keys` takes. -/
theorem deriveKeys_of_read {headerBytes : Bytes} {header : HeaderV4}
    (h : HeaderV4.fromJsonBytes E headerBytes = .ok header) (hpw : password ≠ []) :
    ∃ keys, deriveKeys E password header.salt.toList header.iterations = .ok keys := by
  obtain ⟨members, hjson⟩ := fromJsonBytes_object h
  obtain ⟨h1, hmax⟩ := ((fromJsonBytes_eq_ok hjson).mp h).1.iterations_range
  refine deriveKeys_ok hpw Vector.length_toList (fun h0 => ?_) (UInt32.le_iff_toNat_le.mpr hmax)
  rw [h0] at h1
  cases h1

/-- **A password under which the tag does not verify gets the refusal.** -/
theorem eq_refusal (hS : E.ScryptAccepts) (hpw : password ≠ [])
    (h : ¬ Verified E container password) :
    decryptAuto E container password = refusal E container := by
  unfold decryptAuto refusal
  unfold Verified tagged at h
  split_ifs at h ⊢
  · apply bind_congr_ok
    rintro ⟨frame, header⟩ hp
    obtain ⟨-, -, -, -, hread⟩ := parseContainerV4_eq_ok.mp hp
    obtain ⟨⟨encKey, authKey⟩, hk⟩ := @deriveKeys_of_read E password _ _ hread hpw
    rw [hp, ok_bind] at h
    dsimp only at h ⊢
    rw [hk, ok_bind] at h
    have htag : frame.tag ≠ (makeTag E authKey frame.headerBytes frame.ciphertext).toList :=
      fun htag => h ⟨_, rfl, htag⟩
    unfold openFrameV4
    rw [hk, ok_bind]
    dsimp only
    rw [rejectIf_true htag, err_bind]
  · apply bind_congr_ok
    rintro ⟨frame, parsed⟩ hp
    rw [hp, ok_bind] at h
    dsimp only at h ⊢
    by_cases ha : parsed.kdf.Admitted
    · obtain ⟨root, hr⟩ := @deriveRootKey_ok E password parsed.salt.toList _ hS hpw
        Vector.length_toList ha
      rw [hr, ok_bind] at h
      have htag : frame.tag ≠ (tagV5 E (V5Keys.derive E root) frame.publicHeader.toList
          frame.syntheticIv frame.segmentTable frame.ciphertext).toList :=
        fun htag => h ⟨_, rfl, htag⟩
      rw [hr, ok_bind, rejectIf_false (not_not.mpr ha), ok_bind]
      unfold openFrame
      dsimp only
      rw [rejectIf_true htag, err_bind]
    · rw [deriveRootKey_unadmitted ha, rejectIf_true ha, err_bind, err_bind]
  · rfl

/-- What opens verifies. -/
theorem verified_of_opens (h : decryptAuto E container password = .ok data) :
    Verified E container password := by
  unfold decryptAuto at h
  unfold Verified tagged
  split_ifs at h ⊢
  · obtain ⟨⟨frame, header⟩, hp, ho⟩ := bind_eq_ok.mp h
    obtain ⟨encKey, authKey, hk, -, ht⟩ := (openFrameV4_eq_ok.mp ho).keys
    rw [hp, ok_bind]
    dsimp only
    rw [hk, ok_bind]
    exact ⟨_, rfl, ht⟩
  · obtain ⟨⟨frame, parsed⟩, hp, hrest⟩ := bind_eq_ok.mp h
    obtain ⟨root, hr, ho⟩ := bind_eq_ok.mp hrest
    obtain ⟨_, htag, _⟩ := bind_eq_ok.mp ho
    have ht := not_not.mp (rejectIf_eq_ok.mp htag)
    rw [hp, ok_bind]
    dsimp only
    rw [hr, ok_bind]
    exact ⟨_, rfl, ht⟩

/-- A sum of announced lengths that is past 64 bits before the tag is looked at. -/
def FrameOverflows (container : Bytes) : Prop :=
  TableOverflows container ∨ CiphertextOverflows container

theorem refusal_settles (hlt : container.length < 2 ^ 63) (h : ¬ FrameOverflows container) :
    Settles (refusal E container) := by
  obtain ⟨htable, hciphertext⟩ := not_or.mp h
  unfold refusal
  split_ifs
  · exact settles_bind (parseContainerV4_settles container) fun _ _ => settles_err _
  · refine settles_bind (parseContainer_settles hlt htable hciphertext) fun _ _ => ?_
    exact settles_bind rejectIf_settles fun _ _ => settles_err _
  · exact settles_err _

theorem FrameOverflows.panics (hE : E.overflowChecks = true) (hlt : container.length < 2 ^ 63)
    (h : FrameOverflows container) : parseContainer E container = .panic :=
  h.elim parseContainer_table_panic (parseContainer_ciphertext_panic hE hlt)

/-- **No oracle**: the answer to passwords that do not verify the tag is one for all of them, whatever
the hashes and the key derivations are, and never a plaintext. It is an error unless an announced
length is past 64 bits, and then a panic where overflow checks are compiled in. -/
theorem decryptAuto_unverified (hE : E.SameParsers E') (hS : E.ScryptAccepts)
    (hS' : E'.ScryptAccepts) {password' : Bytes} (hpw : password ≠ []) (hpw' : password' ≠ [])
    (h : ¬ Verified E container password) (h' : ¬ Verified E' container password') :
    decryptAuto E container password = decryptAuto E' container password' ∧
      (∀ data, decryptAuto E container password ≠ .ok data) ∧
      (container.length < 2 ^ 63 →
        (¬ FrameOverflows container → ∃ e, decryptAuto E container password = .err e) ∧
          (E.overflowChecks = true → FrameOverflows container →
            decryptAuto E container password = .panic)) := by
  have hno (data : Bytes) : decryptAuto E container password ≠ .ok data :=
    fun hopen => h (verified_of_opens hopen)
  refine ⟨?_, hno, fun hlt => ⟨fun hfits => ?_, fun hchecks hover => ?_⟩⟩
  · rw [eq_refusal hS hpw h, eq_refusal hS' hpw' h', refusal_eq hE]
  · have hsettles : Settles (decryptAuto E container password) := by
      rw [eq_refusal hS hpw h]
      exact refusal_settles hlt hfits
    cases hrun : decryptAuto E container password with
    | ok data => exact absurd hrun (hno data)
    | err e => exact ⟨e, rfl⟩
    | panic | timeout => rw [hrun] at hsettles; exact hsettles.elim
  · exact decryptAuto_panic hchecks hlt (hover.imp id .inl)

/-- A container of zeros but for its tag, which is of ones. -/
theorem decryptAuto_unverified_small : ∃ n container frame parsed,
    parseContainer (Env.zero.withFuel n) container = .ok (frame, parsed) ∧
      decryptAuto (Env.zero.withFuel n) container [1] =
        decryptAuto (Env.zero.withFuel n) container [2] ∧
      ∃ e, decryptAuto (Env.zero.withFuel n) container [1] = .err e := by
  obtain ⟨n, hn⟩ := Env.zero_shufflesTerminate.fuel
  obtain ⟨s, hs, hlen⟩ := zero_seals (hn n le_rfl) [7] 64 (by decide) (by decide)
  obtain ⟨-, -, hheader, htable, htag⟩ := parseContainer_eq_ok.mp (hs.parses hlen)
  let frame : Frame := { s.frame with tag := List.replicate 32 1 }
  have hsize : frame.bytes.length < 2 ^ 63 := by
    have hsealed := hs.length_bytes
    rw [length_frame, htag, hs.inner, length_packInner] at hsealed
    rw [length_frame, List.length_replicate, hsealed]
    decide
  have hp : parseContainer (Env.zero.withFuel n) frame.bytes = .ok (frame, _) :=
    parseContainer_eq_ok.mpr ⟨rfl, by omega, hheader, htable, List.length_replicate⟩
  have hno (password : Bytes) : ¬ Verified (Env.zero.withFuel n) frame.bytes password := by
    rintro ⟨t, ht, hverifies⟩
    unfold tagged at ht
    rw [if_neg (not_magicV4 (magicV5_frame frame)), if_pos (magicV5_frame frame), hp,
      ok_bind] at ht
    obtain ⟨root, -, heq⟩ := bind_eq_ok.mp ht
    cases heq
    have hzero : List.replicate 32 1 = (Vector.replicate 32 (0 : UInt8)).toList := hverifies
    revert hzero
    decide
  obtain ⟨heq, -, hends⟩ := @decryptAuto_unverified (Env.zero.withFuel n) (Env.zero.withFuel n)
    frame.bytes [1] ⟨rfl, rfl, rfl⟩ (fun _ _ _ _ _ _ => ⟨_, rfl⟩) (fun _ _ _ _ _ _ => ⟨_, rfl⟩) [2]
    (List.cons_ne_nil _ _) (List.cons_ne_nil _ _) (hno _) (hno _)
  refine ⟨n, _, _, _, hp, heq, (hends hsize).1 fun hover => ?_⟩
  rw [hover.panics rfl hsize] at hp
  cases hp

/-! ## Containers that no run wrote -/

/-- A run of `encrypt_auto`. -/
structure Query where
  data : Bytes
  password : Bytes
  opts : EncryptOptions

namespace Query

def answer (E : Env) (q : Query) : Run Bytes := encryptAuto E q.data q.password q.opts

/-- The key and the message that the run tags. -/
def tags (E : Env) (q : Query) : Run (Hash × Bytes) :=
  match q.opts with
  | .v4 opts coins => do
    let frame ← sealV4 E q.data q.password opts coins
    let header := opts.header coins q.data
    let (_, authKey) ← deriveKeys E q.password header.salt.toList header.iterations
    .ok (authKey.key, frame.headerBytes ++ frame.ciphertext)
  | .v5 opts coins => do
    let s ← sealV5 E q.data q.password opts coins
    .ok (s.keys.authKey.key, transcript s.frame.publicHeader.toList s.frame.syntheticIv
      s.frame.segmentTable s.frame.ciphertext)

end Query

/-- A container that a tag was computed for or compared with: its version, its frame, and the key
and the message of the tag. -/
inductive Authentic (E : Env) : (container : Bytes) → (key : Hash) → (message : Bytes) → Prop where
  | v4 {frame : FrameV4} {header : HeaderV4} {password data : Bytes}
      {authKey : AuthKey} (nonempty : frame.headerBytes ≠ [])
      (short : frame.headerBytes.length ≤ maxHeaderBytes)
      (reads : HeaderV4.fromJsonBytes E frame.headerBytes = .ok header)
      (holds : HoldsV4 E password data frame header)
      (tag : frame.tag = (makeTag E authKey frame.headerBytes frame.ciphertext).toList) :
      Authentic E frame.bytes authKey.key (frame.headerBytes ++ frame.ciphertext)
  | v5 {frame : Frame} {keys : V5Keys} (fits : frame.bytes.length < 2 ^ 64)
      (tag : frame.tag = (tagV5 E keys frame.publicHeader.toList frame.syntheticIv
        frame.segmentTable frame.ciphertext).toList) :
      Authentic E frame.bytes keys.authKey.key (transcript frame.publicHeader.toList
        frame.syntheticIv frame.segmentTable frame.ciphertext)

/-- What opens is authentic under the key and the message that `decrypt_auto` looks at. -/
theorem authentic_of_opens (h : decryptAuto E container password = .ok data) :
    ∃ t, tagged E container password = .ok t ∧ t.Verifies E ∧
      Authentic E container t.key t.message := by
  unfold decryptAuto at h
  unfold tagged
  split_ifs at h ⊢
  · obtain ⟨⟨frame, header⟩, hp, ho⟩ := bind_eq_ok.mp h
    obtain ⟨hc, hne, hmax, -, hread⟩ := parseContainerV4_eq_ok.mp hp
    have hh : HoldsV4 E password data frame header := openFrameV4_eq_ok.mp ho
    obtain ⟨encKey, authKey, hk, -, ht⟩ := hh.keys
    rw [hp, ok_bind]
    dsimp only
    rw [hk, ok_bind, hc]
    exact ⟨_, rfl, ht, .v4 hne hmax hread hh ht⟩
  · obtain ⟨⟨frame, parsed⟩, hp, hrest⟩ := bind_eq_ok.mp h
    obtain ⟨hc, hsize, -⟩ := parseContainer_eq_ok.mp hp
    obtain ⟨root, hr, ho⟩ := bind_eq_ok.mp hrest
    obtain ⟨_, htag, _⟩ := bind_eq_ok.mp ho
    have ht := not_not.mp (rejectIf_eq_ok.mp htag)
    rw [hp, ok_bind]
    dsimp only
    rw [hr, ok_bind, hc]
    exact ⟨_, rfl, ht, .v5 (hc ▸ hsize) ht⟩

/-- No JSON text starts with a zero byte. -/
def Env.RejectsNul (E : Env) : Prop := ∀ rest, E.jsonFromSlice (0 :: rest) = none

theorem transcript_head (publicHeader : Bytes) (siv : Hash) (table ciphertext : Bytes) :
    ∃ rest, transcript publicHeader siv table ciphertext = 0 :: rest := by
  rw [transcript_eq]
  exact ⟨_, rfl⟩

/-- What `make_tag` takes is no transcript: it starts with a JSON text. -/
theorem message_ne_transcript (hnul : E.RejectsNul) {headerBytes ciphertext : Bytes}
    {header : HeaderV4} (hne : headerBytes ≠ [])
    (hread : HeaderV4.fromJsonBytes E headerBytes = .ok header) (publicHeader : Bytes) (siv : Hash)
    (table ciphertext' : Bytes) :
    headerBytes ++ ciphertext ≠ transcript publicHeader siv table ciphertext' := by
  obtain ⟨rest, hhead⟩ := transcript_head publicHeader siv table ciphertext'
  obtain ⟨members, hjson⟩ := fromJsonBytes_object hread
  rw [hhead]
  intro heq
  obtain ⟨b, bs, rfl⟩ := List.exists_cons_of_ne_nil hne
  obtain rfl := (List.cons.inj heq).1
  rw [hnul] at hjson
  cases hjson

/-- **A key and a message are of one container.** -/
theorem Authentic.container_eq (hJ : E.ObjectsEndInWhitespace) (hnul : E.RejectsNul)
    {c₁ c₂ : Bytes} {k₁ k₂ : Hash} {m₁ m₂ : Bytes} (h₁ : Authentic E c₁ k₁ m₁)
    (h₂ : Authentic E c₂ k₂ m₂) (hk : k₁ = k₂) (hm : m₁ = m₂) : c₁ = c₂ := by
  cases h₁ with
  | @v4 frame₁ header₁ password₁ data₁ authKey₁ hne₁ hmax₁ hread₁ hh₁ ht₁ =>
    cases h₂ with
    | @v4 frame₂ header₂ password₂ data₂ authKey₂ hne₂ hmax₂ hread₂ hh₂ ht₂ =>
      obtain ⟨hheader, hct⟩ := split_unique hJ hh₁ hh₂ hread₁ hread₂ hmax₁ hmax₂ hm
      have htag : frame₁.tag = frame₂.tag := by
        rw [ht₁, ht₂, makeTag, makeTag, hk, hm]
      unfold FrameV4.bytes
      rw [hheader, hct, htag]
    | v5 => exact absurd hm (message_ne_transcript hnul hne₁ hread₁ _ _ _ _)
  | @v5 frame₁ keys₁ hfits₁ ht₁ =>
    cases h₂ with
    | v4 hne₂ _ hread₂ => exact absurd hm.symm (message_ne_transcript hnul hne₂ hread₂ _ _ _ _)
    | @v5 frame₂ keys₂ hfits₂ ht₂ =>
      have htag : frame₁.tag = frame₂.tag := by
        rw [ht₁, ht₂, tagV5, tagV5, hk, hm]
      have hheader (v : Arr headerV5Size) : v.toList.length < 2 ^ 64 := by
        rw [Vector.length_toList]
        decide
      rw [length_frame] at hfits₁ hfits₂
      obtain ⟨hpublic, hsiv, htable, hct⟩ := transcript_inj (hheader _) (hheader _) (by omega)
        (by omega) (by omega) (by omega) hm
      unfold Frame.bytes
      rw [hpublic, hsiv, htable, hct, htag]

/-- What a run tags is of the container it writes. -/
theorem Query.authentic_of_tags {q : Query} {key : Hash} {message : Bytes}
    (hreads : q.opts.Reads E q.data) (hsize : ∀ c, q.answer E = .ok c → c.length < 2 ^ 64)
    (h : q.tags E = .ok (key, message)) :
    ∃ c, q.answer E = .ok c ∧ Authentic E c key message := by
  obtain ⟨data, password, opts⟩ := q
  cases opts with
  | v4 opts coins =>
    obtain ⟨frame, hf, hrest⟩ := bind_eq_ok.mp h
    obtain ⟨⟨encKey, authKey⟩, hk, heq⟩ := bind_eq_ok.mp hrest
    cases heq
    obtain ⟨-, hheader, hh⟩ := sealV4_holds hf
    obtain ⟨hread, -⟩ := sealV4_decrypts hreads hf
    obtain ⟨hpos, hmax⟩ := hreads.length_toJsonBytes
    rw [← hheader] at hpos hmax
    obtain ⟨encKey', authKey', hk', -, ht⟩ := hh.keys
    obtain ⟨rfl, rfl⟩ := Prod.mk.inj (ok.inj (hk.symm.trans hk'))
    refine ⟨frame.bytes, ?_, .v4 (List.ne_nil_of_length_pos hpos) hmax hread hh ht⟩
    exact bind_eq_ok.mpr ⟨frame, hf, rfl⟩
  | v5 opts coins =>
    obtain ⟨s, hs, heq⟩ := bind_eq_ok.mp h
    cases heq
    have hseal := sealV5_eq_ok.mp hs
    have hanswer : Query.answer E ⟨data, password, .v5 opts coins⟩ = .ok s.frame.bytes :=
      bind_eq_ok.mpr ⟨s, hs, rfl⟩
    exact ⟨_, hanswer, .v5 (hsize _ hanswer) hseal.tag⟩

/-- **A new container carries a new tag**: one that opens and that no run wrote has a tag that
verifies, of a message that no run tagged under that key. -/
theorem forged (hJ : E.ObjectsEndInWhitespace) (hnul : E.RejectsNul) {queries : List Query}
    (hreads : ∀ q ∈ queries, q.opts.Reads E q.data)
    (hsize : ∀ q ∈ queries, ∀ c, q.answer E = .ok c → c.length < 2 ^ 64)
    (h : decryptAuto E container password = .ok data)
    (hnew : ∀ q ∈ queries, q.answer E ≠ .ok container) :
    ∃ t, tagged E container password = .ok t ∧ t.Verifies E ∧
      ∀ q ∈ queries, q.tags E ≠ .ok (t.key, t.message) := by
  obtain ⟨t, ht, hverifies, hauthentic⟩ := authentic_of_opens h
  refine ⟨t, ht, hverifies, fun q hq htags => hnew q hq ?_⟩
  obtain ⟨c, hanswer, hc⟩ := q.authentic_of_tags (hreads q hq) (hsize q hq) htags
  rw [hanswer, hc.container_eq hJ hnul hauthentic rfl rfl]

theorem forged_small : ∃ n container t,
    decryptAuto (Env.zero.withFuel n) container [1] = .ok [7] ∧
      tagged (Env.zero.withFuel n) container [1] = .ok t ∧
      Query.tags (Env.zero.withFuel n) ⟨[8], [1], .v5 (smallOptions 64) .zero⟩ ≠
        .ok (t.key, t.message) := by
  obtain ⟨n, hn⟩ := Env.zero_shufflesTerminate.fuel
  obtain ⟨s, hs, hlen⟩ := zero_seals (hn n le_rfl) [7] 64 (by decide) (by decide)
  obtain ⟨s', hs', hlen'⟩ := zero_seals (hn n le_rfl) [8] 64 (by decide) (by decide)
  have hopen : decryptAuto (Env.zero.withFuel n) s.frame.bytes [1] = .ok [7] :=
    (decryptAuto_v5 (magicV5_frame s.frame)).trans (hs.decrypts hlen)
  have hopen' : decryptAuto (Env.zero.withFuel n) s'.frame.bytes [1] = .ok [8] :=
    (decryptAuto_v5 (magicV5_frame s'.frame)).trans (hs'.decrypts hlen')
  have hanswer : Query.answer (Env.zero.withFuel n) ⟨[8], [1], .v5 (smallOptions 64) .zero⟩ =
      .ok s'.frame.bytes := encryptV5_eq_ok.mpr ⟨s', hs', rfl⟩
  obtain ⟨t, ht, -, hfresh⟩ := @forged (Env.zero.withFuel n) s.frame.bytes [1] [7]
    (fun _ _ _ _ h => nomatch h) (fun _ => rfl) [⟨[8], [1], .v5 (smallOptions 64) .zero⟩]
    (List.forall_mem_singleton.mpr trivial)
    (List.forall_mem_singleton.mpr fun c hc => ok.inj (hanswer.symm.trans hc) ▸ hlen') hopen
    (List.forall_mem_singleton.mpr fun hc => by
      rw [hanswer, ok.injEq] at hc
      rw [hc, hopen] at hopen'
      cases hopen')
  exact ⟨n, _, t, hopen, ht, hfresh _ List.mem_cons_self⟩

/-! ## Containers that open to two plaintexts -/

/-- Two keys under which a message has one tag. -/
def KeyCollision (E : Env) (k₁ k₂ : Bytes) (message : Bytes) : Prop :=
  k₁ ≠ k₂ ∧ E.hmacSha256 k₁ message = E.hmacSha256 k₂ message

/-- The half of the root key of version 4 that the authentication key is made of. -/
def authHalf (E : Env) (password : Bytes) (header : HeaderV4) : Bytes :=
  (E.pbkdf2Hmac password header.salt.toList header.iterations 64).toList.extract 32 64

/-- What two passwords that open one container have in common, where they are not one key: a tag,
an authentication key, or half of a root key. -/
inductive Collides (E : Env) (container password₁ password₂ : Bytes) : Prop where
  | tag {t₁ t₂ : Tagged} (tagged₁ : tagged E container password₁ = .ok t₁)
      (tagged₂ : tagged E container password₂ = .ok t₂) (message : t₁.message = t₂.message)
      (collision : KeyCollision E t₁.key.toList t₂.key.toList t₁.message)
  | authV4 {frame : FrameV4} {header : HeaderV4}
      (parsed : parseContainerV4 E container = .ok (frame, header))
      (collision : KeyCollision E (authHalf E password₁ header) (authHalf E password₂ header)
        (ascii "AMPC-AUTH"))
  | halfV4 {frame : FrameV4} {header : HeaderV4}
      (parsed : parseContainerV4 E container = .ok (frame, header))
      (passwords : password₁ ≠ password₂)
      (halves : authHalf E password₁ header = authHalf E password₂ header)
  | authV5 {frame : Frame} {header : ParsedHeader} {root₁ root₂ : RootKey}
      (parsed : parseContainer E container = .ok (frame, header))
      (derived₁ : deriveRootKey E password₁ header.salt.toList header.kdf = .ok root₁)
      (derived₂ : deriveRootKey E password₂ header.salt.toList header.kdf = .ok root₂)
      (collision : KeyCollision E root₁.key.toList root₂.key.toList
        (ascii "KRCM-v5-subkey" ++ ascii "KRCM-v5-auth"))

theorem authKey_of_deriveKeys {header : HeaderV4} {encKey : EncKey} {authKey : AuthKey}
    (h : deriveKeys E password header.salt.toList header.iterations = .ok (encKey, authKey)) :
    authKey.key = E.hmacSha256 (authHalf E password header) (ascii "AMPC-AUTH") := by
  obtain ⟨_, -, hrest⟩ := bind_eq_ok.mp h
  obtain ⟨_, -, heq⟩ := bind_eq_ok.mp hrest
  cases heq
  rfl

section
variable {password₁ password₂ data₁ data₂ : Bytes} (hne : data₁ ≠ data₂)
include hne

theorem commits_v4 (hv : magicV4 <+: container) (h₁ : decryptV4 E container password₁ = .ok data₁)
    (h₂ : decryptV4 E container password₂ = .ok data₂) :
    Collides E container password₁ password₂ := by
  obtain ⟨⟨frame, header⟩, hp, ho₁⟩ := bind_eq_ok.mp h₁
  have ho₂ : openFrameV4 E password₂ frame header = .ok data₂ := by
    unfold decryptV4 at h₂
    rwa [hp, ok_bind] at h₂
  obtain ⟨encKey₁, authKey₁, hk₁, -, ht₁⟩ := (openFrameV4_eq_ok.mp ho₁).keys
  obtain ⟨encKey₂, authKey₂, hk₂, -, ht₂⟩ := (openFrameV4_eq_ok.mp ho₂).keys
  by_cases hkeys : authKey₁.key = authKey₂.key
  · have hauth := hkeys
    rw [authKey_of_deriveKeys hk₁, authKey_of_deriveKeys hk₂] at hauth
    by_cases hhalves : authHalf E password₁ header = authHalf E password₂ header
    · refine .halfV4 hp (fun hpasswords => ?_) hhalves
      subst hpasswords
      exact hne (ok.inj (h₁.symm.trans h₂))
    · exact .authV4 hp ⟨hhalves, hauth⟩
  · have htagged {password : Bytes} {encKey : EncKey} {authKey : AuthKey}
        (hk : deriveKeys E password header.salt.toList header.iterations = .ok (encKey, authKey)) :
        tagged E container password =
          .ok ⟨authKey.key, frame.headerBytes ++ frame.ciphertext, frame.tag⟩ := by
      unfold tagged
      rw [if_pos hv, hp, ok_bind]
      dsimp only
      rw [hk, ok_bind]
    refine .tag (htagged hk₁) (htagged hk₂) rfl ⟨fun h => hkeys (Vector.toList_inj.mp h), ?_⟩
    exact Vector.toList_inj.mp (ht₁.symm.trans ht₂)

theorem commits_v5 (hv : magicV5 <+: container) (h₁ : decryptV5 E container password₁ = .ok data₁)
    (h₂ : decryptV5 E container password₂ = .ok data₂) :
    Collides E container password₁ password₂ := by
  obtain ⟨⟨frame, header⟩, hp, hrest₁⟩ := bind_eq_ok.mp h₁
  obtain ⟨root₁, hr₁, ho₁⟩ := bind_eq_ok.mp hrest₁
  obtain ⟨root₂, hr₂, ho₂⟩ : ∃ root₂,
      deriveRootKey E password₂ header.salt.toList header.kdf = .ok root₂ ∧
        openFrame E (V5Keys.derive E root₂) header.publicNonce frame = .ok data₂ := by
    unfold decryptV5 at h₂
    rw [hp, ok_bind] at h₂
    exact bind_eq_ok.mp h₂
  by_cases hkeys : (V5Keys.derive E root₁).authKey.key = (V5Keys.derive E root₂).authKey.key
  · refine .authV5 hp hr₁ hr₂ ⟨fun hroots => ?_, hkeys⟩
    obtain ⟨key₁⟩ := root₁
    obtain ⟨key₂⟩ := root₂
    obtain rfl : key₁ = key₂ := Vector.toList_inj.mp hroots
    exact hne (ok.inj (ho₁.symm.trans ho₂))
  · have htagged {password : Bytes} {root : RootKey}
        (hr : deriveRootKey E password header.salt.toList header.kdf = .ok root) :
        tagged E container password = .ok ⟨(V5Keys.derive E root).authKey.key,
          transcript frame.publicHeader.toList frame.syntheticIv frame.segmentTable
            frame.ciphertext, frame.tag⟩ := by
      unfold tagged
      rw [if_neg (not_magicV4 hv), if_pos hv, hp, ok_bind]
      dsimp only
      rw [hr, ok_bind]
    obtain ⟨_, htag₁, _⟩ := bind_eq_ok.mp ho₁
    obtain ⟨_, htag₂, _⟩ := bind_eq_ok.mp ho₂
    have ht₁ := not_not.mp (rejectIf_eq_ok.mp htag₁)
    have ht₂ := not_not.mp (rejectIf_eq_ok.mp htag₂)
    refine .tag (htagged hr₁) (htagged hr₂) rfl ⟨fun h => hkeys (Vector.toList_inj.mp h), ?_⟩
    exact Vector.toList_inj.mp (ht₁.symm.trans ht₂)

end

/-- **A container commits to its plaintext**: two passwords that open it open it to one plaintext,
or two keys of theirs have one image. -/
theorem commits {password₁ password₂ data₁ data₂ : Bytes}
    (h₁ : decryptAuto E container password₁ = .ok data₁)
    (h₂ : decryptAuto E container password₂ = .ok data₂) :
    data₁ = data₂ ∨ Collides E container password₁ password₂ := by
  by_cases hdata : data₁ = data₂
  · exact .inl hdata
  · unfold decryptAuto at h₁ h₂
    split_ifs at h₁ h₂ with hv4 hv5
    · exact .inr (commits_v4 hdata hv4 h₁ h₂)
    · exact .inr (commits_v5 hdata hv5 h₁ h₂)

theorem commits_small : ∃ n container,
    decryptAuto (Env.zero.withFuel n) container [1] = .ok [7] ∧
      decryptAuto (Env.zero.withFuel n) container [2] = .ok [7] ∧
      (([7] : Bytes) = [7] ∨ Collides (Env.zero.withFuel n) container [1] [2]) := by
  obtain ⟨n, hn⟩ := Env.zero_shufflesTerminate.fuel
  obtain ⟨s, hs, hlen⟩ := zero_seals (hn n le_rfl) [7] 64 (by decide) (by decide)
  have hopen : decryptAuto (Env.zero.withFuel n) s.frame.bytes [1] = .ok [7] :=
    (decryptAuto_v5 (magicV5_frame s.frame)).trans (hs.decrypts hlen)
  -- Zero hashes derive one key from all passwords.
  have hroot (salt : Bytes) (params : KdfParams) :
      deriveRootKey (Env.zero.withFuel n) [2] salt params =
        deriveRootKey (Env.zero.withFuel n) [1] salt params := by
    cases params <;> simp [deriveRootKey, Env.zero, Env.withFuel]
  have hopen' : decryptAuto (Env.zero.withFuel n) s.frame.bytes [2] = .ok [7] := by
    rw [decryptAuto_v5 (magicV5_frame s.frame)] at hopen ⊢
    unfold decryptV5 at hopen ⊢
    simpa only [hroot] using hopen
  exact ⟨n, _, hopen, hopen', commits hopen hopen'⟩

end Krcm
