import Krcm.Auto

/-!
# Untrusted input

When `decrypt_auto` returns a value or an error. The v4 path always does. The
v5 path adds lengths it has read before it compares them, and there are three
places where such a sum leaves 64 bits: the end of the segment table, the end
of the ciphertext and the tag, and, behind the tag, the end of the payload.
`decryptAuto_settles_iff` says that these are all.
-/

namespace Krcm

open Base Outcome

variable {E : Env} {password : Bytes}

/-! ## v4 -/

theorem parseContainerV4_settles (container : Bytes) : Settles (parseContainerV4 E container) := by
  by_cases hmin : container.length < magicV4.length + 4 + tagBytes
  · unfold parseContainerV4
    rw [rejectIf_true hmin]
    exact settles_err _
  · rw [length_magicV4, tagBytes, Nat.not_lt] at hmin
    unfold parseContainerV4
    refine settles_bind rejectIf_settles fun _ _ => ?_
    refine settles_bind (slice_settles (Nat.zero_le _) (by rw [length_magicV4]; omega)) fun _ _ => ?_
    refine settles_bind rejectIf_settles fun _ _ => ?_
    refine settles_bind (slice_settles (by omega) (by rw [length_magicV4]; omega)) fun lenBytes _ => ?_
    refine settles_bind okOr_settles fun headerEnd hend => ?_
    refine settles_bind rejectIf_settles fun _ hrange => ?_
    rw [rejectIf_eq_ok, not_or, maxHeaderBytes, Nat.not_lt] at hrange
    rw [okOr_eq_ok, length_magicV4, checkedAddUsize_ok (by omega), Option.some_inj] at hend
    rw [length_magicV4, tagBytes, Env.add_ok (by omega), ok_bind]
    refine settles_bind rejectIf_settles fun _ hle => ?_
    rw [rejectIf_eq_ok, Nat.not_lt] at hle
    refine settles_bind (slice_settles (by omega) (by omega)) fun _ _ => ?_
    refine settles_bind fromJsonBytes_settles fun _ _ => ?_
    refine settles_bind (slice_settles (by omega) (by omega)) fun _ _ => ?_
    exact settles_bind (slice_settles (by omega) le_rfl) fun _ _ => settles_ok _

theorem openFrameV4_settles (hE : E.ShufflesReturn) (frame : FrameV4) (header : HeaderV4) :
    Settles (openFrameV4 E password frame header) := by
  unfold openFrameV4
  refine settles_bind deriveKeys_settles fun _ _ => ?_
  refine settles_bind rejectIf_settles fun _ _ => ?_
  refine settles_bind (decryptBlocks_settles hE _ _ _) fun _ _ => ?_
  refine settles_bind (unpad_settles _) fun _ _ => ?_
  exact settles_bind rejectIf_settles fun _ _ => settles_ok _

theorem decryptV4_settles (hE : E.ShufflesReturn) (container : Bytes) :
    Settles (decryptV4 E container password) :=
  settles_bind (parseContainerV4_settles container) fun _ _ => openFrameV4_settles hE _ _

/-! ## v5 framing -/

theorem readFixed32_settles {container : Bytes} {offset : Nat} (h : offset + 32 < 2 ^ 64) :
    Settles (readFixed32 E container offset) := by
  unfold readFixed32
  rw [Env.add_ok h, ok_bind]
  refine settles_bind rejectIf_settles fun _ hle => ?_
  rw [rejectIf_eq_ok, Nat.not_lt] at hle
  refine settles_bind (slice_settles (Nat.le_add_right _ _) hle) fun source hs => ?_
  have hlen := (slice_bounds hs).2.2
  unfold copyFromSlice
  rw [dif_pos (by omega)]
  exact settles_ok _

theorem readU64At_settles {container : Bytes} {offset : Nat} (h : offset + 8 < 2 ^ 64) :
    Settles (readU64At E container offset) := by
  unfold readU64At
  rw [Env.add_ok h, ok_bind]
  refine settles_bind rejectIf_settles fun _ hle => ?_
  rw [rejectIf_eq_ok, Nat.not_lt] at hle
  exact settles_bind (slice_settles (Nat.le_add_right _ _) hle) fun _ _ => settles_ok _

theorem parseFront_settles (container : Bytes) : Settles (parseFront E container) := by
  by_cases hmin : container.length < outerPrefixBytes + headerV5Size + syntheticIvBytes + tagBytes
  · unfold parseFront
    rw [rejectIf_true hmin]
    exact settles_err _
  · have hlong : 141 ≤ container.length := by simpa using hmin
    unfold parseFront
    refine settles_bind rejectIf_settles fun _ _ => ?_
    refine settles_bind (slice_settles (by omega) (by omega)) fun _ _ => ?_
    refine settles_bind rejectIf_settles fun _ _ => ?_
    refine settles_bind (slice_settles (by omega) (by omega)) fun _ _ => ?_
    refine settles_bind rejectIf_settles fun _ _ => ?_
    refine settles_bind (slice_settles (by omega) (by omega)) fun _ _ => ?_
    refine settles_bind rejectIf_settles fun _ _ => ?_
    refine settles_bind (sliceVec_settles (by simp only [headerV5Size]; omega)) fun _ _ => ?_
    refine settles_bind (parsePublicHeader_settles _) fun _ _ => ?_
    refine settles_bind (readFixed32_settles (by decide)) fun read hread => ?_
    obtain ⟨siv, offset⟩ := read
    obtain ⟨rfl, -⟩ := readFixed32_eq_ok.mp hread
    exact settles_bind (readU64At_settles (by decide)) fun _ _ => settles_ok _

/-- The announced end of the segment table is past 64 bits. -/
def TableOverflows (container : Bytes) : Prop :=
  ∃ publicHeader parsed siv tableLen, Fronted container publicHeader parsed siv tableLen ∧
    tableLen % 40 = 0 ∧ 2 ^ 64 ≤ 117 + tableLen

/-- Behind a table of whole entries, the announced end of the ciphertext and the tag is past
64 bits. -/
def CiphertextOverflows (container : Bytes) : Prop :=
  ∃ publicHeader parsed siv table ciphertextLen rest,
    Fronted container publicHeader parsed siv table.length ∧ table.length % 40 = 0 ∧
      container = frontBytes publicHeader siv table.length ++
        (table ++ (beBytes 8 ciphertextLen ++ rest)) ∧
      ciphertextLen < 2 ^ 64 ∧ 2 ^ 64 ≤ 125 + table.length + ciphertextLen + 32

variable {container : Bytes} {publicHeader : Arr headerV5Size} {parsed : ParsedHeader} {siv : Hash}
  {tableLen : Nat}

theorem parseBody_settles (hf : Fronted container publicHeader parsed siv tableLen)
    (hlt : container.length < 2 ^ 63) (ht : ¬ TableOverflows container)
    (hc : ¬ CiphertextOverflows container) : Settles (parseBody E container tableLen 117) := by
  unfold parseBody
  refine settles_bind rejectIf_settles fun _ h40 => ?_
  rw [rejectIf_eq_ok, not_not] at h40
  have hend : 117 + tableLen < 2 ^ 64 := by
    by_contra hge
    exact ht ⟨publicHeader, parsed, siv, tableLen, hf, h40, Nat.not_lt.mp hge⟩
  rw [Env.add_ok hend, ok_bind]
  refine settles_bind rejectIf_settles fun _ hle => ?_
  rw [rejectIf_eq_ok, gt_iff_lt, Nat.not_lt] at hle
  refine settles_bind (slice_settles (Nat.le_add_right _ _) hle) fun table htable => ?_
  obtain rfl : table.length = tableLen := by
    have := (slice_bounds htable).2.2
    omega
  rw [ok_bind]
  refine settles_bind (readU64At_settles (by omega)) fun ⟨ciphertextLen, offset⟩ hread => ?_
  obtain ⟨rfl, -, hfits, hfield⟩ := readU64At_eq_ok.mp hread
  have hfront := slice_append hf.slice (slice_append htable hfield)
  obtain ⟨-, rest, hrest⟩ := slice_zero_iff.mp hfront
  have htotal : 125 + table.length + ciphertextLen + 32 < 2 ^ 64 := by
    by_contra hge
    refine hc ⟨publicHeader, parsed, siv, table, ciphertextLen, rest, hf, h40, ?_, hfits,
      Nat.not_lt.mp hge⟩
    rw [hrest, List.append_assoc, List.append_assoc]
  dsimp only
  rw [Env.add_ok (by omega), ok_bind, Env.add_ok (by simp only [tagBytes]; omega), ok_bind]
  refine settles_bind rejectIf_settles fun _ heq => ?_
  rw [rejectIf_eq_ok, not_not, tagBytes] at heq
  refine settles_bind (slice_settles (Nat.le_add_right _ _) (by omega)) fun _ _ => ?_
  rw [ok_bind]
  exact settles_bind (slice_settles (by omega) le_rfl) fun _ _ => settles_ok _

/-- The sum wraps below the start of the table without overflow checks: the slice panics then. -/
theorem parseBody_table_panic (hf : Fronted container publicHeader parsed siv tableLen)
    (h40 : tableLen % 40 = 0) (hge : 2 ^ 64 ≤ 117 + tableLen) :
    parseBody E container tableLen 117 = .panic := by
  have hlong := hf.long
  have hfits := hf.fits
  unfold parseBody
  rw [rejectIf_false (not_not.mpr h40), ok_bind, Env.add]
  cases E.overflowChecks with
  | true => rw [addW_checked_panic hge, panic_bind]
  | false =>
    have hwrap : (117 + tableLen) % 2 ^ 64 = 117 + tableLen - 2 ^ 64 := by
      rw [Nat.mod_eq_sub_mod hge, Nat.mod_eq_of_lt (by omega)]
    rw [addW_wrap hge, hwrap, ok_bind, rejectIf_false (by omega), ok_bind, slice_panic (by omega),
      panic_bind]

theorem parseBody_ciphertext_panic {table rest : Bytes} {ciphertextLen : Nat}
    (hE : E.overflowChecks = true) (hlt : container.length < 2 ^ 63) (h40 : table.length % 40 = 0)
    (hc : container = frontBytes publicHeader siv table.length ++
      (table ++ (beBytes 8 ciphertextLen ++ rest))) (hfits : ciphertextLen < 2 ^ 64)
    (hge : 2 ^ 64 ≤ 125 + table.length + ciphertextLen + 32) :
    parseBody E container table.length 117 = .panic := by
  have hlen := congrArg List.length hc
  simp only [List.length_append, length_frontBytes, length_beBytes] at hlen
  have htable : slice container 117 (117 + table.length) = (.ok table : Run Bytes) :=
    slice_mid hc (length_frontBytes _ _ _) rfl
  have hfield : slice container (117 + table.length) (117 + table.length + 8) =
      (.ok (beBytes 8 ciphertextLen) : Run Bytes) :=
    slice_mid (p := frontBytes publicHeader siv table.length ++ table) (s := rest)
      (by rw [hc, List.append_assoc]) (by rw [List.length_append, length_frontBytes])
      (by rw [length_beBytes])
  have hread : readU64At E container (117 + table.length) =
      .ok (ciphertextLen, 117 + table.length + 8) :=
    readU64At_eq_ok.mpr ⟨rfl, by omega, hfits, hfield⟩
  unfold parseBody
  rw [rejectIf_false (not_not.mpr h40), ok_bind, Env.add_ok (by omega), ok_bind,
    rejectIf_false (by omega), ok_bind, htable, ok_bind, ok_bind, hread, ok_bind]
  dsimp only
  -- One of the two sums leaves 64 bits.
  by_cases hfirst : 117 + table.length + 8 + ciphertextLen < 2 ^ 64
  · rw [Env.add_ok hfirst, ok_bind, Env.add, hE, addW_checked_panic (by simp only [tagBytes]; omega),
      panic_bind]
  · rw [Env.add, hE, addW_checked_panic (Nat.not_lt.mp hfirst), panic_bind]

theorem parseContainer_settles (hlt : container.length < 2 ^ 63) (ht : ¬ TableOverflows container)
    (hc : ¬ CiphertextOverflows container) : Settles (parseContainer E container) := by
  refine settles_bind (parseFront_settles container) fun ⟨header, parsed, siv, tl, o⟩ hread => ?_
  obtain ⟨rfl, hf⟩ := parseFront_eq_ok.mp hread
  exact settles_bind (parseBody_settles hf hlt ht hc) fun _ _ => settles_ok _

theorem parseContainer_table_panic (h : TableOverflows container) :
    parseContainer E container = .panic := by
  obtain ⟨header, parsed, siv, tl, hf, h40, hge⟩ := h
  unfold parseContainer
  rw [parseFront_eq_ok.mpr ⟨rfl, hf⟩, ok_bind]
  dsimp only
  rw [parseBody_table_panic hf h40 hge, panic_bind]

theorem parseContainer_ciphertext_panic (hE : E.overflowChecks = true)
    (hlt : container.length < 2 ^ 63) (h : CiphertextOverflows container) :
    parseContainer E container = .panic := by
  obtain ⟨header, parsed, siv, table, cl, rest, hf, h40, hc, hfits, hge⟩ := h
  unfold parseContainer
  rw [parseFront_eq_ok.mpr ⟨rfl, hf⟩, ok_bind]
  dsimp only
  rw [parseBody_ciphertext_panic hE hlt h40 hc hfits hge, panic_bind]

/-! ## v5 behind the framing -/

variable {keys : V5Keys} {publicNonce : Nonce} {frame : Frame}

theorem openFrame_settles (hE : E.ShufflesReturn) (hlen : frame.ciphertext.length < 2 ^ 64)
    (h : ∀ segments, Holds E keys publicNonce frame segments → ¬ InnerOverflows (plainOf segments)) :
    Settles (openFrame E keys publicNonce frame) := by
  unfold openFrame
  refine settles_bind rejectIf_settles fun _ htag => ?_
  rw [rejectIf_eq_ok, not_not] at htag
  refine settles_bind (parseSegmentTable_settles _ _) fun entries hparse => ?_
  obtain ⟨lengths, hne, rfl, htable, ha, htotal⟩ := parseSegmentTable_eq_ok.mp hparse
  rw [UInt64.toNat_ofNat', Nat.mod_eq_of_lt hlen] at htotal
  have hentries := @mem_runningEntries lengths 0 0 0 ha
  rw [UInt64.toNat_zero, Nat.zero_add, htotal] at hentries
  refine settles_bind (decryptSegments_settles hE hentries hlen) fun inner hdec => ?_
  obtain ⟨segments, hs, rfl, hct, rfl⟩ := (decryptSegments_eq_ok ha htotal.symm).mp hdec
  refine settles_bind rejectIf_settles fun _ hsiv => ?_
  rw [rejectIf_eq_ok, not_not] at hsiv
  have hinner := h segments ⟨by rintro rfl; exact hne rfl, hs, htable, hct, hsiv, htag⟩
  refine settles_bind (inspectInner_settles hinner) fun _ _ => ?_
  rw [sum_runningEntries ha, ok_bind]
  exact settles_bind rejectIf_settles fun _ _ => unpackInner_settles hinner

theorem openFrame_panic (hE : E.overflowChecks = true) (hlen : frame.ciphertext.length < 2 ^ 64)
    {segments : List Segment} (h : Holds E keys publicNonce frame segments)
    (hinner : InnerOverflows (plainOf segments)) : openFrame E keys publicNonce frame = .panic := by
  unfold openFrame
  dsimp only
  rw [rejectIf_false (not_not.mpr h.tag), ok_bind, h.parseSegmentTable hlen, ok_bind,
    h.decryptSegments hlen, ok_bind, rejectIf_false (not_not.mpr h.siv), ok_bind,
    inspectInner_panic hE hinner, panic_bind]

theorem decryptV5_settles (hE : E.ShufflesReturn) (hlt : container.length < 2 ^ 63)
    (ht : ¬ TableOverflows container) (hc : ¬ CiphertextOverflows container)
    (hs : ∀ frame parsed root segments, container = frame.bytes →
      parsePublicHeader frame.publicHeader.toList = .ok parsed →
      deriveRootKey E password parsed.salt.toList parsed.kdf = .ok root →
      Holds E (V5Keys.derive E root) parsed.publicNonce frame segments →
      ¬ InnerOverflows (plainOf segments)) : Settles (decryptV5 E container password) := by
  refine settles_bind (parseContainer_settles hlt ht hc) fun ⟨frame, parsed⟩ hparse => ?_
  obtain ⟨hbytes, hlt', hp, -, -⟩ := parseContainer_eq_ok.mp hparse
  refine settles_bind deriveRootKey_settles fun root hr => ?_
  exact openFrame_settles hE (ciphertext_lt frame (hbytes ▸ hlt'))
    fun segments hh => hs frame parsed root segments hbytes hp hr hh

/-! ## Both formats -/

/-- The container is the seal, under the password, of an inner plaintext with a well-formed
header whose payload would end past 64 bits. -/
def SealsOverflow (E : Env) (container password : Bytes) : Prop :=
  ∃ frame parsed root segments, container = Frame.bytes frame ∧
    parsePublicHeader frame.publicHeader.toList = .ok parsed ∧
    deriveRootKey E password parsed.salt.toList parsed.kdf = .ok root ∧
    Holds E (V5Keys.derive E root) parsed.publicNonce frame segments ∧
    InnerOverflows (plainOf segments)

/-- Whoever has the password can seal every inner plaintext, and so these too. -/
theorem exists_sealsOverflow (hE : E.ShufflesReturn) {root : RootKey} {inner : Bytes}
    (hp : parsePublicHeader publicHeader.toList = .ok parsed)
    (hr : deriveRootKey E password parsed.salt.toList parsed.kdf = .ok root)
    (hi : InnerOverflows inner) : ∃ container, SealsOverflow E container password := by
  let keys := V5Keys.derive E root
  let siv := syntheticIv E keys publicHeader.toList inner
  obtain ⟨segments, hs, hplain⟩ := exists_sealed hE keys parsed.publicNonce siv 0 [inner]
  have hinner : plainOf segments = inner := by
    unfold plainOf
    rw [hplain, List.flatten_singleton]
  let table := serializeSegmentTable (runningEntries 0 0 0 (lengthsOf segments))
  let tag := tagV5 E keys publicHeader.toList siv table (ciphertextOf segments)
  refine ⟨_, ⟨publicHeader, siv, table, ciphertextOf segments, tag.toList⟩, parsed, root, segments,
    rfl, hp, hr, ⟨?_, hs, rfl, rfl, by rw [hinner], rfl⟩, by rw [hinner]; exact hi⟩
  intro hnil
  rw [hnil] at hplain
  cases hplain

/-- The three inputs of `decrypt_auto` on which a sum of lengths leaves 64 bits. -/
def Overflows (E : Env) (container password : Bytes) : Prop :=
  TableOverflows container ∨ CiphertextOverflows container ∨ SealsOverflow E container password

theorem Holds.withChecks_iff {segments : List Segment} (b : Bool) :
    Holds (E.withChecks b) keys publicNonce frame segments ↔
      Holds E keys publicNonce frame segments := by
  have hsealed (ordinal : Nat) (siv : Hash) :
      Sealed (E.withChecks b) keys publicNonce siv ordinal segments ↔
        Sealed E keys publicNonce siv ordinal segments := by
    induction segments generalizing ordinal with
    | nil => exact Iff.rfl
    | cons s segments ih =>
      simp only [Sealed, encryptBlocks_withChecks, ih]
      exact Iff.rfl
  exact ⟨fun h => ⟨h.nonempty, (hsealed _ _).mp h.sealed, h.table, h.ciphertext, h.siv, h.tag⟩,
    fun h => ⟨h.nonempty, (hsealed _ _).mpr h.sealed, h.table, h.ciphertext, h.siv, h.tag⟩⟩

theorem ShufflesReturn.withChecks (hE : E.ShufflesReturn) (b : Bool) :
    (E.withChecks b).ShufflesReturn := by
  intro seed
  unfold permutationFromSeed smallPermutation
  rw [shuffleFromSeed_withChecks, shuffleFromSeed_withChecks]
  exact hE seed

/-- An input whose sums all fit is decided, with overflow checks and without. -/
theorem decryptAuto_settles (hE : E.ShufflesReturn) (hlt : container.length < 2 ^ 63)
    (h : ¬ Overflows E container password) (b : Bool) :
    Settles (decryptAuto (E.withChecks b) container password) := by
  obtain ⟨ht, hc, hs⟩ : ¬ TableOverflows container ∧ ¬ CiphertextOverflows container ∧
      ¬ SealsOverflow E container password := by simpa only [Overflows, not_or] using h
  have hE' := ShufflesReturn.withChecks hE b
  unfold decryptAuto
  split_ifs
  · exact decryptV4_settles hE' container
  · refine decryptV5_settles hE' hlt ht hc fun frame parsed root segments hb hp hr hh hi => ?_
    exact hs ⟨frame, parsed, root, segments, hb, hp, hr, (Holds.withChecks_iff b).mp hh, hi⟩
  · exact settles_err _

/-- Under overflow checks every other input panics. -/
theorem decryptAuto_panic (hE : E.overflowChecks = true) (hlt : container.length < 2 ^ 63)
    (h : Overflows E container password) : decryptAuto E container password = .panic := by
  have hv5 (hm : magicV5 <+: container) (h : decryptV5 E container password = .panic) :
      decryptAuto E container password = .panic := (decryptAuto_v5 hm).trans h
  rcases h with h | h | h
  · obtain ⟨_, _, _, _, ⟨-, ⟨rest, hrest⟩, -, -⟩, -⟩ := id h
    refine hv5 ⟨_, by rw [hrest, frontBytes, List.append_assoc]⟩ ?_
    unfold decryptV5
    rw [parseContainer_table_panic h, panic_bind]
  · obtain ⟨_, _, _, _, _, _, ⟨-, ⟨rest, hrest⟩, -, -⟩, -⟩ := id h
    refine hv5 ⟨_, by rw [hrest, frontBytes, List.append_assoc]⟩ ?_
    unfold decryptV5
    rw [parseContainer_ciphertext_panic hE hlt h, panic_bind]
  · obtain ⟨frame, parsed, root, segments, rfl, hp, hr, hh, hi⟩ := h
    have hct := ciphertext_lt frame (by omega)
    refine hv5 (magicV5_frame frame) ?_
    unfold decryptV5
    rw [hh.parseContainer hp (by omega), ok_bind]
    dsimp only
    rw [hr, ok_bind, openFrame_panic hE hct hh hi]

/-- **Untrusted input is decided, with overflow checks and without, exactly when no sum of
lengths overflows.** -/
theorem decryptAuto_settles_iff (hT : E.ShufflesTerminate) : ∃ n, ∀ m, n ≤ m →
    ∀ container password : Bytes, container.length < 2 ^ 63 →
      ((∀ b, Settles (decryptAuto ((E.withFuel m).withChecks b) container password)) ↔
        ¬ Overflows (E.withFuel m) container password) := by
  obtain ⟨n, hn⟩ := hT.fuel
  refine ⟨n, fun m hm container password hlt => ⟨fun h ho => ?_, fun h => ?_⟩⟩
  · have hchecks : Overflows ((E.withFuel m).withChecks true) container password := by
      rcases ho with ho | ho | ⟨frame, parsed, root, segments, hb, hp, hr, hh, hi⟩
      · exact .inl ho
      · exact .inr (.inl ho)
      · exact .inr (.inr ⟨frame, parsed, root, segments, hb, hp, hr,
          (Holds.withChecks_iff true).mpr hh, hi⟩)
    have hsettles := h true
    rw [decryptAuto_panic rfl hlt hchecks] at hsettles
    exact hsettles
  · exact decryptAuto_settles (hn m hm) hlt h

/-- A well-formed header that asks for one PBKDF2 iteration. -/
def plainHeader : Arr headerV5Size :=
  arrOfList (magicV5 ++ ([5, 1, 1, 0, 0, 0, 0, 1] ++ List.replicate 48 0)) rfl

/-- It announces `2 ^ 64 - 16` bytes of table, a multiple of 40, behind 117 bytes. -/
def overflowingContainer : Bytes :=
  frontBytes plainHeader (Vector.replicate 32 0) (2 ^ 64 - 16) ++ List.replicate 24 0

theorem overflowingContainer_length : overflowingContainer.length = 141 := by
  rw [overflowingContainer, List.length_append, length_frontBytes, List.length_replicate]

theorem overflowingContainer_table : TableOverflows overflowingContainer := by
  refine ⟨plainHeader, ⟨.pbkdf2 1, Vector.replicate 16 0, Vector.replicate 16 0⟩, _, _,
    ⟨overflowingContainer_length.ge, ⟨_, rfl⟩, ?_, by omega⟩, by omega, by omega⟩
  rfl

theorem decryptAuto_settles_iff_sealed : ∃ n container,
    decryptAuto (Env.zero.withFuel n) container [1] = .ok [7] ∧
      (∀ b, Settles (decryptAuto ((Env.zero.withFuel n).withChecks b) container [1])) ∧
      ¬ ∀ b, Settles (decryptAuto ((Env.zero.withFuel n).withChecks b) overflowingContainer [1]) := by
  obtain ⟨n, h⟩ := decryptAuto_settles_iff Env.zero_shufflesTerminate
  obtain ⟨n', hn'⟩ := Env.zero_shufflesTerminate.fuel
  have hfuel : n ≤ max n n' := le_max_left _ _
  obtain ⟨s, hs, -⟩ := zero_seals (hn' (max n n') (le_max_right _ _)) [7] 64 (by decide) (by decide)
  have hlen : s.frame.bytes.length < 2 ^ 63 := by
    rw [hs.length_bytes, hs.inner, length_packInner]
    decide
  have hopen : decryptAuto (Env.zero.withFuel (max n n')) s.frame.bytes [1] = .ok [7] :=
    (decryptAuto_v5 (magicV5_frame s.frame)).trans (hs.decrypts (by omega))
  have hlt : overflowingContainer.length < 2 ^ 63 := by
    rw [overflowingContainer_length]
    decide
  refine ⟨_, _, hopen, (h _ hfuel s.frame.bytes [1] hlen).mpr fun hover => ?_, fun hsettles => ?_⟩
  · have hpanic := decryptAuto_panic rfl hlen hover
    rw [hopen] at hpanic
    cases hpanic
  · rw [h _ hfuel overflowingContainer [1] hlt] at hsettles
    exact hsettles (.inl overflowingContainer_table)

/-- With overflow checks the sum panics, and without them the slice behind the wrapped sum. -/
theorem overflowingContainer_panics : overflowingContainer.length < 2 ^ 63 ∧
    ∀ b, decryptAuto (Env.zero.withChecks b) overflowingContainer [1] = .panic := by
  refine ⟨by rw [overflowingContainer_length]; decide, fun b => ?_⟩
  rw [decryptAuto_v5 ⟨_, by rw [overflowingContainer, frontBytes, List.append_assoc]⟩, decryptV5,
    parseContainer_table_panic overflowingContainer_table, panic_bind]

end Krcm
