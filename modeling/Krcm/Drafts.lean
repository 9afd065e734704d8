import Krcm.Auto
import Krcm.V5.Exact

/-!
# What both formats leave free

A `Draft` of either format is what a container under a password is written
from. `decrypt_auto` opens a container exactly where it has a draft, which is
then its only one, and `encrypt_auto` writes the drafts of its options
(`auto_drafts`).
-/

namespace Krcm

open Base Outcome

variable {E : Env} {password container data : Bytes}

/-! ## v4 -/

/-- The header bytes, in whatever spelling, and the data. -/
structure DraftV4 where
  headerBytes : Bytes
  data : Bytes
  nonempty : headerBytes ≠ []
  short : headerBytes.length ≤ maxHeaderBytes

/-- The container of the data under these header bytes; `Format` where they state another length. -/
def DraftV4.write (E : Env) (password : Bytes) (d : DraftV4) : Run Bytes := do
  let header ← HeaderV4.fromJsonBytes E d.headerBytes
  rejectIf (header.originalLength ≠ .ofNat d.data.length) .format
  let (encKey, authKey) ← deriveKeys E password header.salt.toList header.iterations
  let ciphertext ← encryptBlocks E (pad d.data) encKey header.nonce.toList
  let tag := makeTag E authKey d.headerBytes ciphertext
  .ok (FrameV4.bytes ⟨d.headerBytes, ciphertext, tag.toList⟩)

theorem DraftV4.write_eq_ok {d : DraftV4} : d.write E password = .ok container ↔
    ∃ frame header, container = FrameV4.bytes frame ∧ frame.headerBytes = d.headerBytes ∧
      HeaderV4.fromJsonBytes E d.headerBytes = .ok header ∧
      HoldsV4 E password d.data frame header := by
  simp only [DraftV4.write, bind_eq_ok, rejectIf_eq_ok, not_not, Prod.exists, ok.injEq]
  refine ⟨?_, ?_⟩
  · rintro ⟨header, hp, _, hl, encKey, authKey, hk, ciphertext, hc, rfl⟩
    exact ⟨_, header, rfl, rfl, hp, ⟨encKey, authKey, hk, hc, rfl⟩, hl⟩
  · rintro ⟨⟨_, ciphertext, tag⟩, header, rfl, rfl, hp, ⟨encKey, authKey, hk, hc, ht⟩, hl⟩
    dsimp only at hc ht
    subst ht
    exact ⟨header, hp, (), hl, encKey, authKey, hk, ciphertext, hc, rfl⟩

theorem DraftV4.opens {d : DraftV4} (h : d.write E password = .ok container) :
    decryptV4 E container password = .ok d.data := by
  obtain ⟨frame, header, hc, hheader, hp, hh⟩ := DraftV4.write_eq_ok.mp h
  exact decryptV4_eq_ok.mpr ⟨frame, header, hc, hheader ▸ d.nonempty, hheader ▸ d.short,
    hheader ▸ hp, hh⟩

/-- The framing of a container finds the header bytes of its draft. -/
theorem DraftV4.parses {d : DraftV4} (h : d.write E password = .ok container) :
    ∃ frame header, parseContainerV4 E container = .ok (frame, header) ∧
      frame.headerBytes = d.headerBytes := by
  obtain ⟨frame, header, hc, hheader, hp, hh⟩ := DraftV4.write_eq_ok.mp h
  obtain ⟨encKey, authKey, -, -, ht⟩ := hh.keys
  exact ⟨frame, header, parseContainerV4_eq_ok.mpr ⟨hc, hheader ▸ d.nonempty, hheader ▸ d.short,
    by rw [ht, Vector.length_toList], hheader ▸ hp⟩, hheader⟩

theorem DraftV4.unique {d₁ d₂ : DraftV4} (h₁ : d₁.write E password = .ok container)
    (h₂ : d₂.write E password = .ok container) : d₁ = d₂ := by
  obtain ⟨frame₁, header₁, hparse₁, hheader₁⟩ := DraftV4.parses h₁
  obtain ⟨frame₂, header₂, hparse₂, hheader₂⟩ := DraftV4.parses h₂
  obtain ⟨rfl, -⟩ := Prod.mk.inj (ok.inj (hparse₁.symm.trans hparse₂))
  have hdata := ok.inj ((DraftV4.opens h₁).symm.trans (DraftV4.opens h₂))
  have hheader := hheader₁.symm.trans hheader₂
  cases d₁
  cases d₂
  dsimp only at hdata hheader
  subst hdata hheader
  rfl

theorem exists_draftV4 (h : decryptV4 E container password = .ok data) :
    ∃ d : DraftV4, d.write E password = .ok container ∧ d.data = data := by
  obtain ⟨frame, header, hc, hne, hmax, hp, hh⟩ := decryptV4_eq_ok.mp h
  exact ⟨⟨frame.headerBytes, data, hne, hmax⟩,
    DraftV4.write_eq_ok.mpr ⟨frame, header, hc, rfl, hp, hh⟩, rfl⟩

theorem sealV4_eq_ok {opts : EncryptV4Options} {coins : CoinsV4} {frame : FrameV4} :
    sealV4 E data password opts coins = .ok frame ↔
      (opts.iterations ≠ 0 ∧ opts.iterations ≤ maxPbkdf2Iterations) ∧
        frame.headerBytes = (opts.header coins data).toJsonBytes E ∧
        HoldsV4 E password data frame (opts.header coins data) := by
  refine ⟨sealV4_holds, ?_⟩
  obtain ⟨headerBytes, ciphertext, tag⟩ := frame
  rintro ⟨⟨h0, hm⟩, hheader, ⟨encKey, authKey, hk, hc, ht⟩, -⟩
  dsimp only at hheader hc ht
  subst hheader ht
  unfold sealV4
  rw [rejectIf_false (not_or.mpr ⟨h0, UInt32.not_lt.mpr hm⟩), ok_bind]
  dsimp only
  rw [show opts.iterations = (opts.header coins data).iterations from rfl, hk, ok_bind]
  dsimp only
  rw [hc, ok_bind]

theorem encryptV4_iff_draft {opts : EncryptV4Options} {coins : CoinsV4}
    (hr : E.Reads (opts.header coins data)) :
    encryptV4 E data password opts coins = .ok container ↔
      (opts.iterations ≠ 0 ∧ opts.iterations ≤ maxPbkdf2Iterations) ∧
        ∃ d : DraftV4, d.headerBytes = (opts.header coins data).toJsonBytes E ∧ d.data = data ∧
          d.write E password = .ok container := by
  simp only [encryptV4, bind_eq_ok, sealV4_eq_ok, ok.injEq]
  obtain ⟨hpos, hmax⟩ := hr.length_toJsonBytes
  have hread (hrange : opts.iterations ≠ 0 ∧ opts.iterations ≤ maxPbkdf2Iterations) :
      HeaderV4.fromJsonBytes E ((opts.header coins data).toJsonBytes E) =
        .ok (opts.header coins data) :=
    hr.fromJsonBytes_toJsonBytes
      ⟨show 2 ≤ versionV4 by decide, show versionV4 ≤ 4 by decide⟩ hrange.1 hrange.2
  refine ⟨?_, ?_⟩
  · rintro ⟨frame, ⟨hrange, hheader, hh⟩, rfl⟩
    refine ⟨hrange, ⟨_, data, List.ne_nil_of_length_pos hpos, hmax⟩, rfl, rfl, ?_⟩
    exact DraftV4.write_eq_ok.mpr ⟨frame, _, rfl, hheader, hread hrange, hh⟩
  · rintro ⟨hrange, d, hheader, rfl, hw⟩
    obtain ⟨frame, header, rfl, hframe, hp, hh⟩ := DraftV4.write_eq_ok.mp hw
    rw [hheader, hread hrange, ok.injEq] at hp
    exact ⟨frame, ⟨hrange, hframe.trans hheader, hp ▸ hh⟩, rfl⟩

/-! ## Both -/

inductive Draft where
  | v4 (d : DraftV4)
  | v5 (d : DraftV5)

def Draft.write (E : Env) (password : Bytes) : Draft → Run Bytes
  | .v4 d => d.write E password
  | .v5 d => d.write E password

/-- What a container of the draft opens to. -/
def Draft.plaintext (E : Env) : Draft → Run Bytes
  | .v4 d => .ok d.data
  | .v5 d => unpackInner E d.inner

/-- The drafts of a run of `encrypt_auto`. -/
inductive DraftOf (E : Env) (data : Bytes) : EncryptOptions → Draft → Prop where
  | v4 {opts : EncryptV4Options} {coins : CoinsV4} {d : DraftV4}
    (iterations : opts.iterations ≠ 0 ∧ opts.iterations ≤ maxPbkdf2Iterations)
    (header : d.headerBytes = (opts.header coins data).toJsonBytes E) (plain : d.data = data) :
    DraftOf E data (.v4 opts coins) (.v4 d)
  | v5 {opts : EncryptV5Options} {coins : Coins} {publicHeader : Arr headerV5Size}
    (header : packPublicHeader E opts (opts.salt.getD coins.salt)
      (opts.publicNonce.getD coins.publicNonce) = .ok publicHeader) :
    DraftOf E data (.v5 opts coins) (.v5 (opts.draft E data coins publicHeader))

theorem Draft.not_both {d : DraftV4} {d' : DraftV5} (h : d.write E password = .ok container)
    (h' : d'.write E password = .ok container) : False := by
  obtain ⟨frame, _, rfl, -⟩ := DraftV4.write_eq_ok.mp h
  obtain ⟨frame', _, _, hbytes, -⟩ := DraftV5.writes h'
  have h4 := magicV4_frame frame
  rw [hbytes] at h4
  exact absurd (List.prefix_of_prefix_length_le h4 (magicV5_frame frame') le_rfl) (by decide)

theorem Draft.unique {d₁ d₂ : Draft} (hlen : container.length < 2 ^ 64)
    (h₁ : d₁.write E password = .ok container) (h₂ : d₂.write E password = .ok container) :
    d₁ = d₂ := by
  cases d₁ with
  | v4 d₁ =>
    cases d₂ with
    | v4 d₂ => rw [DraftV4.unique h₁ h₂]
    | v5 d₂ => exact (Draft.not_both h₁ h₂).elim
  | v5 d₁ =>
    cases d₂ with
    | v4 d₂ => exact (Draft.not_both h₂ h₁).elim
    | v5 d₂ => rw [DraftV5.unique hlen h₁ h₂]

theorem Draft.opens {d : Draft} (hlen : container.length < 2 ^ 64)
    (h : d.write E password = .ok container) (hp : d.plaintext E = .ok data) :
    decryptAuto E container password = .ok data := by
  cases d with
  | v4 d =>
    obtain ⟨frame, _, hc, -⟩ := DraftV4.write_eq_ok.mp h
    have hmagic : magicV4 <+: container := hc ▸ magicV4_frame frame
    exact (decryptAuto_v4 hmagic).trans ((DraftV4.opens h).trans hp)
  | v5 d =>
    obtain ⟨frame, _, _, hc, -⟩ := DraftV5.writes h
    have hmagic : magicV5 <+: container := hc ▸ magicV5_frame frame
    exact (decryptAuto_v5 hmagic).trans (DraftV5.opens hlen h hp)

theorem exists_draft (h : decryptAuto E container password = .ok data) :
    ∃ d : Draft, d.write E password = .ok container ∧ d.plaintext E = .ok data := by
  unfold decryptAuto at h
  split_ifs at h with h4 h5
  · obtain ⟨d, hw, hd⟩ := exists_draftV4 h
    exact ⟨.v4 d, hw, congrArg ok hd⟩
  · obtain ⟨d, hw, hu⟩ := exists_draftV5 h
    exact ⟨.v5 d, hw, hu⟩

theorem encryptAuto_iff_draft {opts : EncryptOptions} (hr : opts.Reads E data) :
    encryptAuto E data password opts = .ok container ↔
      ∃ d, DraftOf E data opts d ∧ d.write E password = .ok container := by
  cases opts with
  | v4 opts coins =>
    refine (encryptV4_iff_draft hr).trans ⟨?_, ?_⟩
    · exact fun ⟨hrange, d, hheader, hd, hw⟩ => ⟨.v4 d, .v4 hrange hheader hd, hw⟩
    · rintro ⟨_, hd, hw⟩
      cases hd with
      | v4 hrange hheader hplain => exact ⟨hrange, _, hheader, hplain, hw⟩
  | v5 opts coins =>
    refine encryptV5_iff_draft.trans ⟨?_, ?_⟩
    · exact fun ⟨publicHeader, hh, hw⟩ => ⟨_, .v5 hh, hw⟩
    · rintro ⟨_, hd, hw⟩
      cases hd with
      | v5 hh => exact ⟨_, hh, hw⟩

/-- **Opening is finding the draft.** A container that `decrypt_auto` opens is written from one
draft alone, of either format, and opens to what the draft says; and `encrypt_auto` writes what
is written from the drafts of its options. -/
theorem auto_drafts {E : Env} {password container : Bytes} (hlen : container.length < 2 ^ 64) :
    (∀ data, decryptAuto E container password = .ok data ↔
      ∃! d : Draft, d.write E password = .ok container ∧ d.plaintext E = .ok data) ∧
    ∀ data opts, opts.Reads E data →
      (encryptAuto E data password opts = .ok container ↔
        ∃ d, DraftOf E data opts d ∧ d.write E password = .ok container) := by
  refine ⟨fun data => ⟨fun h => ?_, ?_⟩, fun data opts hr => encryptAuto_iff_draft hr⟩
  · obtain ⟨d, hw, hp⟩ := exists_draft h
    exact ⟨d, ⟨hw, hp⟩, fun d' hd' => Draft.unique hlen hd'.1 hw⟩
  · exact fun ⟨d, ⟨hw, hp⟩, _⟩ => d.opens hlen hw hp

theorem auto_drafts_small : ∃ n container d,
    decryptAuto (Env.zero.withFuel n) container [1] = .ok [7] ∧
      Draft.write (Env.zero.withFuel n) [1] d = .ok container ∧
      d.plaintext (Env.zero.withFuel n) = .ok [7] := by
  obtain ⟨n, hn⟩ := Env.zero_shufflesTerminate.fuel
  obtain ⟨s, hs, hlen⟩ := zero_seals (hn n le_rfl) [7] 64 (by decide) (by decide)
  have hopen : decryptAuto (Env.zero.withFuel n) s.frame.bytes [1] = .ok [7] :=
    (decryptAuto_v5 (magicV5_frame s.frame)).trans (hs.decrypts hlen)
  obtain ⟨d, ⟨hw, hp⟩, -⟩ := ((auto_drafts hlen).1 [7]).mp hopen
  exact ⟨n, _, d, hopen, hw, hp⟩

end Krcm
