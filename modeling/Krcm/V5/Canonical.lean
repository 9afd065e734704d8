import Krcm.V5.Sealing

/-!
# Accepted containers are re-encryptions

`reencrypt` writes the container of an inner plaintext cut at given lengths,
under a public header. Every container `decrypt_v5` accepts is written by it
from its own header, inner plaintext and plaintext lengths.
-/

namespace Krcm

open Base Outcome

/-- The container of `inner` under this header, its pieces cut at `lengths`. -/
def reencrypt (E : Env) (password : Bytes) (publicHeader : Arr headerV5Size) (inner : Bytes)
    (lengths : List Nat) : Run Bytes := do
  let parsed ← parsePublicHeader publicHeader.toList
  let root ← deriveRootKey E password parsed.salt.toList parsed.kdf
  let keys := V5Keys.derive E root
  let siv := syntheticIv E keys publicHeader.toList inner
  let (segmentTable, ciphertext) ← encryptPieces E keys parsed.publicNonce siv
    (lengths.splitLengths inner)
  let tag := tagV5 E keys publicHeader.toList siv segmentTable ciphertext
  .ok (Frame.bytes ⟨publicHeader, siv, segmentTable, ciphertext, tag.toList⟩)

/-- The plaintext lengths a canonical table records are those of the pieces. -/
theorem plainLengths_running {segments : List Segment} (h : (plainOf segments).length < 2 ^ 64) :
    (runningEntries 0 0 0 (lengthsOf segments)).map (fun entry => entry.plainLength.toNat) =
      (segments.map Prod.fst).map List.length := by
  have hread := congrArg (List.map fun l => l.1.toNat)
    (lengths_runningEntries 0 0 0 (lengthsOf segments))
  rw [List.map_map] at hread
  refine hread.trans ?_
  unfold lengthsOf
  rw [List.map_map, List.map_map]
  refine List.map_congr_left fun s hs => ?_
  have hle : s.1.length ≤ (plainOf segments).length :=
    (List.sublist_flatten_of_mem (List.mem_map_of_mem hs)).length_le
  exact UInt64.toNat_ofNat_of_lt' (hle.trans_lt h)

/-- **Every accepted container is a re-encryption**: of its own inner plaintext, cut at the
lengths of its own table, under its own header. What is returned is the front of the payload,
and the payload has the stored hash. -/
theorem decryptV5_reencrypts {E : Env} {container password data : Bytes}
    (h : decryptV5 E container password = .ok data) :
    ∃ frame parsed root entries inner, parseContainer E container = .ok (frame, parsed) ∧
      deriveRootKey E password parsed.salt.toList parsed.kdf = .ok root ∧
      parseSegmentTable frame.segmentTable (.ofNat frame.ciphertext.length) = .ok entries ∧
      decryptSegments E (V5Keys.derive E root) parsed.publicNonce frame.syntheticIv
        frame.ciphertext entries = .ok inner ∧
      (entries.map fun entry => entry.plainLength.toNat).sum = inner.length ∧
      reencrypt E password frame.publicHeader inner
        (entries.map fun entry => entry.plainLength.toNat) = .ok container ∧
      ∃ info payload, InnerOf E inner info payload ∧
        data = payload.take info.originalLength.toNat := by
  obtain ⟨frame, parsed, root, segments, hc, hlt, hp, hr, hh, hu⟩ := decryptV5_eq_ok.mp h
  subst hc
  have hct := ciphertext_lt frame hlt
  have hplain := hh.plain_fits hct
  have hpieces := plainLengths_running hplain
  have hencrypt := encryptPieces_ok hh.sealed (by rw [plainTotal_lengthsOf hplain]; exact hplain)
    (by rw [← hh.total hct]; exact hct)
  refine ⟨frame, parsed, root, _, plainOf segments, hh.parseContainer hp hlt, hr,
    hh.parseSegmentTable hct, hh.decryptSegments hct, ?_, ?_, unpackInner_eq_ok.mp hu⟩
  · rw [hpieces, plainOf, List.length_flatten]
  · unfold reencrypt
    rw [hp, ok_bind, hr, ok_bind, hpieces, plainOf, splitLengths_flatten, ← plainOf]
    dsimp only
    rw [← hh.siv, hencrypt, ok_bind, ← hh.table, ← hh.ciphertext, ← hh.tag]

theorem decryptV5_reencrypts_small : ∃ n container publicHeader inner lengths,
    decryptV5 (Env.zero.withFuel n) container [1] = .ok [7] ∧
      reencrypt (Env.zero.withFuel n) [1] publicHeader inner lengths = .ok container := by
  obtain ⟨n, hn⟩ := Env.zero_shufflesTerminate.fuel
  obtain ⟨s, hs, hlen⟩ := zero_seals (hn n le_rfl) [7] 64 (by decide) (by decide)
  obtain ⟨frame, _, _, entries, inner, -, -, -, -, -, hre, -⟩ :=
    decryptV5_reencrypts (hs.decrypts hlen)
  exact ⟨n, _, frame.publicHeader, inner, _, hs.decrypts hlen, hre⟩

end Krcm
