import Krcm.V5.Inner

/-!
# The exact acceptance of the inner plaintext

`Unpacks` states over natural numbers what `unpack_inner` is to accept. The
code adds `payload_length` to 76 in 64 bits, and where that sum overflows it
panics instead (`unpackInner_exact_iff`).
-/

namespace Krcm

open Base Outcome

variable {E : Env} {inner : Bytes}

def unpackInnerForFuzz (E : Env) (inner : Bytes) : Run Unit := do
  let _ ← inspectInner E inner
  .ok ()

/-- A header, behind it at least `payload_length` bytes with the stored hash, and `data` the first
`original_length` of them. -/
def Unpacks (E : Env) (inner data : Bytes) : Prop :=
  ∃ originalLength payloadLength : UInt64,
    inner.take 76 = innerHeader originalLength payloadLength
      (E.sha256 ((inner.drop 76).take payloadLength.toNat)) ∧
    originalLength ≤ payloadLength ∧ 76 + payloadLength.toNat ≤ inner.length ∧
    data = ((inner.drop 76).take payloadLength.toNat).take originalLength.toNat

/-- A header whose `payload_length` is within 76 of `2 ^ 64`. -/
def PayloadOverflows (inner : Bytes) : Prop :=
  ∃ originalLength payloadLength hash,
    inner.take 76 = innerHeader originalLength payloadLength hash ∧
      2 ^ 64 ≤ 76 + payloadLength.toNat

theorem slice_header_iff {originalLength payloadLength : UInt64} {hash : Hash} :
    slice inner 0 innerHeaderBytes =
        (.ok (innerHeader originalLength payloadLength hash) : Run Bytes) ↔
      inner.take 76 = innerHeader originalLength payloadLength hash := by
  have hlen := length_innerHeader originalLength payloadLength hash
  constructor
  · intro h
    obtain ⟨-, s, rfl⟩ := slice_zero_iff.mp h
    rw [List.take_left' hlen]
  · intro h
    refine slice_zero_iff.mpr ⟨hlen.symm, inner.drop 76, ?_⟩
    rw [← h, List.take_append_drop]

theorem payloadOverflows_iff : PayloadOverflows inner ↔ InnerOverflows inner := by
  unfold InnerOverflows
  simp only [inspectFields_eq_ok, slice_header_iff]
  refine ⟨fun ⟨o, p, hash, h, hov⟩ => ⟨⟨o, p⟩, ⟨hash, h⟩, hov⟩, fun ⟨info, ⟨hash, h⟩, hov⟩ => ?_⟩
  exact ⟨info.originalLength, info.payloadLength, hash, h, hov⟩

/-- Where the sum fits, an inner plaintext is what the code accepts. -/
theorem unpacks_iff (h : ¬ PayloadOverflows inner) {data : Bytes} :
    Unpacks E inner data ↔ unpackInner E inner = .ok data := by
  rw [unpackInner_eq_ok]
  constructor
  · rintro ⟨o, p, hhead, hop, hle, hd⟩
    have hplen : ((inner.drop 76).take p.toNat).length = p.toNat := by
      rw [List.length_take, List.length_drop]
      omega
    have hbytes : inner = innerHeader o p (E.sha256 ((inner.drop 76).take p.toNat)) ++
        (inner.drop 76).take p.toNat ++ (inner.drop 76).drop p.toNat := by
      rw [← hhead, List.append_assoc, List.take_append_drop, List.take_append_drop]
    have hfits : innerHeaderBytes + p.toNat < 2 ^ 64 := by
      by_contra hge
      exact h ⟨o, p, _, hhead, Nat.not_lt.mp hge⟩
    exact ⟨⟨o, p⟩, _, ⟨⟨_, hbytes⟩, hplen, hop, hfits⟩, hd⟩
  · rintro ⟨info, payload, hin, hd⟩
    obtain ⟨padding, hbytes⟩ := hin.bytes
    have hlen := length_innerHeader info.originalLength info.payloadLength (E.sha256 payload)
    rw [List.append_assoc] at hbytes
    have hpayload : (inner.drop 76).take info.payloadLength.toNat = payload := by
      rw [hbytes, List.drop_left' hlen, List.take_left' hin.payload_length]
    refine ⟨info.originalLength, info.payloadLength, ?_, hin.original_le, hin.length_le, ?_⟩
    · rw [hpayload]
      conv_lhs => rw [hbytes]
      exact List.take_left' hlen
    · rw [hpayload, hd]

/-- **When `unpack_inner` is total and exact**: exactly when `76 + payload_length` of a well-formed
header is a word. -/
theorem unpackInner_exact_iff (E : Env) (inner : Bytes) :
    ((∀ b, Settles (inspectInner (E.withChecks b) inner) ∧
        Settles (unpackInner (E.withChecks b) inner) ∧
        Settles (unpackInnerForFuzz (E.withChecks b) inner)) ∧
      ∀ b data, unpackInner (E.withChecks b) inner = .ok data ↔ Unpacks E inner data) ↔
      ¬ PayloadOverflows inner := by
  refine ⟨fun h ho => ?_, fun h => ⟨fun b => ?_, fun b data => (unpacks_iff h).symm⟩⟩
  · have hsettles := (h.1 true).1
    rw [inspectInner_panic rfl (payloadOverflows_iff.mp ho)] at hsettles
    exact hsettles
  · rw [payloadOverflows_iff] at h
    refine ⟨inspectInner_settles h, unpackInner_settles h, ?_⟩
    exact settles_bind (inspectInner_settles h) fun _ _ => settles_ok _

/-- `76 + payload_length` is `2 ^ 64`. -/
def overflowingInner : Bytes := innerHeader 0 (.ofNat (2 ^ 64 - 76)) (Vector.replicate 32 0)

theorem overflowingInner_panics : overflowingInner.length = 76 ∧
    ∀ b, inspectInner (Env.zero.withChecks b) overflowingInner = .panic ∧
      unpackInner (Env.zero.withChecks b) overflowingInner = .panic ∧
      unpackInnerForFuzz (Env.zero.withChecks b) overflowingInner = .panic := by
  have hinspect (b : Bool) : inspectInner (Env.zero.withChecks b) overflowingInner = .panic := by
    have hfields : inspectFields overflowingInner = .ok ⟨0, .ofNat (2 ^ 64 - 76)⟩ :=
      inspectFields_eq_ok.mpr ⟨_, slice_header_iff.mpr
        (List.take_of_length_le (length_innerHeader _ _ _).le)⟩
    unfold inspectInner
    rw [hfields, ok_bind]
    cases b with
    | true => rfl
    | false => rfl
  refine ⟨length_innerHeader _ _ _, fun b => ⟨hinspect b, ?_, ?_⟩⟩
  · unfold unpackInner
    rw [hinspect, panic_bind]
  · unfold unpackInnerForFuzz
    rw [hinspect, panic_bind]

end Krcm
