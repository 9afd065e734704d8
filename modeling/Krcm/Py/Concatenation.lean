import Krcm.Prefix
import Krcm.Py.Interchange

/-!
# Containers one after the other

What `Krcm.Prefix` says of `decrypt_auto`, of every program that reads
containers: those that it opens are a prefix code, so a stream of them has one
reading (`opened_uniquelyDecodable`), and no cut and no extension of one opens.
-/

namespace Krcm.Py

open Base Outcome InformationTheory

variable {E : Env} {I : Interp} {native : Bool} {password data : Bytes}

/-- The containers below `2 ^ 64` bytes that the program opens under some password. -/
def Decryptor.Opened (E : Env) (I : Interp) (r : Decryptor) : Set Bytes :=
  {c | c.length < 2 ^ 64 ∧ ∃ password data, r.decrypt E I c password = .ok data}

section
variable {p : Hash → Table 256} {q : Hash → Table 32} (hS : SharedTables E p q)
include hS

/-- A ciphertext that decrypts to a padded text is as long as that. -/
theorem length_of_decryptBlocks {ciphertext salt passwordBytes encKey authKey nonce : Bytes}
    {iterations version : Int}
    (hk : deriveKeys E passwordBytes salt iterations = .ok (encKey, authKey))
    (hnonce : nonce.length = 16) (hsize : ciphertext.length < 2 ^ 64)
    (h : decryptBlocks E native ciphertext encKey nonce version = .ok (pad data)) :
    ciphertext.length = 32 * (data.length / 32 + 1) := by
  obtain ⟨-, -, enc, auth, -, rfl, -⟩ := deriveKeys_eq_ok.mp hk
  obtain ⟨v, rfl⟩ : ∃ v : Nonce, nonce = v.toList :=
    ⟨arrOfList _ hnonce, (toList_arrOfList _ _).symm⟩
  obtain ⟨ys, rfl, hpad⟩ := (decryptBlocks_returns_iff hS native version enc v (by omega)).mp h
  have hlen := congrArg List.length hpad
  rw [length_joinBlocks, Layers.length_decryptBlocks, pad_agrees, length_pad] at hlen
  rw [length_joinBlocks, hlen]

/-- What `decrypt_bytes` opens, and the length its header states. -/
theorem frame_of_opened_reference {c : Bytes} (h : c ∈ (Decryptor.reference native).Opened E I) :
    ∃ frame header, c = FrameV4.bytes frame ∧ frame.headerBytes.length ≤ maxHeaderBytes ∧
      frame.tag.length = 32 ∧ fromJsonBytes I frame.headerBytes = .ok header ∧
      frame.ciphertext.length = 32 * (header.originalLength.toNat / 32 + 1) := by
  obtain ⟨hsize, password, data, hopen⟩ := h
  obtain ⟨frame, header, rfl, -, hmax, hread, hh⟩ := decryptBytes_eq_ok.mp (ofPython_eq_ok.mp hopen)
  obtain ⟨encKey, authKey, hk, ht, hd⟩ := hh.keys
  simp only [FrameV4.bytes, List.length_append] at hsize
  refine ⟨frame, header, rfl, hmax, by rw [ht, length_makeTag], hread, ?_⟩
  rw [length_of_decryptBlocks hS hk (readHeader_valid hread).nonce (by omega) hd, ← hh.length,
    Int.toNat_natCast]

theorem prefixCode_reference : PrefixCode ((Decryptor.reference native).Opened E I) := by
  refine .of_length ?_ fun u hu v hv h => ?_
  · intro h
    obtain ⟨frame, -, hc, -⟩ := frame_of_opened_reference hS h
    cases hc
  · obtain ⟨f₁, header₁, rfl, hmax₁, ht₁, hread₁, hlen₁⟩ := frame_of_opened_reference hS hu
    obtain ⟨f₂, header₂, rfl, hmax₂, ht₂, hread₂, hlen₂⟩ := frame_of_opened_reference hS hv
    refine length_eq_of_prefix h hmax₁ hmax₂ ht₁ ht₂ fun hheader => ?_
    rw [hheader] at hread₁
    obtain rfl := ok.inj (hread₁.symm.trans hread₂)
    rw [hlen₁, hlen₂]

omit hS in
theorem nonce_of_unpackHeader {header : Bytes} {fields : CompactHeader}
    (h : unpackHeader header = .ok fields) : fields.nonce.length = 16 := by
  simp only [unpackHeader, bind_eq_ok, rejectIf_eq_ok, not_or, not_not, ok.injEq] at h
  obtain ⟨_, -, _, -, _, -, _, ⟨-, hnonce⟩, rfl⟩ := h
  exact hnonce

/-- What `decrypt_bytes_compact` opens, and the length its header states. -/
theorem parts_of_opened_compact {c : Bytes} (h : c ∈ (Decryptor.compact native).Opened E I) :
    ∃ header fields body, c = compactMagic ++ (header ++ body) ∧ header.length = 45 ∧
      unpackHeader header = .ok fields ∧
      body.length = 32 * (fields.originalLength / 32 + 1) + 32 := by
  obtain ⟨hsize, password, data, hopen⟩ := h
  obtain ⟨header, fields, ciphertext, encKey, authKey, hf, hk, rfl, hd, hlen⟩ :=
    decryptBytesCompact_eq_ok.mp (ofPython_eq_ok.mp hopen)
  simp only [List.length_append] at hsize
  refine ⟨header, fields, ciphertext ++ makeTag E authKey header ciphertext,
    by simp only [List.append_assoc], length_of_unpackHeader hf, hf, ?_⟩
  have hnonce : fields.nonce.length = 16 := nonce_of_unpackHeader hf
  rw [List.length_append, length_makeTag, ← hlen,
    length_of_decryptBlocks hS hk hnonce (by omega) hd]

theorem prefixCode_compact : PrefixCode ((Decryptor.compact native).Opened E I) := by
  refine .of_length ?_ fun u hu v hv h => ?_
  · intro h
    obtain ⟨header, fields, body, hc, -⟩ := parts_of_opened_compact hS h
    cases hc
  · obtain ⟨header₁, fields₁, body₁, rfl, h₁, hf₁, hlen₁⟩ := parts_of_opened_compact hS hu
    obtain ⟨header₂, fields₂, body₂, rfl, h₂, hf₂, hlen₂⟩ := parts_of_opened_compact hS hv
    obtain ⟨rest, heq⟩ := h
    simp only [List.append_assoc] at heq
    obtain ⟨rfl, -⟩ := List.append_inj (List.append_cancel_left heq) (h₁.trans h₂.symm)
    obtain rfl := ok.inj (hf₁.symm.trans hf₂)
    simp only [List.length_append, hlen₁, hlen₂]

theorem Decryptor.prefixCode (r : Decryptor) : PrefixCode (r.Opened E I) := by
  cases r with
  | core =>
    refine (prefixCode_opened E).mono ?_
    rintro c ⟨hsize, password, data, h⟩
    exact ⟨hsize, password, data, ofCore_eq_ok.mp h⟩
  | reference native => exact prefixCode_reference hS
  | compact native => exact prefixCode_compact hS
  | extension =>
    refine (prefixCode_opened E).mono ?_
    rintro c ⟨hsize, password, data, h⟩
    exact ⟨hsize, password, data, pyError_eq_ok.mp (ofPython_eq_ok.mp h)⟩

end

/-- **A stream of containers has one reading**: two lists of containers that a program opens are
the same if their bytes are. A container that opens under any password does not open under any
when it is cut or extended. -/
theorem opened_uniquelyDecodable (E : Env) (I : Interp) (hT : SamplingTerminates E) :
    ∃ n, ∀ m, n ≤ m → ∀ r : Decryptor,
      UniquelyDecodable (r.Opened (E.withFuel m) I) ∧
        ∀ container rest password data, (container ++ rest).length < 2 ^ 64 → rest ≠ [] →
          r.decrypt (E.withFuel m) I container password = .ok data →
            ∀ password' data', r.decrypt (E.withFuel m) I (container ++ rest) password' ≠ .ok data' := by
  obtain ⟨n, hn⟩ := hT.fuel
  refine ⟨n, fun m hm r => ?_⟩
  obtain ⟨p, q, hS⟩ := (hn m hm).sharedTables
  have hcode : PrefixCode (r.Opened (E.withFuel m) I) := r.prefixCode hS
  refine ⟨hcode.uniquelyDecodable, fun container rest password data hsize hrest h password' data' h' =>
    ?_⟩
  have hshort : container.length < 2 ^ 64 := by
    rw [List.length_append] at hsize
    omega
  have heq : container ++ [] = container ++ rest :=
    (List.append_nil _).trans (hcode.eq_of_prefix _ ⟨hshort, password, data, h⟩ _
      ⟨hsize, password', data', h'⟩ (List.prefix_append _ _))
  exact hrest (List.append_cancel_left heq).symm

theorem opened_uniquelyDecodable_small : ∃ m container,
    Decryptor.core.decrypt (Env.zero.withFuel m) .default container [1] = .ok [7] ∧
      UniquelyDecodable (Decryptor.core.Opened (Env.zero.withFuel m) .default) ∧
      Decryptor.core.decrypt (Env.zero.withFuel m) .default (container ++ [0]) [1] ≠ .ok [7] := by
  obtain ⟨n, hn⟩ := opened_uniquelyDecodable .zero .default
    (samplingTerminates_of_zero fun _ _ => rfl)
  obtain ⟨n', hn'⟩ := Env.zero_shufflesTerminate.fuel
  obtain ⟨s, hs, -⟩ := zero_seals (hn' (max n n') (le_max_right _ _)) [7] 64 (by decide) (by decide)
  have hlen : s.frame.bytes.length < 2 ^ 63 := by
    rw [hs.length_bytes, hs.inner, length_packInner]
    decide
  have hopen : Decryptor.core.decrypt (Env.zero.withFuel (max n n')) .default s.frame.bytes [1] =
      .ok [7] :=
    ofCore_eq_ok.mpr ((decryptAuto_v5 (magicV5_frame s.frame)).trans (hs.decrypts (by omega)))
  obtain ⟨hread, hextended⟩ := hn _ (le_max_left _ _) .core
  refine ⟨_, _, hopen, hread, hextended _ [0] [1] [7] ?_ (List.cons_ne_nil _ _) hopen [1] [7]⟩
  rw [List.length_append, List.length_singleton]
  omega

end Krcm.Py
