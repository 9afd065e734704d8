import Krcm.Block
import Krcm.Words

/-!
# The messages of a round

`encryptRoundTraced` is a round that keeps the messages its derivations hash
under the round seed. Their lengths tell the derivations apart, whatever the
32 bytes in front of a chained message are; inside one stream the offset in
the label does, as long as it does not wrap (`round_separated`). Nothing else is
hashed under the seed: other hashes that agree at these messages give the same
round (`encryptRound_congr`).
-/

namespace Krcm

open Base Outcome

section model
variable (E : Env)

/-! ## Traced runs -/

/-- What a round derives under its seed. -/
inductive Derivation where
  | perm
  | mask
  | diffuse
  | left
  | right
  | smallPerm
  deriving DecidableEq, Repr

/-- The messages of the loop of `hkdf_expand_like`. -/
def hkdfLoopMessages (key label : Bytes) (length : Nat) :
    Nat → Bytes → Bytes → UInt32 → List Bytes
  | 0, _, _, _ => []
  | k + 1, out, previous, counter =>
    if out.length < length then
      let data := previous ++ label ++ beBytes 4 counter.toNat
      let previous := (E.hmacSha256 key data).toList
      data :: hkdfLoopMessages key label length k (out ++ previous) previous (counter + 1)
    else []

def hkdfExpandLikeMessages (key label : Bytes) (length : Nat) : List Bytes :=
  hkdfLoopMessages E key label length length [] [] 1

def hkdfExpand64Messages (key label : Bytes) : List Bytes :=
  let first := E.hmacSha256 key (label ++ [0, 0, 0, 1])
  [label ++ [0, 0, 0, 1], first.toList ++ label ++ [0, 0, 0, 2]]

/-- A stream with the messages hashed for it. -/
abbrev TracedStream := Stream × List Bytes

def takeU64Traced (seed label : Bytes) (s : TracedStream) : Run (UInt64 × TracedStream) := do
  let messages :=
    if s.1.cursor + 8 > s.1.stream.length then
      s.2 ++ hkdfExpand64Messages E seed (label ++ beBytes 4 s.1.stream.length)
    else s.2
  let (r, stream) ← takeU64 E seed label s.1
  .ok (r, stream, messages)

def drawLoopTraced (seed label : Bytes) (limit : Nat) :
    Nat → TracedStream → Run (UInt64 × TracedStream)
  | 0, _ => .timeout
  | k + 1, s => do
    let (r, s) ← takeU64Traced E seed label s
    if r.toNat ≥ limit then drawLoopTraced seed label limit k s else .ok (r, s)

theorem word_mod_lt (r : UInt64) (i : Nat) : r.toNat % (i + 1) < i + 1 := Nat.mod_lt _ i.succ_pos

def drawIndexTraced (seed label : Bytes) (i : Nat) (s : TracedStream) :
    Run (Fin (i + 1) × TracedStream) := do
  let (r, s) ← drawLoopTraced E seed label (rejectionLimit (i + 1)) E.fuel s
  .ok (⟨r.toNat % (i + 1), word_mod_lt r i⟩, s)

def shuffleFromSeedTraced (label seed : Bytes) : (size : Nat) → Run (Table size × TracedStream)
  | 0 => .ok (Table.ident 0, Stream.empty, [])
  | n + 1 => Table.shuffle (drawIndexTraced E seed label) n n.lt_succ_self (Table.ident (n + 1))
      (Stream.empty, [])

/-- What a round hashed, and the words its two shuffles drew. -/
structure RoundTrace where
  messages : List (Derivation × Bytes)
  permWords : Nat
  smallPermWords : Nat

/-- The body of the loop of `encrypt_one_block`, traced. -/
def encryptRoundTraced (seed : Bytes) (state : Block) (roundIndex : Nat) :
    Run (Block × RoundTrace) := do
  let rseed := (roundSeed E seed roundIndex).toList
  let (perm, s, permMessages) ← shuffleFromSeedTraced E (ascii "perm") rseed 256
  let maskMessages := hkdfExpandLikeMessages E rseed (ascii "mask") 32
  let state := substitute perm (hkdfExpandLike E rseed (ascii "mask") 32) state
  let diffuseMessages := hkdfExpandLikeMessages E rseed (ascii "diffuse") 64
  let state := diffuseBytes E state rseed
  let words := wordsFromBlock state
  let mixed := matrixMul (leftMatrix E rseed) (matrixMul words (rightMatrix E rseed))
  let state := blockFromWords mixed
  let (perm, s', smallPermMessages) ← shuffleFromSeedTraced E (ascii "small-perm") rseed blockBytes
  let messages := permMessages.map (.perm, ·) ++ maskMessages.map (.mask, ·) ++
    diffuseMessages.map (.diffuse, ·) ++ [(.left, ascii "left")] ++ [(.right, ascii "right")] ++
    smallPermMessages.map (.smallPerm, ·)
  .ok (applyPositionPermutation state perm, ⟨messages, s.cursor / 8, s'.cursor / 8⟩)

end model

variable {E : Env} {seed label : Bytes}

/-! ## What is hashed -/

theorem hkdfExpandLikeMessages_32 (key label : Bytes) :
    hkdfExpandLikeMessages E key label 32 = [label ++ [0, 0, 0, 1]] := by
  unfold hkdfExpandLikeMessages hkdfLoopMessages
  rw [if_pos (by decide)]
  dsimp only
  unfold hkdfLoopMessages
  rw [if_neg (by simp)]
  rfl

theorem hkdfExpandLikeMessages_64 (key label : Bytes) :
    hkdfExpandLikeMessages E key label 64 = hkdfExpand64Messages E key label := by
  unfold hkdfExpandLikeMessages hkdfLoopMessages
  rw [if_pos (by decide)]
  dsimp only
  unfold hkdfLoopMessages
  rw [if_pos (by simp)]
  dsimp only
  unfold hkdfLoopMessages
  rw [if_neg (by simp)]
  rfl

/-- The messages of the expansions that `n` words take. -/
def streamMessages (E : Env) (seed label : Bytes) (n : Nat) : List Bytes :=
  (List.range ((n + 7) / 8)).flatMap fun i =>
    hkdfExpand64Messages E seed (label ++ beBytes 4 (64 * i))

/-- The traced stream after `n` words. -/
def TracedStream.after (E : Env) (seed label : Bytes) (n : Nat) : TracedStream :=
  (.after E seed label n, streamMessages E seed label n)

theorem takeU64Traced_after (n : Nat) : takeU64Traced E seed label (.after E seed label n) =
    .ok (word E seed label n, .after E seed label (n + 1)) := by
  have hmessages : (if (Stream.after E seed label n).cursor + 8 >
      (Stream.after E seed label n).stream.length then
        streamMessages E seed label n ++ hkdfExpand64Messages E seed
          (label ++ beBytes 4 (Stream.after E seed label n).stream.length)
      else streamMessages E seed label n) = streamMessages E seed label (n + 1) := by
    unfold Stream.after
    dsimp only
    rw [length_expansions]
    unfold streamMessages
    by_cases hfull : n % 8 = 0
    · have hk : (n + 7) / 8 = n / 8 := by omega
      have hnext : (n + 1 + 7) / 8 = n / 8 + 1 := by omega
      rw [if_pos (by omega), hk, hnext, List.range_succ, List.flatMap_append]
      simp
    · have hnext : (n + 1 + 7) / 8 = (n + 7) / 8 := by omega
      rw [if_neg (by omega), hnext]
  unfold takeU64Traced TracedStream.after
  dsimp only
  rw [takeU64_after, ok_bind, hmessages]

/-- The traced stream of a stream that is read from its beginning. -/
def traced (E : Env) (seed label : Bytes) (s : Stream) : TracedStream :=
  (s, streamMessages E seed label (s.cursor / 8))

theorem traced_after (n : Nat) :
    traced E seed label (.after E seed label n) = .after E seed label n := by
  unfold traced TracedStream.after Stream.after
  rw [Nat.mul_div_cancel_left n (by decide)]

theorem drawLoopTraced_after (limit : Nat) :
    ∀ (k n : Nat), drawLoopTraced E seed label limit k (.after E seed label n) =
      (fun r => (r.1, traced E seed label r.2)) <$>
        drawLoop E seed label limit k (.after E seed label n)
  | 0, _ => rfl
  | k + 1, n => by
    unfold drawLoopTraced drawLoop
    rw [takeU64Traced_after, takeU64_after, ok_bind, ok_bind]
    by_cases hge : (word E seed label n).toNat ≥ limit
    · simp only [hge, ↓reduceIte]
      exact drawLoopTraced_after limit k (n + 1)
    · simp only [hge, ↓reduceIte, map_ok, traced_after]

theorem drawIndexTraced_after (i n : Nat) :
    drawIndexTraced E seed label i (.after E seed label n) =
      (fun r => (r.1, traced E seed label r.2)) <$>
        drawIndex E seed label i (.after E seed label n) := by
  unfold drawIndexTraced drawIndex
  rw [drawLoopTraced_after]
  cases drawLoop E seed label (rejectionLimit (i + 1)) E.fuel (.after E seed label n) <;> rfl

/-- **Tracing a shuffle changes no result**, and what it hashed is what its words take. -/
theorem shuffleFromSeedTraced_eq (n : Nat) :
    shuffleFromSeedTraced E label seed (n + 1) =
      (fun r => (r.1, traced E seed label r.2)) <$>
        Table.shuffle (drawIndex E seed label) n n.lt_succ_self (Table.ident (n + 1)) .empty := by
  have hstart : ((Stream.empty, []) : TracedStream) = traced E seed label .empty := rfl
  unfold shuffleFromSeedTraced
  rw [hstart]
  refine Table.shuffle_map (P := fun s => ∃ m, s = .after E seed label m) ?_ ?_ n _ _ _ ⟨0, rfl⟩
  · rintro i _ ⟨m, rfl⟩
    rw [traced_after]
    exact drawIndexTraced_after i m
  · rintro i _ ⟨j, s'⟩ ⟨m, rfl⟩ hr
    obtain ⟨m', -, hs, -⟩ := drawIndex_after hr
    exact ⟨m' + 1, hs⟩

theorem shuffleFromSeedTraced_fst (size : Nat) :
    Prod.fst <$> shuffleFromSeedTraced E label seed size = shuffleFromSeed E label seed size := by
  cases size with
  | zero => rfl
  | succ n =>
    rw [shuffleFromSeedTraced_eq, shuffleFromSeed, ← comp_map]
    rfl

theorem shuffleFromSeedTraced_messages {size : Nat} {t : Table size} {s : Stream}
    {messages : List Bytes} (h : shuffleFromSeedTraced E label seed size = .ok (t, s, messages)) :
    messages = streamMessages E seed label (s.cursor / 8) := by
  cases size with
  | zero =>
    cases h
    rfl
  | succ n =>
    rw [shuffleFromSeedTraced_eq, map_eq_ok] at h
    obtain ⟨_, -, h⟩ := h
    cases h
    rfl

/-! ## What tells messages apart -/

theorem length_expand64Message {key label m : Bytes} (h : m ∈ hkdfExpand64Messages E key label) :
    m.length = label.length + 4 ∨ m.length = label.length + 36 := by
  unfold hkdfExpand64Messages at h
  rcases List.mem_pair.mp h with rfl | rfl
  · left
    simp
  · right
    simp only [List.length_append, Vector.length_toList, List.length_cons, List.length_nil]
    omega

theorem length_streamMessage {n : Nat} {m : Bytes} (h : m ∈ streamMessages E seed label n) :
    m.length = label.length + 8 ∨ m.length = label.length + 40 := by
  unfold streamMessages at h
  obtain ⟨i, -, hm⟩ := List.mem_flatMap.mp h
  have hlen := length_expand64Message hm
  rw [List.length_append, length_beBytes] at hlen
  omega

/-- The label ends the first message and, before the counter, the chained one. -/
theorem expand64Messages_nodup (key label : Bytes) : (hkdfExpand64Messages E key label).Nodup := by
  unfold hkdfExpand64Messages
  refine List.nodup_cons.mpr ⟨fun h => ?_, List.nodup_singleton _⟩
  have hlen := congrArg List.length (List.mem_singleton.mp h)
  simp only [List.length_append, Vector.length_toList, List.length_cons, List.length_nil] at hlen
  omega

/-- Expansions with labels of one length share a message only if the labels are equal. -/
theorem label_eq_of_message {key a b m : Bytes} (hlen : a.length = b.length)
    (ha : m ∈ hkdfExpand64Messages E key a) (hb : m ∈ hkdfExpand64Messages E key b) : a = b := by
  unfold hkdfExpand64Messages at ha hb
  rcases List.mem_pair.mp ha with rfl | rfl
  · rcases List.mem_pair.mp hb with h | h
    · exact (List.append_inj h hlen).1
    · have := congrArg List.length h
      simp only [List.length_append, Vector.length_toList, List.length_cons, List.length_nil] at this
      omega
  · rcases List.mem_pair.mp hb with h | h
    · have := congrArg List.length h
      simp only [List.length_append, Vector.length_toList, List.length_cons, List.length_nil] at this
      omega
    · rw [List.append_assoc, List.append_assoc] at h
      have hrest := (List.append_inj h (by simp)).2
      exact (List.append_inj hrest hlen).1

/-- **A stream of fewer than `2 ^ 29` words hashes no message twice.** -/
theorem streamMessages_nodup {n : Nat} (hn : n < 2 ^ 29) : (streamMessages E seed label n).Nodup := by
  unfold streamMessages
  rw [List.nodup_flatMap]
  refine ⟨fun i _ => expand64Messages_nodup _ _, ?_⟩
  refine List.Pairwise.imp_of_mem (R := (· ≠ ·)) (fun {i j} hi hj hne m ha hb => ?_)
    List.nodup_range
  have hi' := List.mem_range.mp hi
  have hj' := List.mem_range.mp hj
  have hlabel := label_eq_of_message (by simp) ha hb
  exact hne (expansion_label_injective (by omega) (by omega) hlabel)

/-- Distinct messages of the given lengths. -/
structure Separated (messages : List Bytes) (lengths : List Nat) : Prop where
  nodup : messages.Nodup
  length_mem : ∀ m ∈ messages, m.length ∈ lengths

theorem Separated.append {l l' : List Bytes} {ns ns' : List Nat} (h : Separated l ns)
    (h' : Separated l' ns') (hne : ∀ n ∈ ns, n ∉ ns') : Separated (l ++ l') (ns ++ ns') where
  nodup := by
    refine List.nodup_append.mpr ⟨h.nodup, h'.nodup, fun a ha b hb heq => ?_⟩
    subst heq
    exact hne _ (h.length_mem a ha) (h'.length_mem a hb)
  length_mem m hm := by
    rcases List.mem_append.mp hm with hm | hm
    · exact List.mem_append_left _ (h.length_mem m hm)
    · exact List.mem_append_right _ (h'.length_mem m hm)

theorem Separated.singleton (m : Bytes) : Separated [m] [m.length] where
  nodup := List.nodup_singleton m
  length_mem _ h := by
    rw [List.mem_singleton.mp h]
    exact List.mem_singleton_self _

theorem Separated.expand64 (key label : Bytes) :
    Separated (hkdfExpand64Messages E key label) [label.length + 4, label.length + 36] where
  nodup := expand64Messages_nodup key label
  length_mem _ h := List.mem_pair.mpr (length_expand64Message h)

theorem Separated.stream {n : Nat} (hn : n < 2 ^ 29) :
    Separated (streamMessages E seed label n) [label.length + 8, label.length + 40] where
  nodup := streamMessages_nodup hn
  length_mem _ h := List.mem_pair.mpr (length_streamMessage h)

/-- What a traced round that returned hashed. -/
theorem encryptRoundTraced_messages {seed : Bytes} {state out : Block} {r : Nat} {trace : RoundTrace}
    (h : encryptRoundTraced E seed state r = .ok (out, trace)) :
    trace.messages.map Prod.snd =
      streamMessages E (roundSeed E seed r).toList (ascii "perm") trace.permWords ++
        [ascii "mask" ++ [0, 0, 0, 1]] ++
        hkdfExpand64Messages E (roundSeed E seed r).toList (ascii "diffuse") ++ [ascii "left"] ++
        [ascii "right"] ++
        streamMessages E (roundSeed E seed r).toList (ascii "small-perm") trace.smallPermWords := by
  unfold encryptRoundTraced at h
  obtain ⟨⟨perm, s, permMessages⟩, hperm, h⟩ := bind_eq_ok.mp h
  obtain ⟨⟨perm', s', smallPermMessages⟩, hsmall, h⟩ := bind_eq_ok.mp h
  obtain ⟨-, htrace⟩ := Prod.mk.inj (ok.inj h)
  rw [← htrace, ← shuffleFromSeedTraced_messages hperm, ← shuffleFromSeedTraced_messages hsmall,
    hkdfExpandLikeMessages_32, hkdfExpandLikeMessages_64]
  simp only [List.map_append, List.map_map, Function.comp_def, List.map_id_fun', id_eq, List.map_cons,
    List.map_nil]

/-- Tracing a round changes no result. -/
theorem encryptRoundTraced_fst (seed : Bytes) (state : Block) (r : Nat) :
    Prod.fst <$> encryptRoundTraced E seed state r = encryptRound E seed state r := by
  have hperm := @shuffleFromSeedTraced_fst E (roundSeed E seed r).toList (ascii "perm") 256
  have hsmall := @shuffleFromSeedTraced_fst E (roundSeed E seed r).toList (ascii "small-perm") blockBytes
  unfold encryptRoundTraced encryptRound preSubstitute permutationFromSeed smallPermutation
  dsimp only
  rw [← hperm, ← hsmall]
  cases shuffleFromSeedTraced E (ascii "perm") (roundSeed E seed r).toList 256 with
  | ok x =>
    cases shuffleFromSeedTraced E (ascii "small-perm") (roundSeed E seed r).toList blockBytes <;> rfl
  | err e => rfl
  | panic => rfl
  | timeout => rfl

/-- **The messages of a round are pairwise distinct**, whatever the hashes are, as long as each
shuffle draws fewer than `2 ^ 29` words. -/
theorem round_separated (E : Env) (seed : Bytes) (state : Block) (r : Nat) :
    Prod.fst <$> encryptRoundTraced E seed state r = encryptRound E seed state r ∧
      ∀ out trace, encryptRoundTraced E seed state r = .ok (out, trace) →
        trace.permWords < 2 ^ 29 → trace.smallPermWords < 2 ^ 29 →
          trace.messages.Pairwise fun a b => a.2 ≠ b.2 := by
  refine ⟨encryptRoundTraced_fst seed state r, fun out trace h hperm hsmall => ?_⟩
  have hperm := @Separated.stream E (roundSeed E seed r).toList (ascii "perm") _ hperm
  have hsmall := @Separated.stream E (roundSeed E seed r).toList (ascii "small-perm") _ hsmall
  have hdiffuse := @Separated.expand64 E (roundSeed E seed r).toList (ascii "diffuse")
  -- The lengths are 12 and 44, 8, 11 and 43, 4, 5, 18 and 50.
  have hnodup := (((((hperm.append (.singleton (ascii "mask" ++ [0, 0, 0, 1])) (by decide)).append
    hdiffuse (by decide)).append (.singleton (ascii "left")) (by decide)).append
    (.singleton (ascii "right")) (by decide)).append hsmall (by decide)).nodup
  rw [← encryptRoundTraced_messages h] at hnodup
  exact List.pairwise_map.mp hnodup

/-! ## What a round depends on -/

/-- The hashes under the key agree at the messages. -/
def AgreeAt (E E' : Env) (key : Bytes) (messages : List Bytes) : Prop :=
  ∀ m ∈ messages, E'.hmacSha256 key m = E.hmacSha256 key m

theorem AgreeAt.subset {E' : Env} {key : Bytes} {l l' : List Bytes} (h : AgreeAt E E' key l')
    (hl : l ⊆ l') : AgreeAt E E' key l := fun m hm => h m (hl hm)

/-- From the traced stream `s` on, the first run only adds messages; and where the hashes agree at
what it has then, the second returns the same. -/
def Reruns (E E' : Env) (key : Bytes) {α : Type} (run run' : Run (α × TracedStream))
    (s : TracedStream) : Prop :=
  ∀ a s', run = .ok (a, s') → s.2 <+: s'.2 ∧ (AgreeAt E E' key s'.2 → run' = .ok (a, s'))

section
variable {E' : Env} {key : Bytes}

theorem Reruns.ok {α : Type} (a : α) (s : TracedStream) :
    Reruns E E' key (.ok (a, s)) (.ok (a, s)) s := by
  rintro _ _ ⟨⟩
  exact ⟨List.prefix_rfl, fun _ => rfl⟩

theorem Reruns.bind {α β : Type} {run run' : Run (α × TracedStream)} {s : TracedStream}
    {f f' : α × TracedStream → Run (β × TracedStream)} (h : Reruns E E' key run run' s)
    (hf : ∀ a s', Reruns E E' key (f (a, s')) (f' (a, s')) s') :
    Reruns E E' key (run >>= f) (run' >>= f') s := by
  intro b s'' hrun
  obtain ⟨⟨a, s'⟩, ha, hb⟩ := bind_eq_ok.mp hrun
  obtain ⟨hle, hrun'⟩ := h a s' ha
  obtain ⟨hle', hf'⟩ := hf a s' b s'' hb
  refine ⟨hle.trans hle', fun hagree => ?_⟩
  rw [hrun' (hagree.subset hle'.subset), ok_bind, hf' hagree]

theorem hkdfExpand64_congr (h : AgreeAt E E' key (hkdfExpand64Messages E key label)) :
    hkdfExpand64 E' key label = hkdfExpand64 E key label ∧
      hkdfExpand64Messages E' key label = hkdfExpand64Messages E key label := by
  have hfirst := h _ List.mem_cons_self
  have hsecond := h _ (List.mem_cons_of_mem _ (List.mem_singleton_self _))
  unfold hkdfExpand64 hkdfExpand64Messages
  dsimp only
  rw [hfirst, hsecond]
  exact ⟨rfl, rfl⟩

theorem hkdfLoop_congr (length : Nat) :
    ∀ (k : Nat) (out previous : Bytes) (counter : UInt32),
      AgreeAt E E' key (hkdfLoopMessages E key label length k out previous counter) →
        hkdfLoop E' key label length k out previous counter =
            hkdfLoop E key label length k out previous counter ∧
          hkdfLoopMessages E' key label length k out previous counter =
            hkdfLoopMessages E key label length k out previous counter
  | 0, _, _, _, _ => ⟨rfl, rfl⟩
  | k + 1, out, previous, counter, h => by
    unfold hkdfLoop hkdfLoopMessages
    unfold hkdfLoopMessages at h
    split at h
    · next hlt =>
      rw [if_pos hlt, if_pos hlt, if_pos hlt, if_pos hlt]
      have hhead := h _ List.mem_cons_self
      have hrest := hkdfLoop_congr length k _ _ _ (h.subset (List.subset_cons_self _ _))
      dsimp only
      rw [hhead, hrest.1, hrest.2]
      exact ⟨rfl, rfl⟩
    · next hge =>
      rw [if_neg hge, if_neg hge, if_neg hge, if_neg hge]
      exact ⟨rfl, rfl⟩

theorem hkdfExpandLike_congr {length : Nat}
    (h : AgreeAt E E' key (hkdfExpandLikeMessages E key label length)) :
    hkdfExpandLike E' key label length = hkdfExpandLike E key label length ∧
      hkdfExpandLikeMessages E' key label length = hkdfExpandLikeMessages E key label length := by
  obtain ⟨hloop, hmessages⟩ := hkdfLoop_congr length length [] [] 1 h
  refine ⟨Vector.toArray_inj.mp ?_, hmessages⟩
  unfold hkdfExpandLike
  dsimp only
  rw [hloop]

theorem takeU64Traced_reruns (s : TracedStream) :
    Reruns E E' key (takeU64Traced E key label s) (takeU64Traced E' key label s) s := by
  intro r s' hrun
  unfold takeU64Traced takeU64 at hrun ⊢
  by_cases hempty : s.1.cursor + 8 > s.1.stream.length
  · simp only [hempty, ↓reduceIte] at hrun ⊢
    obtain ⟨_, -, hs⟩ := bind_eq_ok.mp hrun
    cases hs
    refine ⟨List.prefix_append _ _, fun hagree => ?_⟩
    obtain ⟨hexpand, hmessages⟩ := hkdfExpand64_congr (hagree.subset (List.subset_append_right _ _))
    rw [hexpand, hmessages]
    exact hrun
  · simp only [hempty, ↓reduceIte] at hrun ⊢
    obtain ⟨_, -, hs⟩ := bind_eq_ok.mp hrun
    cases hs
    exact ⟨List.prefix_rfl, fun _ => hrun⟩

theorem drawLoopTraced_reruns (limit : Nat) : ∀ (k : Nat) (s : TracedStream),
    Reruns E E' key (drawLoopTraced E key label limit k s) (drawLoopTraced E' key label limit k s) s
  | 0, _ => nofun
  | k + 1, s => by
    unfold drawLoopTraced
    refine (takeU64Traced_reruns s).bind fun r s' => ?_
    dsimp only
    split
    · exact drawLoopTraced_reruns limit k s'
    · exact .ok r s'

theorem drawIndexTraced_reruns (hfuel : E'.fuel = E.fuel) (i : Nat) (s : TracedStream) :
    Reruns E E' key (drawIndexTraced E key label i s) (drawIndexTraced E' key label i s) s := by
  unfold drawIndexTraced
  rw [hfuel]
  exact (drawLoopTraced_reruns _ _ s).bind fun r s' => .ok _ s'

theorem shuffleFromSeedTraced_reruns (hfuel : E'.fuel = E.fuel) (size : Nat) :
    Reruns E E' key (shuffleFromSeedTraced E label key size) (shuffleFromSeedTraced E' label key size)
      (.empty, []) := by
  have hloop (n : Nat) : ∀ (i : Nat) (hi : i < n) (t : Table n) (s : TracedStream),
      Reruns E E' key (Table.shuffle (drawIndexTraced E key label) i hi t s)
        (Table.shuffle (drawIndexTraced E' key label) i hi t s) s := by
    intro i
    induction i with
    | zero => exact fun _ t s => .ok t s
    | succ i ih =>
      intro hi t s
      unfold Table.shuffle
      exact (drawIndexTraced_reruns hfuel (i + 1) s).bind fun j s' => ih _ _ s'
  cases size with
  | zero => exact .ok _ _
  | succ n => exact hloop _ n _ _ _

/-- **The trace is all that a round hashes** under its seed: where the hashes agree at the traced
messages, and the two matrices are the same, the round gives the same block and the same trace. -/
theorem encryptRoundTraced_congr {seed : Bytes} {state out : Block} {r : Nat} {trace : RoundTrace}
    (hfuel : E'.fuel = E.fuel) (hseed : roundSeed E' seed r = roundSeed E seed r)
    (hmatrix : ∀ side ∈ [ascii "left", ascii "right"],
      matrixFromSeed E' (E.hmacSha256 (roundSeed E seed r).toList side).toList =
        matrixFromSeed E (E.hmacSha256 (roundSeed E seed r).toList side).toList)
    (h : encryptRoundTraced E seed state r = .ok (out, trace))
    (hagree : AgreeAt E E' (roundSeed E seed r).toList (trace.messages.map Prod.snd)) :
    encryptRoundTraced E' seed state r = .ok (out, trace) := by
  unfold encryptRoundTraced at h ⊢
  rw [hseed]
  generalize (roundSeed E seed r).toList = key at hmatrix h hagree ⊢
  obtain ⟨⟨perm, s, permMessages⟩, hperm, hrest⟩ := bind_eq_ok.mp h
  obtain ⟨⟨perm', s', smallPermMessages⟩, hsmall, hend⟩ := bind_eq_ok.mp hrest
  obtain ⟨rfl, rfl⟩ := Prod.mk.inj (ok.inj hend)
  simp only [List.map_append, List.map_map, Function.comp_def, List.map_id_fun', id_eq, List.map_cons,
    List.map_nil] at hagree
  have hmask : AgreeAt E E' key (hkdfExpandLikeMessages E key (ascii "mask") 32) :=
    hagree.subset fun m hm => by simp [hm]
  have hdiffuse : AgreeAt E E' key (hkdfExpandLikeMessages E key (ascii "diffuse") 64) :=
    hagree.subset fun m hm => by simp [hm]
  have hleft : leftMatrix E' key = leftMatrix E key := by
    unfold leftMatrix
    rw [hagree (ascii "left") (by simp), hmatrix _ (by simp)]
  have hright : rightMatrix E' key = rightMatrix E key := by
    unfold rightMatrix
    rw [hagree (ascii "right") (by simp), hmatrix _ (by simp)]
  have hperm' := (shuffleFromSeedTraced_reruns hfuel 256 _ _ hperm).2
    (hagree.subset fun m hm => by simp [show m ∈ permMessages from hm])
  have hsmall' := (shuffleFromSeedTraced_reruns hfuel blockBytes _ _ hsmall).2
    (hagree.subset fun m hm => by simp [show m ∈ smallPermMessages from hm])
  dsimp only
  rw [hperm', ok_bind]
  dsimp only
  rw [hsmall', ok_bind]
  unfold diffuseBytes
  rw [(hkdfExpandLike_congr hmask).1, (hkdfExpandLike_congr hmask).2, (hkdfExpandLike_congr hdiffuse).1,
    (hkdfExpandLike_congr hdiffuse).2, hleft, hright]

/-- The round of the code, which has no trace. -/
theorem encryptRound_congr {seed : Bytes} {state out : Block} {r : Nat} {trace : RoundTrace}
    (hfuel : E'.fuel = E.fuel) (hseed : roundSeed E' seed r = roundSeed E seed r)
    (hmatrix : ∀ side ∈ [ascii "left", ascii "right"],
      matrixFromSeed E' (E.hmacSha256 (roundSeed E seed r).toList side).toList =
        matrixFromSeed E (E.hmacSha256 (roundSeed E seed r).toList side).toList)
    (h : encryptRoundTraced E seed state r = .ok (out, trace))
    (hagree : AgreeAt E E' (roundSeed E seed r).toList (trace.messages.map Prod.snd)) :
    encryptRound E' seed state r = .ok out := by
  rw [← encryptRoundTraced_fst, encryptRoundTraced_congr hfuel hseed hmatrix h hagree]
  rfl

end

/-! ## A round of zeros -/

section
variable (hz : ∀ key data, E.hmacSha256 key data = Vector.replicate 32 0)
include hz

theorem word_zero (n : Nat) : word E seed label n = 0 := by
  unfold word expansion
  rw [hkdfExpandLike_zero hz, u64OfBytes, beNat_zero]
  · rfl
  · intro b hb
    rw [Vector.toList_replicate, List.extract_eq_take_drop] at hb
    exact (List.mem_replicate.mp (List.mem_of_mem_drop (List.mem_of_mem_take hb))).2

/-- Each draw takes one word. -/
theorem drawIndex_after_zero (hfuel : 0 < E.fuel) {i : Nat} (hi : i < 2 ^ 64) (m : Nat) :
    drawIndex E seed label i (.after E seed label m) = .ok (0, .after E seed label (m + 1)) := by
  obtain ⟨k, hk⟩ : ∃ k, E.fuel = k + 1 := ⟨E.fuel - 1, by omega⟩
  have hlimit : ¬ (0 : UInt64).toNat ≥ rejectionLimit (i + 1) := by
    have hlt := Nat.mod_lt (2 ^ 64) (show 0 < i + 1 by omega)
    unfold rejectionLimit
    rw [UInt64.toNat_zero]
    omega
  unfold drawIndex drawLoop
  rw [hk]
  dsimp only
  rw [takeU64_after, ok_bind, word_zero hz]
  simp only [hlimit, ↓reduceIte, ok_bind]
  rfl

theorem shuffleFromSeedTraced_zero (hfuel : 0 < E.fuel) {n : Nat} (hn : n < 2 ^ 64) :
    ∃ t messages, shuffleFromSeedTraced E label seed (n + 1) =
      .ok (t, .after E seed label n, messages) := by
  have hloop : ∀ (i : Nat) (h : i < n + 1) (t : Table (n + 1)) (m : Nat),
      ∃ t', Table.shuffle (drawIndex E seed label) i h t (.after E seed label m) =
        .ok (t', .after E seed label (m + i)) := by
    intro i
    induction i with
    | zero => exact fun h t m => ⟨t, rfl⟩
    | succ i ih =>
      intro h t m
      obtain ⟨t', ht'⟩ := ih (by omega) (t.swap (i + 1) 0 h n.succ_pos) (m + 1)
      refine ⟨t', ?_⟩
      unfold Table.shuffle
      rw [drawIndex_after_zero hz hfuel (by omega), ok_bind]
      refine Eq.trans ht' ?_
      rw [Nat.add_right_comm, Nat.add_assoc]
  obtain ⟨t, ht⟩ := hloop n n.lt_succ_self (Table.ident (n + 1)) 0
  rw [Stream.after_zero, Nat.zero_add] at ht
  refine ⟨t, streamMessages E seed label ((Stream.after E seed label n).cursor / 8), ?_⟩
  rw [shuffleFromSeedTraced_eq, ht]
  rfl

end

theorem round_separated_zero : ∃ out trace,
    encryptRoundTraced Env.zero [] (Vector.replicate 32 0) 0 = .ok (out, trace) ∧
      trace.messages.Pairwise fun a b => a.2 ≠ b.2 := by
  have hz (key data : Bytes) : Env.zero.hmacSha256 key data = Vector.replicate 32 0 := rfl
  obtain ⟨p, messages, hp⟩ := @shuffleFromSeedTraced_zero Env.zero
    (roundSeed Env.zero [] 0).toList (ascii "perm") hz Nat.one_pos 255 (by decide)
  obtain ⟨q, messages', hq⟩ := @shuffleFromSeedTraced_zero Env.zero
    (roundSeed Env.zero [] 0).toList (ascii "small-perm") hz Nat.one_pos 31 (by decide)
  have hrun : ∃ out trace, encryptRoundTraced Env.zero [] (Vector.replicate 32 0) 0 =
      .ok (out, trace) ∧ trace.permWords = 255 ∧ trace.smallPermWords = 31 := by
    unfold encryptRoundTraced
    dsimp only
    rw [hp, ok_bind, hq, ok_bind]
    refine ⟨_, _, rfl, ?_, ?_⟩
    · show 8 * 255 / 8 = 255
      omega
    · show 8 * 31 / 8 = 31
      omega
  obtain ⟨out, trace, hrun, hperm, hsmall⟩ := hrun
  exact ⟨out, trace, hrun, (round_separated Env.zero [] (Vector.replicate 32 0) 0).2 out trace hrun
    (by rw [hperm]; decide) (by rw [hsmall]; decide)⟩

end Krcm
