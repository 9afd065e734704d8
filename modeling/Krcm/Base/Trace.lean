import Mathlib.Tactic.Common
import Mathlib.Logic.Function.Basic
import Mathlib.Data.List.Forall2

/-!
# Runs of several actors

`Trace step s moves t`: from `s` the moves, the last one first, lead to `t`.
What every move keeps holds all along a run (`Trace.invariant`), what a move
brought about for good holds at its end (`Trace.stable`), and what holds at its
end but not at its start was brought about by one of its moves
(`Trace.crossing`). Where every move is one of a simpler system, or none of it,
so is the run (`Trace.simulates`). `Parties` are actors with a state of their
own beside the one they share.
-/

namespace Base

/-- A move: the state before it, who made it, and the state after it. -/
structure Move (σ ι : Type) where
  before : σ
  actor : ι
  after : σ

variable {σ ι : Type}

inductive Trace (step : σ → ι → σ → Prop) (s : σ) : List (Move σ ι) → σ → Prop where
  | start : Trace step s [] s
  | move {moves : List (Move σ ι)} {a b : σ} {i : ι} (hrun : Trace step s moves a)
    (hstep : step a i b) : Trace step s (⟨a, i, b⟩ :: moves) b

namespace Trace

variable {step : σ → ι → σ → Prop} {s t : σ} {moves : List (Move σ ι)}

/-- What the moves of a kind keep holds along the runs of such moves. -/
theorem invariant_of {Inv : σ → Prop} {allowed : Move σ ι → Prop}
    (hkeep : ∀ a i b, Inv a → step a i b → allowed ⟨a, i, b⟩ → Inv b) (h : Trace step s moves t)
    (hallowed : ∀ m ∈ moves, allowed m) (hs : Inv s) : Inv t := by
  induction h with
  | start => exact hs
  | move hrun hstep ih =>
    rw [List.forall_mem_cons] at hallowed
    exact hkeep _ _ _ (ih hallowed.2) hstep hallowed.1

/-- Every move of a run starts where a shorter run ends. -/
theorem of_mem (h : Trace step s moves t) {m : Move σ ι} (hm : m ∈ moves) :
    (∃ earlier, earlier ⊆ moves ∧ Trace step s earlier m.before) ∧ step m.before m.actor m.after := by
  induction h with
  | start => cases hm
  | @move moves a b i hrun hstep ih =>
    rcases List.mem_cons.mp hm with rfl | hm
    · exact ⟨⟨moves, List.subset_cons_self _ _, hrun⟩, hstep⟩
    · obtain ⟨⟨earlier, hsub, hearlier⟩, hstep'⟩ := ih hm
      exact ⟨⟨earlier, List.Subset.trans hsub (List.subset_cons_self _ _), hearlier⟩, hstep'⟩

/-- An invariant holds before every move. -/
theorem invariant_of_before {Inv : σ → Prop} {allowed : Move σ ι → Prop}
    (hkeep : ∀ a i b, Inv a → step a i b → allowed ⟨a, i, b⟩ → Inv b) (h : Trace step s moves t)
    (hallowed : ∀ m ∈ moves, allowed m) (hs : Inv s) {m : Move σ ι} (hm : m ∈ moves) :
    Inv m.before ∧ step m.before m.actor m.after := by
  obtain ⟨⟨earlier, hsub, hearlier⟩, hstep⟩ := h.of_mem hm
  exact ⟨hearlier.invariant_of hkeep (fun m' hm' => hallowed m' (hsub hm')) hs, hstep⟩

/-- What every move keeps. -/
theorem invariant {Inv : σ → Prop} (hkeep : ∀ a i b, Inv a → step a i b → Inv b)
    (h : Trace step s moves t) (hs : Inv s) : Inv t :=
  h.invariant_of (fun a i b ha hstep (_ : True) => hkeep a i b ha hstep) (fun _ _ => trivial) hs

theorem invariant_before {Inv : σ → Prop} (hkeep : ∀ a i b, Inv a → step a i b → Inv b)
    (h : Trace step s moves t) (hs : Inv s) {m : Move σ ι} (hm : m ∈ moves) :
    Inv m.before ∧ step m.before m.actor m.after :=
  h.invariant_of_before (fun a i b ha hstep (_ : True) => hkeep a i b ha hstep) (fun _ _ => trivial)
    hs hm

/-- What has come to hold was brought about by a move. -/
theorem crossing {P : σ → Prop} (h : Trace step s moves t) (hs : ¬ P s) (ht : P t) :
    ∃ m ∈ moves, ¬ P m.before ∧ P m.after := by
  induction h with
  | start => exact absurd ht hs
  | @move moves a b i hrun hstep ih =>
    by_cases ha : P a
    · obtain ⟨m, hm, hcross⟩ := ih ha
      exact ⟨m, List.mem_cons_of_mem _ hm, hcross⟩
    · exact ⟨_, List.mem_cons_self, ha, ht⟩

/-- What lasts once it holds. -/
theorem stable {P : σ → Prop} (hkeep : ∀ a i b, P a → step a i b → P b) (h : Trace step s moves t)
    {m : Move σ ι} (hm : m ∈ moves) (hafter : P m.after) : P t := by
  induction h with
  | start => cases hm
  | move hrun hstep ih =>
    rcases List.mem_cons.mp hm with rfl | hm
    · exact hafter
    · exact hkeep _ _ _ (ih hm) hstep

/-- What every move leaves or sets to a value of a kind is what it was or of that kind. -/
theorem kept_or {β : Type} {f : σ → β} {D : β → Prop} (h : Trace step s moves t)
    (hmoves : ∀ m ∈ moves, f m.after = f m.before ∨ D (f m.after)) : f t = f s ∨ D (f t) := by
  induction h with
  | start => exact .inl rfl
  | move hrun hstep ih =>
    rw [List.forall_mem_cons] at hmoves
    rcases hmoves.1 with hkept | hset
    · rcases ih hmoves.2 with hsame | hset
      · exact .inl (hkept.trans hsame)
      · exact .inr (hkept ▸ hset)
    · exact .inr hset

end Trace

/-! ## Simulation -/

variable {τ : Type}

/-- The moves of one actor, from and to states that are related. -/
structure Mirrors (R : σ → τ → Prop) (simple : Move τ ι) (m : Move σ ι) : Prop where
  actor : simple.actor = m.actor
  before : R m.before simple.before
  after : R m.after simple.after

/-- **Simulation.** Where each move is mirrored by a move of a simpler system, or leaves the state it
is related to, a run is mirrored, move by move, by a run of the simpler system. -/
theorem Trace.simulates {step : σ → ι → σ → Prop} {simple : τ → ι → τ → Prop} {Inv : σ → Prop}
    {R : σ → τ → Prop} (hkeep : ∀ a i b, Inv a → step a i b → Inv b)
    (hsim : ∀ a i b c, Inv a → R a c → step a i b → R b c ∨ ∃ d, simple c i d ∧ R b d)
    {s t : σ} {moves : List (Move σ ι)} (h : Trace step s moves t) (hs : Inv s) {c : τ} (hc : R s c) :
    ∃ simples d, Trace simple c simples d ∧ R t d ∧ List.SublistForall₂ (Mirrors R) simples moves := by
  induction h with
  | start => exact ⟨[], c, .start, hc, .nil⟩
  | @move moves a b i hrun hstep ih =>
    obtain ⟨simples, d, hsimple, hd, hsub⟩ := ih
    rcases hsim a i b d (hrun.invariant hkeep hs) hd hstep with hrest | ⟨e, hmove, he⟩
    · exact ⟨simples, d, hsimple, hrest, .cons_right hsub⟩
    · exact ⟨⟨d, i, e⟩ :: simples, e, .move hsimple hmove, he, .cons ⟨rfl, hd, he⟩ hsub⟩

/-! ## Parties -/

structure Parties (σ Local ι : Type) where
  shared : σ
  own : ι → Local

variable {Local : Type}

/-- A party moves: it changes what is shared and what is its own. -/
structure Parties.Step (local' : ι → σ × Local → σ × Local → Prop) (a : Parties σ Local ι) (i : ι)
    (b : Parties σ Local ι) : Prop where
  moves : local' i (a.shared, a.own i) (b.shared, b.own i)
  others : ∀ j, j ≠ i → b.own j = a.own j

section
variable [DecidableEq ι] {local' : ι → σ × Local → σ × Local → Prop} {a : Parties σ Local ι} {i : ι}
  {shared : σ} {own : Local}

/-- The move of a party that ends in a given state of its own. -/
theorem Parties.step_update (h : local' i (a.shared, a.own i) (shared, own)) :
    a.Step local' i ⟨shared, Function.update a.own i own⟩ where
  moves := by
    show local' i _ (_, Function.update a.own i own i)
    rwa [Function.update_self]
  others _ hj := Function.update_of_ne hj ..

/-- A run of parties goes on with a move of one of them. -/
theorem Trace.next {s : Parties σ Local ι} {moves : List (Move (Parties σ Local ι) ι)}
    (h : Trace (Parties.Step local') s moves a) (i : ι)
    (hstep : local' i (a.shared, a.own i) (shared, own)) :
    Trace (Parties.Step local') s (⟨a, i, ⟨shared, Function.update a.own i own⟩⟩ :: moves)
      ⟨shared, Function.update a.own i own⟩ :=
  .move h (Parties.step_update hstep)

end

end Base
