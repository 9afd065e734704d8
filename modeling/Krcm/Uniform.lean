import Krcm.Base.Uniform
import Krcm.Py.Block

/-!
# The shuffles are unbiased

A shuffle takes one accepted word of its stream for each position and is
`Table.shuffled` of their residues (`shuffleFromSeed_eq`), in both programs.
The library counts the rest: uniform words make a uniform permutation.
-/

namespace Krcm

open Base Outcome

variable {E : Env} {seed label : Bytes}

/-- The words behind the draws of a loop, at places of the stream that grow as the loop counts
down. -/
theorem drawn_positions :
    ∀ {i m : Nat} {js : Table.Draws i} {s' : Stream},
      Table.Drawn (drawIndex E seed label) i js (.after E seed label m) s' →
        ∃ pos : Fin i → Nat, (∀ k, m ≤ pos k) ∧ StrictAnti pos ∧
          (∀ k, (word E seed label (pos k)).toNat < rejectionLimit (k.val + 2)) ∧
          js = residues fun k => (word E seed label (pos k)).toNat
  | 0, _, js, _, _ => ⟨fun k => k.elim0, fun k => k.elim0, fun k => k.elim0, fun k => k.elim0,
      funext fun k => k.elim0⟩
  | i + 1, m, js, s', h => by
    obtain ⟨s1, hdraw, hrest⟩ := h
    obtain ⟨m', hm, rfl, hlt, hj⟩ := drawIndex_after hdraw
    obtain ⟨pos, hfrom, hanti, hbelow, hjs⟩ := drawn_positions hrest
    refine ⟨@Fin.snoc i (fun _ => Nat) pos m', ?_, ?_, ?_, ?_⟩
    · intro k
      induction k using Fin.lastCases with
      | last => rwa [Fin.snoc_last]
      | cast k =>
        have := hfrom k
        rw [Fin.snoc_castSucc]
        omega
    · intro k l hkl
      induction k using Fin.lastCases with
      | last => exact absurd hkl (Fin.le_last l).not_gt
      | cast k =>
        rw [Fin.snoc_castSucc]
        induction l using Fin.lastCases with
        | last =>
          have := hfrom k
          rw [Fin.snoc_last]
          omega
        | cast l =>
          rw [Fin.snoc_castSucc]
          exact hanti (Fin.castSucc_lt_castSucc_iff.mp hkl)
    · intro k
      induction k using Fin.lastCases with
      | last => rwa [Fin.snoc_last]
      | cast k =>
        rw [Fin.snoc_castSucc]
        exact hbelow k
    · funext k
      apply Fin.ext
      induction k using Fin.lastCases with
      | last =>
        rw [val_residues, Fin.snoc_last]
        exact hj
      | cast k =>
        have hk := congrArg (fun ds : Table.Draws i => (ds k).val) hjs
        rw [val_residues, Fin.snoc_castSucc]
        exact hk

/-- **A shuffle is the shuffle by the residues of accepted words**, one for each position. -/
theorem shuffleFromSeed_eq {n : Nat} {t : Table (n + 1)}
    (h : shuffleFromSeed E label seed (n + 1) = .ok t) :
    ∃ pos : Fin n → Nat, StrictAnti pos ∧
      (∀ k, (word E seed label (pos k)).toNat < rejectionLimit (k.val + 2)) ∧
      t = Table.shuffled (residues fun k => (word E seed label (pos k)).toNat) := by
  unfold shuffleFromSeed at h
  obtain ⟨⟨t', s'⟩, hr, rfl⟩ := map_eq_ok.mp h
  obtain ⟨js, hdrawn, ht⟩ := Table.shuffle_eq_shuffleBy hr
  rw [← @Stream.after_zero E seed label] at hdrawn
  obtain ⟨pos, -, hanti, hbelow, hjs⟩ := drawn_positions hdrawn
  exact ⟨pos, hanti, hbelow, by rw [← hjs]; exact ht⟩

/-- `inverse_permutation` is the table of the inverse. -/
theorem inversePermutation_eq {n : Nat} (t : Table n) (v : Fin n) :
    (inversePermutation t).get v = (t.toPerm.symm v).val := by
  obtain ⟨i, rfl⟩ := t.get_surjective v
  rw [get_inversePermutation, ← Table.toPerm_apply, Equiv.symm_apply_apply]

end Krcm
