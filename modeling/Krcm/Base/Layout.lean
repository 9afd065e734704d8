import Krcm.Base.Bytes
import Mathlib.Algebra.BigOperators.Group.List.Lemmas
import Mathlib.Algebra.Order.BigOperators.Group.List
import Mathlib.Algebra.Order.Ring.Nat

/-!
# Pieces laid end to end

`startOf lengths i` is where piece `i` starts when pieces of these lengths are
laid end to end from zero. Every position below the total lies in exactly one
piece (`existsUnique_piece`), and a piece ends where or before every later one
starts (`end_le_startOf`). A joined list is read back piece by piece
(`extract_flatten`), and the pieces of `chunks n` start at the multiples of `n`
(`startOf_chunks`).
-/

namespace Base

def startOf (lengths : List Nat) (i : Nat) : Nat := (lengths.take i).sum

variable {lengths : List Nat} {i j x : Nat}

@[simp] theorem startOf_zero : startOf lengths 0 = 0 := rfl

theorem startOf_cons_succ (n : Nat) : startOf (n :: lengths) (i + 1) = n + startOf lengths i := by
  unfold startOf
  rw [List.take_succ_cons, List.sum_cons]

theorem startOf_succ (h : i < lengths.length) :
    startOf lengths (i + 1) = startOf lengths i + lengths[i] :=
  List.sum_take_succ lengths i h

theorem startOf_length : startOf lengths lengths.length = lengths.sum := by
  unfold startOf
  rw [List.take_length]

theorem startOf_mono (h : i ≤ j) : startOf lengths i ≤ startOf lengths j := by
  obtain ⟨k, rfl⟩ := Nat.exists_eq_add_of_le h
  unfold startOf
  rw [List.take_add, List.sum_append]
  omega

/-- A piece ends before any later piece starts. -/
theorem end_le_startOf (h : i < lengths.length) (hij : i < j) :
    startOf lengths i + lengths[i] ≤ startOf lengths j := by
  rw [← startOf_succ h]
  exact startOf_mono hij

theorem end_le_sum (h : i < lengths.length) : startOf lengths i + lengths[i] ≤ lengths.sum := by
  rw [← startOf_length]
  exact end_le_startOf h h

theorem exists_piece (hx : x < lengths.sum) :
    ∃ i, ∃ h : i < lengths.length, startOf lengths i ≤ x ∧ x < startOf lengths i + lengths[i] := by
  induction lengths generalizing x with
  | nil => simp at hx
  | cons n lengths ih =>
    by_cases hn : x < n
    · exact ⟨0, Nat.succ_pos _, Nat.zero_le x, by simpa using hn⟩
    · rw [List.sum_cons] at hx
      obtain ⟨i, hi, hle, hlt⟩ := ih (x := x - n) (by omega)
      refine ⟨i + 1, Nat.succ_lt_succ hi, ?_, ?_⟩
      · rw [startOf_cons_succ]
        omega
      · rw [startOf_cons_succ, List.getElem_cons_succ]
        omega

/-- **Every position lies in exactly one piece.** -/
theorem existsUnique_piece (hx : x < lengths.sum) :
    ∃! i, ∃ h : i < lengths.length, startOf lengths i ≤ x ∧ x < startOf lengths i + lengths[i] := by
  obtain ⟨i, hi, hle, hlt⟩ := exists_piece hx
  refine ⟨i, ⟨hi, hle, hlt⟩, ?_⟩
  rintro j ⟨hj, hjle, hjlt⟩
  rcases Nat.lt_trichotomy j i with h | h | h
  · have := end_le_startOf hj h
    omega
  · exact h
  · have := end_le_startOf hi h
    omega

/-! ## Joined lists -/

variable {α : Type}

theorem extract_flatten {pieces : List (List α)} (h : i < pieces.length) :
    pieces.flatten.extract (startOf (pieces.map List.length) i)
      (startOf (pieces.map List.length) i + pieces[i].length) = pieces[i] := by
  induction pieces generalizing i with
  | nil => cases h
  | cons piece pieces ih =>
    cases i with
    | zero => exact extract_mid (p := []) rfl rfl rfl
    | succ i =>
      have hi := @ih i (Nat.lt_of_succ_lt_succ h)
      rw [List.map_cons, startOf_cons_succ, List.flatten_cons, List.getElem_cons_succ]
      simp only [List.extract, Nat.add_sub_cancel_left] at hi ⊢
      rw [List.drop_length_add_append]
      exact hi

theorem startOf_chunks {n k : Nat} (hn : 0 < n) {l : List α} (h : k * n ≤ l.length) :
    startOf ((chunks n l).map List.length) k = k * n := by
  induction k with
  | zero => rw [startOf_zero, Nat.zero_mul]
  | succ k ih =>
    rw [Nat.succ_mul] at h ⊢
    have hk : k < (chunks n l).length := by
      rw [length_chunks]
      exact (Nat.le_div_iff_mul_le hn).mpr (by rw [Nat.succ_mul]; omega)
    rw [startOf_succ (by rwa [List.length_map]), ih (by omega), List.getElem_map, getElem_chunks,
      List.length_take, List.length_drop]
    omega

end Base
