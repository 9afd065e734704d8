import Krcm.Base.Outcome
import Mathlib.Data.List.FinRange
import Mathlib.Logic.Equiv.Basic

/-!
# Collecting the results of many tasks

`collect` runs tasks one after the other. `parCollect order` runs them in the
order of a schedule and puts every result into the slot of its task; the
first failure met ends the run. Both return the same values
(`parCollect_eq_ok`), whatever the schedule.
-/

namespace Base

variable {ε α : Type}

/-- `.collect::<Result<Vec<_>, _>>()`. -/
def collect : List (Outcome ε α) → Outcome ε (List α)
  | [] => .ok []
  | task :: tasks => do
    let a ← task
    let as ← collect tasks
    .ok (a :: as)

/-- `.collect::<Result<Vec<_>, _>>()` of a parallel iterator whose tasks finish in the given
order. -/
def parCollect (tasks : List (Outcome ε α)) (order : Equiv.Perm (Fin tasks.length)) :
    Outcome ε (List α) := do
  let finished ← collect ((List.finRange tasks.length).map fun k => tasks[order k])
  .ok ((List.finRange tasks.length).filterMap fun i => finished[order.symm i]?)

theorem collect_eq_ok {tasks : List (Outcome ε α)} {as : List α} :
    collect tasks = .ok as ↔ tasks = as.map .ok := by
  induction tasks generalizing as with
  | nil =>
    cases as with
    | nil => simp [collect]
    | cons a as => simp [collect]
  | cons task tasks ih =>
    simp only [collect, Outcome.bind_eq_ok, Outcome.ok.injEq, ih]
    constructor
    · rintro ⟨a, ha, rest, hrest, h⟩
      rw [← h, ha, hrest, List.map_cons]
    · intro h
      cases as with
      | nil => cases h
      | cons a as =>
        obtain ⟨ha, hrest⟩ := List.cons.inj h
        exact ⟨a, ha, as, hrest, rfl⟩

/-- The tasks of `Fin n` are collected iff each of them returned. -/
theorem collect_finRange {n : Nat} {f : Fin n → Outcome ε α} {as : List α} :
    collect ((List.finRange n).map f) = .ok as ↔
      ∃ v : Fin n → α, (∀ i, f i = .ok (v i)) ∧ as = (List.finRange n).map v := by
  rw [collect_eq_ok]
  constructor
  · intro h
    have hlen : as.length = n := by simpa using (congrArg List.length h).symm
    refine ⟨fun i => as[i.val], fun i => ?_, ?_⟩
    · have hi := List.getElem_of_eq h (i := i.val) (by simp)
      simpa using hi
    · refine List.ext_getElem (by simp [hlen]) fun i h1 h2 => ?_
      simp
  · rintro ⟨v, hv, has⟩
    rw [has, List.map_map]
    exact List.map_congr_left fun i _ => hv i

/-- **The schedule does not matter.** -/
theorem parCollect_eq_ok {tasks : List (Outcome ε α)} {order : Equiv.Perm (Fin tasks.length)}
    {as : List α} : parCollect tasks order = .ok as ↔ collect tasks = .ok as := by
  have hseq := @collect_finRange ε α tasks.length (fun i => tasks[i.val]) as
  rw [List.map_getElem_finRange] at hseq
  rw [hseq, parCollect, Outcome.bind_eq_ok]
  -- The slot of task `i` holds what finished at its place in the schedule.
  have hslots (v : Fin tasks.length → α) :
      (List.finRange tasks.length).filterMap
        (fun i => ((List.finRange tasks.length).map v)[order.symm i]?) =
      (List.finRange tasks.length).map fun i => v (order.symm i) := by
    have hslot (i : Fin tasks.length) :
        ((List.finRange tasks.length).map v)[order.symm i]? = some (v (order.symm i)) := by
      simp
    simp only [hslot, List.filterMap_eq_map']
  constructor
  · rintro ⟨finished, hf, has⟩
    obtain ⟨v, hv, rfl⟩ := collect_finRange.mp hf
    cases has
    exact ⟨fun i => v (order.symm i), fun i => by simpa using hv (order.symm i), hslots v⟩
  · rintro ⟨v, hv, has⟩
    refine ⟨_, collect_finRange.mpr ⟨fun k => v (order k), fun k => hv (order k), rfl⟩, ?_⟩
    rw [hslots, has]
    simp

end Base
