import Mathlib.Data.List.Infix
import Mathlib.InformationTheory.Coding.UniquelyDecodable

/-!
# Prefix codes

A set of words none of which is empty or the beginning of another. Such words
can be written one after the other and told apart again
(`PrefixCode.uniquelyDecodable`).
-/

namespace Base

open InformationTheory

variable {α : Type} {S T : Set (List α)}

structure PrefixCode (S : Set (List α)) : Prop where
  nil_notMem : [] ∉ S
  eq_of_prefix : ∀ u ∈ S, ∀ v ∈ S, u <+: v → u = v

namespace PrefixCode

/-- The words of a set whose beginnings tell their length. -/
theorem of_length (hnil : [] ∉ S)
    (hlen : ∀ u ∈ S, ∀ v ∈ S, u <+: v → u.length = v.length) : PrefixCode S :=
  ⟨hnil, fun u hu v hv h => h.eq_of_length (hlen u hu v hv h)⟩

theorem mono (hT : PrefixCode T) (h : S ⊆ T) : PrefixCode S :=
  ⟨fun hnil => hT.nil_notMem (h hnil), fun u hu v hv => hT.eq_of_prefix u (h hu) v (h hv)⟩

/-- Two codes told apart by what their words begin with. -/
theorem union {m n : List α} (hS : PrefixCode S) (hT : PrefixCode T) (hlen : m.length = n.length)
    (hne : m ≠ n) (hm : ∀ u ∈ S, m <+: u) (hn : ∀ v ∈ T, n <+: v) : PrefixCode (S ∪ T) := by
  -- A word that has both beginnings has two of one length.
  have hapart (w : List α) (h₁ : m <+: w) (h₂ : n <+: w) : False :=
    hne ((List.prefix_of_prefix_length_le h₁ h₂ hlen.le).eq_of_length hlen)
  refine ⟨fun h => h.elim hS.nil_notMem hT.nil_notMem, ?_⟩
  rintro u (hu | hu) v (hv | hv) h
  · exact hS.eq_of_prefix u hu v hv h
  · exact (hapart v ((hm u hu).trans h) (hn v hv)).elim
  · exact (hapart v (hm v hv) ((hn u hu).trans h)).elim
  · exact hT.eq_of_prefix u hu v hv h

/-- Of two texts that go on after a word each, one word begins the other; so they are one. -/
theorem head_eq (hS : PrefixCode S) {u v s t : List α} (hu : u ∈ S) (hv : v ∈ S)
    (h : u ++ s = v ++ t) : u = v ∧ s = t := by
  have heq : u = v := by
    rcases List.append_eq_append_iff.mp h with ⟨r, hr, -⟩ | ⟨r, hr, -⟩
    · exact hS.eq_of_prefix u hu v hv ⟨r, hr.symm⟩
    · exact (hS.eq_of_prefix v hv u hu ⟨r, hr.symm⟩).symm
  subst heq
  exact ⟨rfl, List.append_cancel_left h⟩

theorem flatten_ne_nil (hS : PrefixCode S) {w : List α} {ws : List (List α)} (hw : w ∈ S) :
    (w :: ws).flatten ≠ [] := by
  intro h
  rw [List.flatten_cons, List.append_eq_nil_iff] at h
  exact hS.nil_notMem (h.1 ▸ hw)

/-- **Words of a prefix code, one after the other, are read back.** -/
theorem uniquelyDecodable (hS : PrefixCode S) : UniquelyDecodable S := by
  intro us
  induction us with
  | nil =>
    intro vs _ hvs h
    cases vs with
    | nil => rfl
    | cons v vs => exact (hS.flatten_ne_nil (hvs v List.mem_cons_self) h.symm).elim
  | cons u us ih =>
    intro vs hus hvs h
    have hu := hus u List.mem_cons_self
    cases vs with
    | nil => exact (hS.flatten_ne_nil hu h).elim
    | cons v vs =>
      rw [List.flatten_cons, List.flatten_cons] at h
      obtain ⟨rfl, hrest⟩ := hS.head_eq hu (hvs v List.mem_cons_self) h
      rw [ih vs (fun w hw => hus w (List.mem_cons_of_mem _ hw))
        (fun w hw => hvs w (List.mem_cons_of_mem _ hw)) hrest]

end PrefixCode

end Base
