import Krcm.Base.Outcome
import Mathlib.Data.Fintype.EquivFin
import Mathlib.Data.List.FinRange

/-!
# Permutation tables and the Fisher–Yates loop

`Table n` is an array of `n` distinct indices below `n`: the array form of a
permutation. The in-place swap keeps it one, so the Fisher–Yates loop
(`Table.shuffle`) returns a table whatever indices are drawn. Reading through
a table (`gather`) and writing through it (`scatter`) undo each other.
-/

namespace Base

variable {ε σ α : Type} {n : Nat}

structure Table (n : Nat) where
  entries : Vector (Fin n) n
  nodup : entries.toList.Nodup

namespace Table

/-- `(0..n).collect()`. -/
def ident (n : Nat) : Table n where
  entries := Vector.finRange n
  nodup := by
    have h : (Vector.finRange n).toList = List.finRange n :=
      List.ext_getElem (by simp) fun i h1 h2 => by simp
    rw [h]
    exact List.nodup_finRange n

/-- `values.swap(i, j)`. -/
def swap (t : Table n) (i j : Nat) (hi : i < n) (hj : j < n) : Table n where
  entries := t.entries.swap i j hi hj
  nodup := (Vector.swap_perm hi hj).toList.nodup_iff.mpr t.nodup

/-- The image of an index. -/
def get (t : Table n) (i : Fin n) : Fin n := t.entries[i]

theorem get_ident (i : Fin n) : (ident n).get i = i := by
  simp [ident, get]

theorem get_injective (t : Table n) : Function.Injective t.get := by
  intro i j h
  have hi : i.val < t.entries.toList.length := by simp
  have hj : j.val < t.entries.toList.length := by simp
  have heq : t.entries.toList[i.val] = t.entries.toList[j.val] := by simpa [get] using h
  exact Fin.ext ((List.Nodup.getElem_inj_iff t.nodup).mp heq)

theorem get_surjective (t : Table n) : Function.Surjective t.get :=
  Finite.surjective_of_injective t.get_injective

/-! ## Reading and writing through a table -/

/-- `out[i] = f[t[i]]`. -/
def gather (t : Table n) (f : Vector α n) : Vector α n := Vector.ofFn fun i => f[t.get i]

/-- `out[t[i]] = f[i]`, for `i` from `0` on, in the array `init`. -/
def scatter (t : Table n) (f : Fin n → α) (init : Vector α n) : Vector α n :=
  (List.finRange n).foldl (fun out i => out.set (t.get i) (f i)) init

@[simp] theorem getElem_gather (t : Table n) (f : Vector α n) (i : Fin n) :
    (t.gather f)[i] = f[t.get i] := by
  simp [gather]

theorem gather_of_get {t : Table n} {f : Fin n → Fin n} (h : ∀ i, t.get i = f i) (s : Vector α n) :
    t.gather s = Vector.ofFn fun i => s[f i] := by
  unfold gather
  exact congrArg Vector.ofFn (funext fun i => congrArg (fun k : Fin n => s[k]) (h i))

theorem getElem_foldl_set (t : Table n) (f : Fin n → α) {l : List (Fin n)} (init : Vector α n)
    (i : Fin n) : (l.foldl (fun out i => out.set (t.get i) (f i)) init)[t.get i] =
      if i ∈ l then f i else init[t.get i] := by
  induction l generalizing init with
  | nil => simp
  | cons j l ih =>
    rw [List.foldl_cons, ih]
    by_cases hl : i ∈ l
    · simp [hl]
    · by_cases hij : i = j
      · subst hij; simp
      · have hne : t.get j ≠ t.get i := fun h => hij (t.get_injective h).symm
        have hne' : (t.get j).val ≠ (t.get i).val := fun h => hne (Fin.ext h)
        simp [hl, hij, hne']

/-- What was written through an index is read back through it. -/
@[simp] theorem getElem_scatter (t : Table n) (f : Fin n → α) (init : Vector α n) (i : Fin n) :
    (t.scatter f init)[t.get i] = f i := by
  rw [scatter, getElem_foldl_set, if_pos (List.mem_finRange i)]

theorem gather_scatter (t : Table n) (f init : Vector α n) :
    t.gather (t.scatter (fun i => f[i]) init) = f := by
  apply Vector.ext
  intro i hi
  exact (t.getElem_gather _ ⟨i, hi⟩).trans (t.getElem_scatter _ _ ⟨i, hi⟩)

theorem scatter_gather (t : Table n) (f init : Vector α n) :
    t.scatter (fun i => (t.gather f)[i]) init = f := by
  apply Vector.ext
  intro i hi
  obtain ⟨k, hk⟩ := t.get_surjective ⟨i, hi⟩
  obtain rfl : (t.get k).val = i := congrArg Fin.val hk
  exact (t.getElem_scatter _ init k).trans (t.getElem_gather f k)

/-! ## The Fisher–Yates loop -/

/-- Positions `i, …, 1` are swapped, in this order, with positions drawn at or below them. -/
def shuffle (draw : (i : Nat) → σ → Outcome ε (Fin (i + 1) × σ)) :
    (i : Nat) → i < n → Table n → σ → Outcome ε (Table n × σ)
  | 0, _, t, s => .ok (t, s)
  | i + 1, h, t, s => do
    let (j, s) ← draw (i + 1) s
    shuffle draw i (by omega) (t.swap (i + 1) j h (by omega)) s

theorem get_swap (t : Table n) {i j : Nat} (hi : i < n) (hj : j < n) (k : Fin n) :
    (t.swap i j hi hj).get k = if k.val = i then t.get ⟨j, hj⟩ else if k.val = j then t.get ⟨i, hi⟩
      else t.get k := by
  unfold get swap
  exact Vector.getElem_swap hi hj k.isLt

/-- Where every draw is zero, the loop from `i` moves the first entry to `i`. -/
theorem shuffle_zero {draw : (i : Nat) → σ → Outcome ε (Fin (i + 1) × σ)} {P : σ → Prop}
    (hd : ∀ i s, i < n → P s → ∃ s1, draw i s = .ok (0, s1) ∧ P s1) :
    ∀ (i : Nat) (h : i < n) (t : Table n) (s : σ), P s → ∃ r, shuffle draw i h t s = .ok r ∧
      ∀ k : Fin n, r.1.get k = if hk : k.val < i then t.get ⟨k.val + 1, by omega⟩
        else if k.val = i then t.get ⟨0, by omega⟩ else t.get k
  | 0, h, t, s, _ => by
    refine ⟨(t, s), rfl, fun k => ?_⟩
    rw [dif_neg (by omega)]
    split_ifs with hk
    · exact congrArg t.get (Fin.ext hk)
    · rfl
  | i + 1, h, t, s, hs => by
    obtain ⟨s1, hj, hs1⟩ := hd (i + 1) s h hs
    obtain ⟨r, hr, hget⟩ := shuffle_zero hd i (by omega) (t.swap (i + 1) 0 h (by omega)) s1 hs1
    refine ⟨r, by rw [shuffle, hj]; exact hr, fun k => ?_⟩
    rw [hget]
    simp only [get_swap]
    rcases Nat.lt_trichotomy k.val i with hlt | heq | hgt
    · rw [dif_pos hlt, if_neg (by omega), if_neg (by omega), dif_pos (by omega)]
    · rw [dif_neg (by omega), if_pos heq, if_neg (by omega), if_pos trivial, dif_pos (by omega)]
      exact congrArg t.get (Fin.ext (congrArg (· + 1) heq.symm))
    · rw [dif_neg (by omega), if_neg (by omega), dif_neg (by omega), if_neg (show ¬ k.val = 0 by omega)]

/-- If every draw from a state with property `P` times out or returns a state with `P`, the loop
times out or returns. -/
theorem shuffle_cases {draw : (i : Nat) → σ → Outcome ε (Fin (i + 1) × σ)} {P : σ → Prop}
    (hd : ∀ i s, P s → draw i s = .timeout ∨ ∃ j s1, draw i s = .ok (j, s1) ∧ P s1) :
    ∀ (i : Nat) (h : i < n) (t : Table n) (s : σ), P s →
      shuffle draw i h t s = .timeout ∨ ∃ r, shuffle draw i h t s = .ok r
  | 0, _, t, s, _ => .inr ⟨(t, s), rfl⟩
  | i + 1, h, t, s, hs => by
    unfold shuffle
    rcases hd (i + 1) s hs with hj | ⟨j, s1, hj, hs1⟩
    · exact .inl (by rw [hj, Outcome.timeout_bind])
    · rw [hj, Outcome.ok_bind]
      exact shuffle_cases hd i _ _ s1 hs1

/-- Draws that return more often leave a loop that returned unchanged. -/
theorem shuffle_mono {draw draw' : (i : Nat) → σ → Outcome ε (Fin (i + 1) × σ)}
    (hd : ∀ i s r, draw i s = .ok r → draw' i s = .ok r) :
    ∀ (i : Nat) (h : i < n) (t : Table n) (s : σ) (r : Table n × σ),
      shuffle draw i h t s = .ok r → shuffle draw' i h t s = .ok r
  | 0, _, _, _, _, hr => hr
  | i + 1, h, t, s, r, hr => by
    unfold shuffle at hr ⊢
    rw [Outcome.bind_eq_ok] at hr ⊢
    obtain ⟨⟨j, s1⟩, hj, hr⟩ := hr
    exact ⟨(j, s1), hd _ _ _ hj, shuffle_mono hd i _ _ s1 r hr⟩

/-- A loop over a richer state, of which the draws keep what `f` computes. -/
theorem shuffle_map {τ : Type} {draw : (i : Nat) → σ → Outcome ε (Fin (i + 1) × σ)}
    {draw' : (i : Nat) → τ → Outcome ε (Fin (i + 1) × τ)} {f : σ → τ} {P : σ → Prop}
    (hd : ∀ i s, P s → draw' i (f s) = (fun r => (r.1, f r.2)) <$> draw i s)
    (hP : ∀ i s r, P s → draw i s = .ok r → P r.2) :
    ∀ (i : Nat) (h : i < n) (t : Table n) (s : σ), P s →
      shuffle draw' i h t (f s) = (fun r => (r.1, f r.2)) <$> shuffle draw i h t s
  | 0, _, _, _, _ => rfl
  | i + 1, h, t, s, hs => by
    unfold shuffle
    rw [hd _ _ hs]
    cases hdraw : draw (i + 1) s with
    | ok r => exact shuffle_map hd hP i _ _ r.2 (hP _ _ _ hs hdraw)
    | err e => rfl
    | panic => rfl
    | timeout => rfl

end Table

end Base
