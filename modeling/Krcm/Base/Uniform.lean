import Krcm.Base.Shuffle
import Mathlib.Data.Fintype.Perm
import Mathlib.Data.Fintype.BigOperators
import Mathlib.Data.Nat.Factorial.BigOperators

/-!
# Shuffles as functions of their draws

`Table.shuffled js` is the table the Fisher–Yates loop makes of the drawn
indices `js`, of which position `i` has `i + 1` choices. Distinct draws make
distinct tables and there are as many draws as permutations, so every
permutation is made exactly once (`shuffled_bijective`). Words below the
largest multiple of `m` fall evenly on the residues modulo `m`
(`card_residue`), so words that are accepted so make every permutation equally
often (`card_words`).
-/

namespace Base

variable {ε σ : Type} {n : Nat}

namespace Table

theorem ext_get {t u : Table n} (h : ∀ i, t.get i = u.get i) : t = u := by
  obtain ⟨entries, hnodup⟩ := t
  obtain ⟨entries', hnodup'⟩ := u
  have hentries : entries = entries' := Vector.ext fun i hi => h ⟨i, hi⟩
  subst hentries
  rfl

/-- The permutation of a table. -/
noncomputable def toPerm (t : Table n) : Equiv.Perm (Fin n) :=
  Equiv.ofBijective t.get ⟨t.get_injective, t.get_surjective⟩

@[simp] theorem toPerm_apply (t : Table n) (i : Fin n) : t.toPerm i = t.get i := rfl

theorem toPerm_injective : Function.Injective (toPerm : Table n → Equiv.Perm (Fin n)) := by
  intro t u h
  exact ext_get fun i => congrArg (fun p : Equiv.Perm (Fin n) => p i) h

/-! ## The loop on drawn indices -/

/-- The indices drawn for positions `n, …, 1`: at `k + 1`, one of `k + 2`. -/
abbrev Draws (n : Nat) := (k : Fin n) → Fin (k.val + 2)

/-- The index drawn first is at or below its position. -/
theorem last_lt {i : Nat} (js : Draws (i + 1)) (h : i + 1 < n) : (js (Fin.last i)).val < n := by
  have hlast : (js (Fin.last i)).val < i + 2 := (js (Fin.last i)).isLt
  omega

/-- The loop from position `i`. -/
def shuffleBy : (i : Nat) → i < n → Draws i → Table n → Table n
  | 0, _, _, t => t
  | i + 1, h, js, t =>
    shuffleBy i (Nat.lt_of_succ_lt h) (fun k => js k.castSucc)
      (t.swap (i + 1) (js (Fin.last i)) h (last_lt js h))

def shuffled (js : Draws n) : Table (n + 1) := shuffleBy n n.lt_succ_self js (ident (n + 1))

/-- Positions above the loop stay as they are. -/
theorem get_shuffleBy_above :
    ∀ (i : Nat) (h : i < n) (js : Draws i) (t : Table n) (k : Fin n), i < k.val →
      (shuffleBy i h js t).get k = t.get k
  | 0, _, _, _, _, _ => rfl
  | i + 1, h, js, t, k, hk => by
    have hj : (js (Fin.last i)).val < i + 2 := (js (Fin.last i)).isLt
    unfold shuffleBy
    rw [get_shuffleBy_above i _ _ _ k (by omega), get_swap, if_neg (by omega), if_neg (by omega)]

/-- The first swap settles its position. -/
theorem get_shuffleBy_top (i : Nat) (h : i + 1 < n) (js : Draws (i + 1)) (t : Table n)
    (hj : (js (Fin.last i)).val < n) :
    (shuffleBy (i + 1) h js t).get ⟨i + 1, h⟩ = t.get ⟨(js (Fin.last i)).val, hj⟩ := by
  unfold shuffleBy
  rw [get_shuffleBy_above i _ _ _ _ (Nat.lt_succ_self i), get_swap, if_pos rfl]

/-- Distinct draws make distinct tables. -/
theorem shuffleBy_inj : ∀ {i : Nat} {h : i < n} {t : Table n} {js js' : Draws i},
    shuffleBy i h js t = shuffleBy i h js' t → js = js'
  | 0, _, _, _, _, _ => funext fun k => k.elim0
  | i + 1, h, t, js, js', heq => by
    have hj : (js (Fin.last i)).val < i + 2 := (js (Fin.last i)).isLt
    have hj' : (js' (Fin.last i)).val < i + 2 := (js' (Fin.last i)).isLt
    have htop := congrArg (fun u : Table n => u.get ⟨i + 1, h⟩) heq
    rw [get_shuffleBy_top i h js t (by omega), get_shuffleBy_top i h js' t (by omega)] at htop
    have hlast : js (Fin.last i) = js' (Fin.last i) := Fin.ext (Fin.mk.inj (t.get_injective htop))
    -- The swaps are the same, so the rest of the loop starts from one table.
    have hinit : (fun k : Fin i => js k.castSucc) = fun k : Fin i => js' k.castSucc := by
      simp only [shuffleBy, hlast] at heq
      exact shuffleBy_inj heq
    funext k
    induction k using Fin.lastCases with
    | last => exact hlast
    | cast k => exact congrFun hinit k

theorem card_draws (n : Nat) : Fintype.card (Draws n) = (n + 1).factorial := by
  rw [Fintype.card_pi, ← Finset.prod_range_add_one_eq_factorial, Finset.prod_range_succ']
  simp only [Fintype.card_fin, Nat.zero_add, Nat.mul_one]
  exact Fin.prod_univ_eq_prod_range (fun k => k + 2) n

/-- **Every permutation is made by exactly one sequence of draws.** -/
theorem shuffled_bijective (n : Nat) :
    Function.Bijective fun js : Draws n => (shuffled js).toPerm := by
  apply (Fintype.bijective_iff_injective_and_card _).mpr
  refine ⟨?_, ?_⟩
  · intro js js' h
    exact shuffleBy_inj (toPerm_injective h)
  · rw [card_draws, Fintype.card_perm, Fintype.card_fin]

/-! ## The loop that draws -/

/-- The loop from position `i` draws `js`, from state `s` to state `s'`. -/
def Drawn (draw : (i : Nat) → σ → Outcome ε (Fin (i + 1) × σ)) :
    (i : Nat) → Draws i → σ → σ → Prop
  | 0, _, s, s' => s' = s
  | i + 1, js, s, s' => ∃ s1, draw (i + 1) s = .ok (js (Fin.last i), s1) ∧
      Drawn draw i (fun k => js k.castSucc) s1 s'

/-- **A loop that returned is the loop on what it drew.** -/
theorem shuffle_eq_shuffleBy {draw : (i : Nat) → σ → Outcome ε (Fin (i + 1) × σ)} :
    ∀ {i : Nat} {h : i < n} {t t' : Table n} {s s' : σ}, shuffle draw i h t s = .ok (t', s') →
      ∃ js, Drawn draw i js s s' ∧ t' = shuffleBy i h js t
  | 0, _, _, _, _, _, hr => by
    cases hr
    exact ⟨fun k => k.elim0, rfl, rfl⟩
  | i + 1, h, t, t', s, s', hr => by
    unfold shuffle at hr
    obtain ⟨⟨j, s1⟩, hj, hr⟩ := Outcome.bind_eq_ok.mp hr
    obtain ⟨js, hdrawn, ht⟩ := shuffle_eq_shuffleBy hr
    refine ⟨@Fin.snoc i (fun k => Fin (k.val + 2)) js j, ⟨s1, ?_, ?_⟩, ?_⟩
    · rw [Fin.snoc_last]
      exact hj
    · simp only [Fin.snoc_castSucc]
      exact hdrawn
    · unfold shuffleBy
      simp only [Fin.snoc_last, Fin.snoc_castSucc]
      exact ht

end Table

/-! ## Words -/

/-- The words below `bound` that a rejection step with modulus `m` accepts. -/
def accepted (bound m : Nat) : Finset Nat := (Finset.range bound).filter (· < bound - bound % m)

/-- **Accepted words fall evenly on the residues.** -/
theorem card_residue (bound : Nat) {m r : Nat} (hr : r < m) :
    ((accepted bound m).filter (· % m = r)).card = (bound - bound % m) / m := by
  have hpos : 0 < m := by omega
  have hlimit : bound - bound % m = m * (bound / m) := by
    have := Nat.div_add_mod bound m
    omega
  have himage : (accepted bound m).filter (· % m = r) =
      (Finset.range (bound / m)).image fun k => m * k + r := by
    ext w
    simp only [accepted, Finset.mem_filter, Finset.mem_range, Finset.mem_image, hlimit]
    refine ⟨?_, ?_⟩
    · rintro ⟨⟨_, hlt⟩, hw⟩
      refine ⟨w / m, Nat.div_lt_of_lt_mul hlt, ?_⟩
      rw [← hw, Nat.div_add_mod]
    · rintro ⟨k, hk, rfl⟩
      have hle : m * (k + 1) ≤ m * (bound / m) := Nat.mul_le_mul_left m hk
      have hbound : m * (bound / m) ≤ bound := Nat.mul_div_le bound m
      rw [Nat.mul_succ] at hle
      refine ⟨⟨by omega, by omega⟩, ?_⟩
      rw [Nat.mul_add_mod, Nat.mod_eq_of_lt hr]
  have hinjective : Function.Injective fun k => m * k + r := by
    intro k l h
    exact Nat.eq_of_mul_eq_mul_left hpos (Nat.add_right_cancel h)
  rw [himage, Finset.card_image_of_injective _ hinjective, Finset.card_range, hlimit,
    Nat.mul_div_cancel_left _ hpos]

/-- The indices words choose. -/
def residues (ws : Fin n → Nat) : Table.Draws n :=
  fun k => ⟨ws k % (k.val + 2), Nat.mod_lt _ (by omega)⟩

theorem val_residues (ws : Fin n → Nat) (k : Fin n) : (residues ws k).val = ws k % (k.val + 2) := rfl

/-- **Every permutation is made by equally many sequences of accepted words.** -/
theorem card_words (bound : Nat) (p : Equiv.Perm (Fin (n + 1))) :
    ((Fintype.piFinset fun k : Fin n => accepted bound (k.val + 2)).filter fun ws =>
      (Table.shuffled (residues ws)).toPerm = p).card =
        ∏ k : Fin n, (bound - bound % (k.val + 2)) / (k.val + 2) := by
  obtain ⟨js, hjs⟩ := (Table.shuffled_bijective n).2 p
  have hfilter : ((Fintype.piFinset fun k : Fin n => accepted bound (k.val + 2)).filter fun ws =>
      (Table.shuffled (residues ws)).toPerm = p) =
        Fintype.piFinset fun k : Fin n =>
          (accepted bound (k.val + 2)).filter (· % (k.val + 2) = (js k).val) := by
    ext ws
    have hdraws : (Table.shuffled (residues ws)).toPerm = p ↔
        ∀ k, ws k % (k.val + 2) = (js k).val := by
      refine ⟨?_, ?_⟩
      · intro h k
        have heq : residues ws = js := (Table.shuffled_bijective n).1 (h.trans hjs.symm)
        exact congrArg (fun ds : Table.Draws n => (ds k).val) heq
      · intro h
        have heq : residues ws = js := funext fun k => Fin.ext (h k)
        rw [heq]
        exact hjs
    simp only [Finset.mem_filter, Fintype.mem_piFinset, hdraws]
    exact forall_and.symm
  rw [hfilter, Fintype.card_piFinset]
  exact Finset.prod_congr rfl fun k _ => card_residue bound (js k).isLt

end Base
