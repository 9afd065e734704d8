import Krcm.Base.Outcome

/-!
# Running loops backwards

A loop whose body can be undone is undone by the reversed loop of the undoing
bodies: `foldl_undo` for pure bodies, `foldlM_undo` for bodies that may fail,
where "undo" is the equivalence `f a s = ok t ↔ g a t = ok s`.

`chain step next` runs `step` over a list of blocks with feedback: each block
is transformed under a value computed from the block before it. `chain_undo`
says that two chains whose steps undo each other, one feeding back its output
and the other its input, undo each other.
-/

namespace Base

variable {ε ι σ φ β : Type}

/-! ## Loops -/

theorem foldl_undo {f g : σ → ι → σ} {l : List ι} (h : ∀ i ∈ l, ∀ s, g (f s i) i = s) (s : σ) :
    l.reverse.foldl g (l.foldl f s) = s := by
  induction l generalizing s with
  | nil => rfl
  | cons i l ih =>
    simp only [List.reverse_cons, List.foldl_append, List.foldl_cons, List.foldl_nil]
    rw [ih (fun j hj => h j (List.mem_cons_of_mem _ hj)), h i List.mem_cons_self]

theorem foldlM_undo {f g : σ → ι → Outcome ε σ} (h : ∀ i s t, f s i = .ok t ↔ g t i = .ok s)
    (l : List ι) (s t : σ) : l.foldlM f s = .ok t ↔ l.reverse.foldlM g t = .ok s := by
  induction l generalizing s t with
  | nil => simp [eq_comm]
  | cons i l ih =>
    rw [List.foldlM_cons, List.reverse_cons, List.foldlM_append, Outcome.bind_eq_ok,
      Outcome.bind_eq_ok]
    constructor
    · rintro ⟨u, hu, ht⟩
      exact ⟨u, (ih u t).mp ht, by simpa using (h i s u).mp hu⟩
    · rintro ⟨u, hu, ht⟩
      exact ⟨u, (h i s u).mpr (by simpa using ht), (ih u t).mpr hu⟩

/-- A loop whose body always returns, returns. -/
theorem foldlM_returns {f : σ → ι → Outcome ε σ} (h : ∀ i s, ∃ t, f s i = .ok t) (l : List ι)
    (s : σ) : ∃ t, l.foldlM f s = .ok t := by
  induction l generalizing s with
  | nil => exact ⟨s, rfl⟩
  | cons i l ih =>
    obtain ⟨u, hu⟩ := h i s
    obtain ⟨t, ht⟩ := ih u
    exact ⟨t, by rw [List.foldlM_cons, hu, Outcome.ok_bind, ht]⟩

/-! ## Chains with feedback -/

/-- `step` over the blocks, counted from `i`. `next x y` is the feedback value after block `x`
became `y`. -/
def chain (step : Nat → φ → β → Outcome ε β) (next : β → β → φ) :
    Nat → φ → List β → Outcome ε (List β)
  | _, _, [] => .ok []
  | i, fb, x :: xs => do
    let y ← step i fb x
    let ys ← chain step next (i + 1) (next x y) xs
    .ok (y :: ys)

variable {step unstep : Nat → φ → β → Outcome ε β} {next : β → β → φ}

theorem chain_cons_eq_ok {i : Nat} {fb : φ} {x : β} {xs zs : List β} :
    chain step next i fb (x :: xs) = .ok zs ↔
      ∃ y ys, step i fb x = .ok y ∧ chain step next (i + 1) (next x y) xs = .ok ys ∧
        zs = y :: ys := by
  simp only [chain, Outcome.bind_eq_ok, Outcome.ok.injEq, eq_comm (b := zs)]
  constructor
  · rintro ⟨y, hy, ys, hys, h⟩; exact ⟨y, ys, hy, hys, h⟩
  · rintro ⟨y, ys, hy, hys, h⟩; exact ⟨y, hy, ys, hys, h⟩

/-- Chains whose steps undo each other undo each other. -/
theorem chain_undo (next : β → β → φ)
    (h : ∀ i fb x y, step i fb x = .ok y ↔ unstep i fb y = .ok x) (i : Nat) (fb : φ) (xs ys : List β) :
    chain step next i fb xs = .ok ys ↔
      chain unstep (fun y x => next x y) i fb ys = .ok xs := by
  induction xs generalizing i fb ys with
  | nil =>
    cases ys with
    | nil => simp [chain]
    | cons y ys =>
      rw [chain_cons_eq_ok]
      simp [chain]
  | cons x xs ih =>
    cases ys with
    | nil =>
      rw [chain_cons_eq_ok]
      simp [chain]
    | cons y ys =>
      rw [chain_cons_eq_ok, chain_cons_eq_ok]
      constructor
      · rintro ⟨_, _, hx, hxs, heq⟩
        cases heq
        exact ⟨x, xs, (h _ _ _ _).mp hx, (ih _ _ _).mp hxs, rfl⟩
      · rintro ⟨_, _, hy, hys, heq⟩
        cases heq
        exact ⟨y, ys, (h _ _ _ _).mpr hy, (ih _ _ _).mpr hys, rfl⟩

theorem length_chain {i : Nat} {fb : φ} {xs ys : List β} (h : chain step next i fb xs = .ok ys) :
    ys.length = xs.length := by
  induction xs generalizing i fb ys with
  | nil => cases h; rfl
  | cons x xs ih =>
    obtain ⟨y, ys, -, hys, rfl⟩ := chain_cons_eq_ok.mp h
    simp [ih hys]

/-- A chain returns only where every one of its steps does. -/
theorem chain_index_lt {bound : Nat} (h : ∀ i fb x y, step i fb x = .ok y → i < bound) :
    ∀ {i : Nat} {fb : φ} {xs ys : List β}, chain step next i fb xs = .ok ys → i ≤ bound →
      i + xs.length ≤ bound
  | _, _, [], _, _, hi => hi
  | i, fb, x :: xs, zs, hc, _ => by
    obtain ⟨y, ys, hy, hys, -⟩ := chain_cons_eq_ok.mp hc
    have hlt := h i fb x y hy
    have hrest := chain_index_lt h hys hlt
    rw [List.length_cons]
    omega

/-- The feedback of every step of a chain that returned. -/
theorem chain_getElem {i : Nat} {fb : φ} {xs ys : List β} (h : chain step next i fb xs = .ok ys) :
    ∀ b x y, xs[b]? = some x → ys[b]? = some y →
      ∃ fb', step (i + b) fb' x = .ok y ∧ (b = 0 → fb' = fb) ∧
        ∀ c, b = c + 1 → ∃ x' y', xs[c]? = some x' ∧ ys[c]? = some y' ∧ fb' = next x' y' := by
  induction xs generalizing i fb ys with
  | nil => exact fun b x y hx => by simp at hx
  | cons x₀ xs ih =>
    obtain ⟨y₀, ys, hstep, hrest, rfl⟩ := chain_cons_eq_ok.mp h
    rintro (_ | b) x y hx hy
    · cases hx
      cases hy
      exact ⟨fb, hstep, fun _ => rfl, nofun⟩
    · obtain ⟨fb', hs, h0, hc⟩ := ih hrest b x y hx hy
      refine ⟨fb', by rwa [Nat.add_right_comm, Nat.add_assoc] at hs, nofun, fun c hbc => ?_⟩
      cases hbc
      cases b with
      | zero => exact ⟨x₀, y₀, rfl, rfl, h0 rfl⟩
      | succ c =>
        obtain ⟨x', y', hx', hy', hf⟩ := hc c rfl
        exact ⟨x', y', hx', hy', hf⟩

/-- A chain of steps that cannot fail. -/
def mapChain (f : Nat → φ → β → β) (next : β → β → φ) : Nat → φ → List β → List β
  | _, _, [] => []
  | i, fb, x :: xs => f i fb x :: mapChain f next (i + 1) (next x (f i fb x)) xs

@[simp] theorem length_mapChain (f : Nat → φ → β → β) (next : β → β → φ) :
    ∀ (i : Nat) (fb : φ) (xs : List β), (mapChain f next i fb xs).length = xs.length
  | _, _, [] => rfl
  | i, fb, x :: xs => by
    rw [mapChain, List.length_cons, length_mapChain f next, List.length_cons]

/-- A chain over images `g x` whose steps return the image of `f`, up to an index, returns the
images of the chain of `f`. -/
theorem chain_eq_mapChain {γ : Type} {step : Nat → φ → γ → Outcome ε γ} {nextImage : γ → γ → φ}
    {f : Nat → φ → β → β} {next : β → β → φ} {g : β → γ} {bound : Nat}
    (h : ∀ i fb x, i < bound → step i fb (g x) = .ok (g (f i fb x)))
    (hnext : ∀ x y, nextImage (g x) (g y) = next x y) :
    ∀ {i : Nat} {fb : φ} {xs : List β}, i + xs.length ≤ bound →
      chain step nextImage i fb (xs.map g) = .ok ((mapChain f next i fb xs).map g)
  | _, _, [], _ => rfl
  | i, fb, x :: xs, hb => by
    rw [List.length_cons] at hb
    rw [List.map_cons, chain, h i fb x (by omega), Outcome.ok_bind, hnext,
      chain_eq_mapChain h hnext (by omega), Outcome.ok_bind]
    rfl

theorem chain_pure {f : Nat → φ → β → β} (h : ∀ i fb x, step i fb x = .ok (f i fb x)) :
    ∀ (i : Nat) (fb : φ) (xs : List β), chain step next i fb xs = .ok (mapChain f next i fb xs)
  | _, _, [] => rfl
  | i, fb, x :: xs => by
    rw [chain, h, Outcome.ok_bind, chain_pure h, Outcome.ok_bind]
    rfl

/-- Chains of steps that undo each other undo each other. -/
theorem mapChain_undo {f g : Nat → φ → β → β} (next : β → β → φ)
    (h : ∀ i fb x, g i fb (f i fb x) = x) :
    ∀ (i : Nat) (fb : φ) (xs : List β),
      mapChain g (fun y x => next x y) i fb (mapChain f next i fb xs) = xs
  | _, _, [] => rfl
  | i, fb, x :: xs => by
    simp only [mapChain, h, mapChain_undo next h]

theorem chain_returns (next : β → β → φ) (h : ∀ i fb x, ∃ y, step i fb x = .ok y) (i : Nat)
    (fb : φ) (xs : List β) : ∃ ys, chain step next i fb xs = .ok ys := by
  induction xs generalizing i fb with
  | nil => exact ⟨[], rfl⟩
  | cons x xs ih =>
    obtain ⟨y, hy⟩ := h i fb x
    obtain ⟨ys, hys⟩ := ih (i + 1) (next x y)
    exact ⟨y :: ys, chain_cons_eq_ok.mpr ⟨y, ys, hy, hys, rfl⟩⟩

end Base
