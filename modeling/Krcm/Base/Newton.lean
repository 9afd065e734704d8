import Mathlib.Tactic.Ring
import Mathlib.Tactic.LinearCombination
import Mathlib.Logic.Function.Iterate

/-!
# Newton inversion in a ring of characteristic a power of two

One step `x ↦ x * (2 - a * x)` squares the error `1 - a * x`, so `k` steps
from `1` leave the error `(1 - a) ^ 2 ^ k`. When `a` is odd and `2 ^ 2 ^ k` is
zero in the ring, no error is left.
-/

namespace Base

variable {R : Type} [CommRing R]

/-- The error after one step is the square of the error before it. -/
theorem newton_error (a x : R) : 1 - a * (x * (2 - a * x)) = (1 - a * x) ^ 2 := by
  ring

theorem newton_error_iterate (a x : R) (k : Nat) :
    1 - a * (fun x => x * (2 - a * x))^[k] x = (1 - a * x) ^ 2 ^ k := by
  induction k generalizing x with
  | zero => simp
  | succ k ih => rw [Function.iterate_succ_apply, ih, newton_error, ← pow_mul, ← pow_succ']

theorem newton_inverse {a m : R} {k : Nat} (ha : a = 2 * m + 1) (h2 : (2 : R) ^ 2 ^ k = 0) :
    a * (fun x => x * (2 - a * x))^[k] 1 = 1 := by
  have herr := newton_error_iterate a 1 k
  have hzero : (1 - a * 1) ^ 2 ^ k = 0 := by
    rw [ha, show 1 - (2 * m + 1) * 1 = 2 * -m by ring, mul_pow, h2, zero_mul]
  rw [hzero] at herr
  linear_combination -herr

end Base
