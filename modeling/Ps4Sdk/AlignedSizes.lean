import Mathlib.Algebra.Order.Floor.Div
import Mathlib.Order.Bounds.Basic

/-!
# Sizes that are rounded up to a multiple

The least multiple of an alignment that is no smaller than a size, the two formulas by which
programs compute it, and what is left of it in words of a limited width.
-/

namespace Ps4Sdk.AlignedSizes

/-- The least multiple of the alignment that is no smaller than the size. -/
def roundUp (a n : ℕ) : ℕ := a * (n ⌈/⌉ a)

variable {a n m : ℕ}

theorem dvd_roundUp (a n : ℕ) : a ∣ roundUp a n := dvd_mul_right a _

private theorem le_roundUp (ha : 0 < a) (n : ℕ) : n ≤ roundUp a n := le_smul_ceilDiv ha

theorem roundUp_le_iff (ha : 0 < a) (h : a ∣ m) : roundUp a n ≤ m ↔ n ≤ m := by
  obtain ⟨k, rfl⟩ := h
  rw [roundUp, Nat.mul_le_mul_left_iff ha]
  exact ceilDiv_le_iff_le_mul ha

theorem isLeast_roundUp (ha : 0 < a) (n : ℕ) : IsLeast {m | a ∣ m ∧ n ≤ m} (roundUp a n) :=
  ⟨⟨dvd_roundUp a n, le_roundUp ha n⟩, fun _ h => (roundUp_le_iff ha h.1).mpr h.2⟩

theorem isLeast_iff (ha : 0 < a) : IsLeast {m | a ∣ m ∧ n ≤ m} m ↔ m = roundUp a n :=
  ⟨fun h => h.unique (isLeast_roundUp ha n), fun h => h ▸ isLeast_roundUp ha n⟩

theorem roundUp_of_dvd (ha : 0 < a) (h : a ∣ n) : roundUp a n = n :=
  le_antisymm ((roundUp_le_iff ha h).mpr le_rfl) (le_roundUp ha n)

theorem roundUp_succ (ha : 0 < a) (n : ℕ) : roundUp a (n + 1) = (n / a + 1) * a := by
  rw [roundUp, Nat.ceilDiv_eq_add_pred_div, Nat.mul_comm, show n + 1 + a - 1 = n + a by omega,
    Nat.add_div_right n ha]

theorem roundUp_pos (ha : 0 < a) (hn : 0 < n) : 0 < roundUp a n := hn.trans_le (le_roundUp ha n)

theorem roundUp_lt (ha : 0 < a) (n : ℕ) : roundUp a n < n + a := by
  cases n with
  | zero =>
    rw [roundUp_of_dvd ha (Nat.dvd_zero a)]
    omega
  | succ n =>
    have h := Nat.div_mul_le_self n a
    rw [roundUp_succ ha, Nat.add_mul]
    omega

theorem roundUp_succ_of_dvd (ha : 0 < a) (h : a ∣ n) : roundUp a (n + 1) = n + a := by
  rw [roundUp_succ ha, Nat.add_mul, Nat.div_mul_cancel h, Nat.one_mul]

theorem roundUp_succ_of_not_dvd (ha : 0 < a) (h : ¬a ∣ n) : roundUp a (n + 1) = roundUp a n := by
  have hne : n ≠ roundUp a n := fun he => h (he ▸ dvd_roundUp a n)
  have hle := le_roundUp ha n
  refine le_antisymm ((roundUp_le_iff ha (dvd_roundUp a n)).mpr (by omega)) ?_
  exact (roundUp_le_iff ha (dvd_roundUp a _)).mpr ((Nat.le_succ n).trans (le_roundUp ha _))

theorem roundUp_mod_eq_zero_iff {w : ℕ} (ha : 0 < a) (hn : n < w) (haw : a < w)
    (h : w ≤ roundUp a n) :
    roundUp a n % w = 0 ↔ roundUp a n = w := by
  have hlt := roundUp_lt ha n
  rw [Nat.mod_eq_sub_mod h, Nat.mod_eq_of_lt (by omega)]
  omega

theorem mul_mod_div_le (n a w : ℕ) : n * a % w / a ≤ n :=
  Nat.div_le_of_le_mul ((Nat.mod_le _ _).trans_eq (Nat.mul_comm _ _))

/-- A product that wraps is not undone by the division. -/
theorem mul_mod_div_eq_iff {w : ℕ} (ha : 0 < a) (hw : 0 < w) : n * a % w / a = n ↔ n * a < w := by
  constructor
  · intro heq
    by_contra hle
    have hlt : n * a % w < n * a := (Nat.mod_lt _ hw).trans_le (not_lt.mp hle)
    exact absurd heq ((Nat.div_lt_iff_lt_mul ha).mpr hlt).ne
  · intro hlt
    rw [Nat.mod_eq_of_lt hlt, Nat.mul_div_cancel _ ha]

theorem toNat_pos {w : ℕ} {x : BitVec w} (h : x ≠ 0#w) : 0 < x.toNat := by
  rw [Nat.pos_iff_ne_zero]
  intro h₀
  exact h (BitVec.eq_of_toNat_eq (h₀.trans (BitVec.toNat_zero).symm))

end Ps4Sdk.AlignedSizes
