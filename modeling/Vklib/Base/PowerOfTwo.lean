import Mathlib.Data.Nat.Log
import Mathlib.Tactic.Ring

/-!
# Rounding up to a power of two

The rounding in a constant number of operations: each step spreads the set bits of
a word to the right, twice as far as the step before, until all bits below the
highest are set, and adding one carries into the next power.

`spread_eq` is what the six steps of a 64-bit word make, and `roundUp_le_iff` how the
result compares with a power of two.
-/

namespace Vklib.PowerOfTwo

/-- Spread the set bits to the right by `s`. -/
def spreadBy (s v : Nat) : Nat := v ||| (v >>> s)

/-- Spread the set bits of a 64-bit word over all places below. -/
def spread (v : Nat) : Nat :=
  spreadBy 32 (spreadBy 16 (spreadBy 8 (spreadBy 4 (spreadBy 2 (spreadBy 1 v)))))

/-- The bits of `x` are those of `v` spread by less than `n`. -/
def SpreadUpTo (n v x : Nat) : Prop :=
  ∀ i, x.testBit i = true ↔ ∃ d < n, v.testBit (i + d) = true

theorem spreadUpTo_self (v : Nat) : SpreadUpTo 1 v v := by
  intro i
  constructor
  · exact fun h => ⟨0, by omega, h⟩
  · rintro ⟨d, hd, h⟩
    obtain rfl : d = 0 := by omega
    exact h

/-- One step doubles how far the bits are spread. -/
theorem SpreadUpTo.step {n v x : Nat} (h : SpreadUpTo n v x) :
    SpreadUpTo (n + n) v (spreadBy n x) := by
  intro i
  rw [spreadBy, Nat.testBit_or, Nat.testBit_shiftRight, Bool.or_eq_true, h, h]
  constructor
  · rintro (⟨d, hd, hbit⟩ | ⟨d, hd, hbit⟩)
    · exact ⟨d, by omega, hbit⟩
    · exact ⟨n + d, by omega, by rwa [show i + (n + d) = n + i + d from by ring]⟩
  · rintro ⟨d, hd, hbit⟩
    rcases Nat.lt_or_ge d n with hlt | hge
    · exact Or.inl ⟨d, hlt, hbit⟩
    · exact Or.inr ⟨d - n, by omega, by rwa [show n + i + (d - n) = i + d from by omega]⟩

theorem spreadUpTo_spread (v : Nat) : SpreadUpTo 64 v (spread v) :=
  (spreadUpTo_self v).step.step.step.step.step.step

/-- A word with its highest bit at `k` is spread to all ones below `k + 1`. -/
theorem spread_eq {v k : Nat} (hk : k < 64) (hlow : 2 ^ k ≤ v) (hhigh : v < 2 ^ (k + 1)) :
    spread v = 2 ^ (k + 1) - 1 := by
  have htop : v.testBit k = true := by
    obtain ⟨j, hj, hbit⟩ := Nat.exists_ge_and_testBit_of_ge_two_pow hlow
    rcases Nat.lt_or_ge k j with hlt | hge
    · have hle : 2 ^ (k + 1) ≤ 2 ^ j := Nat.pow_le_pow_right (by decide) hlt
      rw [Nat.testBit_lt_two_pow (by omega)] at hbit
      cases hbit
    · rwa [show k = j from by omega]
  refine Nat.eq_of_testBit_eq fun i => Bool.eq_iff_iff.mpr ?_
  rw [spreadUpTo_spread v i, Nat.testBit_two_pow_sub_one, decide_eq_true_iff]
  constructor
  · rintro ⟨d, -, hbit⟩
    by_contra hge
    have hle : 2 ^ (k + 1) ≤ 2 ^ (i + d) := Nat.pow_le_pow_right (by decide) (by omega)
    rw [Nat.testBit_lt_two_pow (by omega)] at hbit
    cases hbit
  · intro hlt
    exact ⟨k - i, by omega, by rwa [show i + (k - i) = k from by omega]⟩

/-- The next power of two, for a number that is not zero. -/
def roundUp (v : Nat) : Nat := spread (v - 1) + 1

@[simp] theorem roundUp_one : roundUp 1 = 1 := by decide

/-- Between two powers of two the result is the higher. -/
theorem roundUp_eq {v k : Nat} (hk : k < 64) (hlow : 2 ^ k < v) (hhigh : v ≤ 2 ^ (k + 1)) :
    roundUp v = 2 ^ (k + 1) := by
  have hpos := Nat.two_pow_pos (k + 1)
  rw [roundUp, spread_eq hk (by omega) (by omega)]
  omega

theorem exists_roundUp_eq {v : Nat} (hpos : 0 < v) (hmax : v ≤ 2 ^ 64) :
    ∃ k, roundUp v = 2 ^ k ∧ v ≤ 2 ^ k ∧ (k = 0 ∨ 2 ^ (k - 1) < v) := by
  rcases Nat.eq_or_lt_of_le hpos with rfl | hgt
  · exact ⟨0, roundUp_one, le_refl _, Or.inl rfl⟩
  · have hne : v - 1 ≠ 0 := by omega
    have hlow := Nat.pow_log_le_self 2 hne
    have hhigh := Nat.lt_pow_succ_log_self (by decide : 1 < 2) (v - 1)
    have hk : Nat.log 2 (v - 1) < 64 := Nat.log_lt_of_lt_pow hne (by omega)
    refine ⟨Nat.log 2 (v - 1) + 1, roundUp_eq hk (by omega) ?_, ?_, Or.inr ?_⟩
    · rw [Nat.succ_eq_add_one] at hhigh
      omega
    · rw [Nat.succ_eq_add_one] at hhigh
      omega
    · rw [Nat.add_sub_cancel]
      omega

theorem le_roundUp {v : Nat} (hpos : 0 < v) (hmax : v ≤ 2 ^ 64) : v ≤ roundUp v := by
  obtain ⟨k, hround, hle, -⟩ := exists_roundUp_eq hpos hmax
  rwa [hround]

/-- A number that does not pass a power of two is not rounded past it. -/
theorem roundUp_le {v n : Nat} (hpos : 0 < v) (hmax : v ≤ 2 ^ 64) (h : v ≤ 2 ^ n) :
    roundUp v ≤ 2 ^ n := by
  obtain ⟨k, hround, -, hlow⟩ := exists_roundUp_eq hpos hmax
  rw [hround]
  refine Nat.pow_le_pow_right (by decide) ?_
  rcases hlow with rfl | hlow
  · exact Nat.zero_le n
  · have hlt := (Nat.pow_lt_pow_iff_right (by decide : 1 < 2)).mp (hlow.trans_le h)
    omega

/-- The result stays below the next power of two exactly when the number does not pass
this one. -/
theorem roundUp_le_iff {v n : Nat} (hpos : 0 < v) (hmax : v ≤ 2 ^ 64) :
    roundUp v ≤ 2 ^ (n + 1) - 1 ↔ v ≤ 2 ^ n := by
  have hn := Nat.two_pow_pos n
  constructor
  · intro h
    obtain ⟨k, hround, hle, -⟩ := exists_roundUp_eq hpos hmax
    rw [hround] at h
    have hlt : 2 ^ k < 2 ^ (n + 1) := by rw [Nat.pow_succ] at h ⊢; omega
    have hkn : k ≤ n := Nat.lt_succ_iff.mp ((Nat.pow_lt_pow_iff_right (by decide)).mp hlt)
    exact hle.trans (Nat.pow_le_pow_right (by decide) hkn)
  · intro h
    have hle := roundUp_le hpos hmax h
    rw [Nat.pow_succ]
    omega

end Vklib.PowerOfTwo
