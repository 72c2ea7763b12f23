import ConstantFlow.Proofs.Unbounded
import Mathlib.Algebra.Order.Group.Unbundled.Int
import Mathlib.Data.Int.Order.Basic

namespace ConstantFlow

variable {x y r : Int}

/-- What division of `x` by `y` toward zero may leave over. -/
structure LeavesOver (x y r : Int) : Prop where
  lt : |r| < |y|
  sign : r = 0 ∨ r.sign = x.sign
  dvd : y ∣ x - r

theorem leavesOver_tmod (hy : y ≠ 0) (x : Int) : LeavesOver x y (x.tmod y) where
  lt := by
    rw [Int.abs_eq_natAbs, Int.abs_eq_natAbs, Int.natAbs_tmod]
    exact_mod_cast Nat.mod_lt x.natAbs (Int.natAbs_pos.2 hy)
  sign := by
    rw [Int.sign_tmod]
    split
    · next h => exact .inl (Int.tmod_eq_zero_of_dvd h)
    · exact .inr rfl
  dvd := Int.dvd_self_sub_of_tmod_eq rfl

theorem LeavesOver.eq_tmod (h : LeavesOver x y r) : r = x.tmod y := by
  have hlt := h.lt
  rw [Int.abs_eq_natAbs, Int.abs_eq_natAbs] at hlt
  have hy : y ≠ 0 := by
    rintro rfl
    omega
  obtain ⟨k, hk⟩ := h.dvd
  have hsum : r + y * k = x := by omega
  -- the two signs of the dividend have their own laws of division with remainder
  rcases Int.le_total 0 x with hx | hx
  · have hr : 0 ≤ r := by
      rcases h.sign with h0 | hs
      · exact h0.ge
      · exact Int.sign_nonneg_iff.1 (hs ▸ Int.sign_nonneg_iff.2 hx)
    exact ((Int.tdiv_tmod_unique hx hy).2 ⟨hsum, hr, by omega⟩).2.symm
  · have hr : r ≤ 0 := by
      rcases h.sign with h0 | hs
      · exact h0.le
      · exact Int.sign_nonpos_iff.1 (hs ▸ Int.sign_nonpos_iff.2 hx)
    exact ((Int.tdiv_tmod_unique' hx hy).2 ⟨hsum, by omega, hr⟩).2.symm

theorem sub_tmod_ediv (hy : y ≠ 0) (x : Int) : (x - x.tmod y) / y = x.tdiv y := by
  have h := Int.tmod_add_mul_tdiv x y
  have he : x - x.tmod y = y * x.tdiv y := by omega
  rw [he, Int.mul_ediv_cancel_left _ hy]

theorem tmod_inRange (hy : leastInt ≤ y ∧ y ≤ greatestInt) (hy0 : y ≠ 0) (x : Int) :
    leastInt ≤ x.tmod y ∧ x.tmod y ≤ greatestInt := by
  have he := Int.natAbs_tmod x y
  have hlt := Nat.mod_lt x.natAbs (Int.natAbs_pos.2 hy0)
  unfold leastInt greatestInt at *
  omega

theorem tdiv_inRange (hx : leastInt ≤ x ∧ x ≤ greatestInt) (hn : ¬ (x = leastInt ∧ y = -1)) :
    leastInt ≤ x.tdiv y ∧ x.tdiv y ≤ greatestInt := by
  have he := Int.natAbs_tdiv x y
  unfold leastInt greatestInt at *
  by_cases hy : 2 ≤ y.natAbs
  · have hhalf : x.natAbs / y.natAbs ≤ x.natAbs / 2 := Nat.div_le_div_left hy (by decide)
    change _ = x.natAbs / y.natAbs at he
    omega
  · -- the divisor is zero, one or minus one
    obtain rfl | rfl | rfl : y = 0 ∨ y = 1 ∨ y = -1 := by omega
    · rw [Int.tdiv_zero]
      decide
    · rwa [Int.tdiv_one]
    · rw [Int.tdiv_neg, Int.tdiv_one]
      omega

theorem quotient_eq_of_inRange (hx : leastInt ≤ x ∧ x ≤ greatestInt) :
    quotient x y = if x = leastInt ∧ y = -1 then leastInt else x.tdiv y := by
  split
  · next h =>
    obtain ⟨rfl, rfl⟩ := h
    rfl
  · next h =>
    rw [quotient_eq]
    exact wrap_eq_self (tdiv_inRange hx h)

theorem wrap_quotient_mul_add_remainder (x y : Int) : wrap (quotient x y * y + remainder x y) = wrap x := by
  have hmul : quotient x y * y ≡ x.tdiv y * y [ZMOD 2 ^ 32] := by
    rw [quotient_eq]
    exact (wrap_modEq (x.tdiv y)).mul_right y
  rw [wrap_congr (hmul.add_right (remainder x y)), remainder_eq, Int.mul_comm, Int.mul_tdiv_add_tmod]

/-- Whatever is divided by a number that is not zero has a quotient and a remainder. The remainder is the one number
smaller than the divisor, with the sign of the dividend, that leaves a multiple of the divisor; the quotient is the
exact one as a register keeps it, and on numbers in the range of a register the exact one itself, but for one case. -/
theorem quotient_remainder (x : Int) (hy : y ≠ 0) :
    ∃ q r, quotient? x y = .ok q ∧ remainder? x y = .ok r ∧
      LeavesOver x y r ∧ (∀ r', LeavesOver x y r' → r' = r) ∧
      q = wrap ((x - r) / y) ∧ wrap (q * y + r) = wrap x ∧
      ((leastInt ≤ x ∧ x ≤ greatestInt) → (leastInt ≤ y ∧ y ≤ greatestInt) →
        (leastInt ≤ r ∧ r ≤ greatestInt) ∧ q = if x = leastInt ∧ y = -1 then leastInt else (x - r) / y) := by
  refine ⟨quotient x y, remainder x y, if_neg hy, if_neg hy, ?_, ?_, ?_, ?_, ?_⟩
  · rw [remainder_eq]
    exact leavesOver_tmod hy x
  · intro r' hr
    rw [remainder_eq]
    exact hr.eq_tmod
  · rw [remainder_eq, sub_tmod_ediv hy, quotient_eq]
  · exact wrap_quotient_mul_add_remainder x y
  · intro hx hyr
    rw [remainder_eq, sub_tmod_ediv hy]
    exact ⟨tmod_inRange hyr hy x, quotient_eq_of_inRange hx⟩

theorem quotient_remainder_wrapping :
    ((4294967299 : Int) ≠ 0 ∧ quotient? (-18446744073709551621) 4294967299 = .ok 3 ∧
      remainder? (-18446744073709551621) 4294967299 = .ok (-14) ∧
      LeavesOver (-18446744073709551621) 4294967299 (-14) ∧
      wrap (3 * 4294967299 + -14) = wrap (-18446744073709551621)) ∧
    (-1 : Int) ≠ 0 ∧ quotient? leastInt (-1) = .ok leastInt ∧ remainder? leastInt (-1) = .ok 0 := by
  have hbig : (4294967299 : Int) ≠ 0 := by decide
  have hone : (-1 : Int) ≠ 0 := by decide
  constructor
  · obtain ⟨q, r, hq, hr, hover, -, -, hwrap, -⟩ := quotient_remainder (-18446744073709551621) hbig
    cases hq
    cases hr
    exact ⟨hbig, rfl, rfl, hover, hwrap⟩
  · obtain ⟨q, r, hq, hr, -, -, -, -, hrange⟩ := quotient_remainder leastInt hone
    obtain ⟨-, hmin⟩ := hrange (by decide) (by decide)
    rw [if_pos ⟨rfl, rfl⟩] at hmin
    cases hr
    exact ⟨hone, hmin ▸ hq, rfl⟩

end ConstantFlow
