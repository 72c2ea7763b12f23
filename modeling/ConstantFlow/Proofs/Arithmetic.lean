import ConstantFlow.Folding
import Mathlib.Data.Nat.Bitwise

namespace ConstantFlow

theorem two_pow_sub_one_xor {a w : Nat} (h : a < 2 ^ w) : (2 ^ w - 1) ^^^ a = 2 ^ w - 1 - a := by
  have hx := congrArg BitVec.toNat (BitVec.allOnes_xor (x := BitVec.ofNat w a))
  rw [BitVec.toNat_xor, BitVec.toNat_allOnes, BitVec.toNat_not, BitVec.toNat_ofNat, Nat.mod_eq_of_lt h] at hx
  exact hx

theorem masked_eq (n : Int) (w : Nat) : (masked n (2 ^ w - 1) : Int) = n % (2 ^ w : Nat) := by
  have hpos := Nat.two_pow_pos w
  cases n with
  | ofNat a =>
    rw [masked, Nat.and_two_pow_sub_one_eq_mod]
    rfl
  | negSucc a =>
    have hlt : a % 2 ^ w < 2 ^ w := Nat.mod_lt a hpos
    rw [masked, Nat.and_two_pow_sub_one_eq_mod, two_pow_sub_one_xor hlt, Int.negSucc_emod a (by omega)]
    omega

theorem lowBits_eq (n : Int) : lowBits n = (n % Int32.size).toNat := by
  have h : (lowBits n : Int) = n % Int32.size := masked_eq n 32
  omega

theorem and_sign32_ne_zero {a : Nat} (h : a < 4294967296) : a &&& sign32 ≠ 0 ↔ 2147483648 ≤ a := by
  change a &&& 2 ^ 31 ≠ 0 ↔ _
  have hbit : a.testBit 31 = true ↔ 2147483648 ≤ a := by
    rw [Nat.testBit_eq_decide_div_mod_eq, decide_eq_true_eq]
    omega
  rw [Nat.and_two_pow, ← hbit]
  cases a.testBit 31 <;> simp

/-- By mask and sign bit a number comes to its balanced remainder. -/
theorem wrap_eq_bmod (n : Int) : wrap n = n.bmod Int32.size := by
  have hlow := lowBits_eq n
  rw [Int.bmod_def, wrap]
  simp only [Int32.size] at hlow ⊢
  have hsign := and_sign32_ne_zero (show lowBits n < 4294967296 by omega)
  by_cases h : 2147483648 ≤ lowBits n
  · rw [if_pos (hsign.2 h), if_neg (by omega)]
    omega
  · rw [if_neg (fun hn ↦ h (hsign.1 hn)), if_pos (by omega)]
    omega

theorem ofNat_neg (a : Nat) : decide (Int.ofNat a < 0) = false := decide_eq_false (Int.not_lt.2 (Int.natCast_nonneg a))

theorem negSucc_neg (a : Nat) : decide (Int.negSucc a < 0) = true := decide_eq_true (Int.negSucc_lt_zero a)

theorem quotient_eq (x y : Int) : quotient x y = wrap (x.tdiv y) := by
  apply congrArg wrap
  cases x with
  | ofNat a =>
    rw [ofNat_neg]
    cases y with
    | ofNat b => rw [ofNat_neg]; rfl
    | negSucc b => rw [negSucc_neg]; rfl
  | negSucc a =>
    rw [negSucc_neg]
    cases y with
    | ofNat b => rw [ofNat_neg]; rfl
    | negSucc b => rw [negSucc_neg]; rfl

theorem remainder_eq (x y : Int) : remainder x y = x.tmod y := by
  unfold remainder
  cases x with
  | ofNat a =>
    rw [if_neg (of_decide_eq_false (ofNat_neg a))]
    cases y <;> rfl
  | negSucc a =>
    rw [if_pos (of_decide_eq_true (negSucc_neg a))]
    cases y <;> rfl

theorem shiftAmount_eq (y : Int) : shiftAmount y = (y % 32).toNat := by
  have h : (shiftAmount y : Int) = y % 32 := masked_eq y 5
  omega

theorem toInt_ofInt (n : Int) : (Int32.ofInt n).toInt = wrap n := by
  rw [wrap_eq_bmod]
  exact Int32.toInt_ofInt

theorem wrap_toInt (c : Int32) : wrap c.toInt = c.toInt := by
  rw [wrap_eq_bmod]
  exact Int32.toInt_bmod c

theorem ofInt_wrap (n : Int) : Int32.ofInt (wrap n) = Int32.ofInt n := by
  apply Int32.toInt_inj.1
  rw [toInt_ofInt, toInt_ofInt, wrap_eq_bmod, wrap_eq_bmod]
  exact Int.bmod_bmod ..

end ConstantFlow
