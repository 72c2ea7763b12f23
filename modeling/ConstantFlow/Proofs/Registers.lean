import ConstantFlow.Proofs.Arithmetic
import ConstantFlow.Proofs.Lattice
import Mathlib.Data.Int.Init

namespace ConstantFlow

variable {x y z : Int32}

def ArithmeticOp.run : ArithmeticOp → Int32 → Int32 → Option Int32
  | add, x, y => some (x + y)
  | sub, x, y => some (x - y)
  | mul, x, y => some (x * y)
  | div, x, y => if y = 0 then none else some (x / y)
  | rem, x, y => if y = 0 then none else some (x % y)

def BitwiseOp.run : BitwiseOp → Int32 → Int32 → Int32
  | or, x, y => x ||| y
  | and, x, y => x &&& y
  | xor, x, y => x ^^^ y

def ShiftOp.run : ShiftOp → Int32 → Int32 → Int32
  | shl, x, y => x <<< y
  | shr, x, y => x >>> y
  | ushr, x, y => (x.toUInt32 >>> y.toUInt32).toInt32

def ConditionOp.run : ConditionOp → Int32 → Int32 → Bool
  | eq, x, y => x = y
  | ne, x, y => x ≠ y
  | gt, x, y => x > y
  | ge, x, y => x ≥ y
  | lt, x, y => x < y
  | le, x, y => x ≤ y

/-- What an operator may make of two registers. Comparisons of other types may make anything. -/
def BinaryOp.Yields (x y z : Int32) : BinaryOp → Prop
  | arithmetic op => op.run x y = some z
  | bitwise op => op.run x y = z
  | shift op => op.run x y = z
  | condition op => (if op.run x y then 1 else 0) = z
  | comparison _ => True
  | unknown _ => True

theorem toNat_bits (v : BitVec 32) : v.toNat = (v.toInt % 4294967296).toNat := by
  have h := congrArg BitVec.toNat (BitVec.ofInt_toInt (x := v))
  rw [BitVec.toNat_ofInt] at h
  exact h.symm

theorem lowBits_toInt (x : Int32) : lowBits x.toInt = x.toBitVec.toNat := by
  rw [lowBits_eq]
  exact (toNat_bits x.toBitVec).symm

theorem shiftAmount_toInt (y : Int32) : shiftAmount y.toInt = y.toBitVec.toNat % 32 := by
  rw [toNat_bits, shiftAmount_eq, Int32.toInt_toBitVec]
  omega

theorem smod_shiftAmount (y : Int32) : (y.toBitVec.smod 32).toNat = shiftAmount y.toInt := by
  have h : (y.toBitVec.smod 32).toInt = y.toInt % 32 := by
    rw [BitVec.toInt_smod]
    exact Int.fmod_eq_emod_of_nonneg _ (by decide)
  rw [toNat_bits, h, shiftAmount_eq]
  omega

namespace ArithmeticOp

theorem ofInt_apply {op : ArithmeticOp} (h : op.run x y = some z) :
    Int32.ofInt (op.apply x.toInt y.toInt) = z := by
  rw [Int32.ofInt_eq_iff_bmod_eq_toInt]
  cases op with
  | add =>
    cases h
    exact (Int32.toInt_add x y).symm
  | sub =>
    cases h
    exact (Int32.toInt_sub x y).symm
  | mul =>
    cases h
    exact (Int32.toInt_mul x y).symm
  | div =>
    rw [run] at h
    split at h
    · cases h
    · cases h
      rw [apply, quotient_eq, wrap_eq_bmod]
      exact Int.bmod_bmod.trans (Int32.toInt_div x y).symm
  | rem =>
    rw [run] at h
    split at h
    · cases h
    · cases h
      rw [apply, remainder_eq, ← Int32.toInt_mod]
      exact Int32.toInt_bmod _

end ArithmeticOp

theorem BitwiseOp.ofInt_apply (op : BitwiseOp) (x y : Int32) :
    Int32.ofInt (op.apply (lowBits x.toInt) (lowBits y.toInt)) = op.run x y := by
  rw [lowBits_toInt, lowBits_toInt]
  have hx := x.toBitVec.isLt
  have hy := y.toBitVec.isLt
  apply Int32.toBitVec_inj.1
  apply BitVec.eq_of_toNat_eq
  rw [Int32.toBitVec_ofInt, BitVec.ofInt_natCast, BitVec.toNat_ofNat]
  cases op with
  | or => exact Nat.mod_eq_of_lt (Nat.or_lt_two_pow hx hy)
  | and => exact Nat.mod_eq_of_lt (Nat.and_lt_two_pow _ hy)
  | xor => exact Nat.mod_eq_of_lt (Nat.xor_lt_two_pow hx hy)

theorem ShiftOp.ofInt_apply (op : ShiftOp) (x y : Int32) :
    Int32.ofInt (op.apply x.toInt (shiftAmount y.toInt)) = op.run x y := by
  apply Int32.toBitVec_inj.1
  rw [Int32.toBitVec_ofInt]
  cases op with
  | shl =>
    apply BitVec.eq_of_toInt_eq
    rw [run, Int32.toBitVec_shiftLeft, BitVec.shiftLeft_eq', smod_shiftAmount, BitVec.toInt_shiftLeft,
      BitVec.toInt_ofInt, apply, Int.shiftLeft_eq, ← Int32.toInt_toBitVec, BitVec.toInt_eq_toNat_bmod,
      Int.bmod_mul_bmod, Nat.shiftLeft_eq, Int.natCast_mul, Int.natCast_pow]
    rfl
  | shr =>
    apply BitVec.eq_of_toInt_eq
    rw [run, Int32.toBitVec_shiftRight, BitVec.sshiftRight_eq', smod_shiftAmount, apply, ← Int32.toInt_toBitVec,
      ← BitVec.toInt_sshiftRight, BitVec.ofInt_toInt]
  | ushr =>
    apply BitVec.eq_of_toNat_eq
    have hlt := Nat.lt_of_le_of_lt (Nat.shiftRight_le x.toBitVec.toNat (shiftAmount y.toInt)) x.toBitVec.isLt
    rw [apply, logicalShift, lowBits_toInt, BitVec.ofInt_natCast, BitVec.toNat_ofNat, Nat.mod_eq_of_lt hlt, shiftAmount_toInt]
    exact (UInt32.toNat_shiftRight x.toUInt32 y.toUInt32).symm

theorem ConditionOp.holds_toInt (op : ConditionOp) (x y : Int32) : op.holds x.toInt y.toInt = op.run x y := by
  cases op with
  | eq => simp [holds, run, Int32.toInt_inj]
  | ne => simp [holds, run, Int32.toInt_inj]
  | gt => simp [holds, run, Int32.lt_iff_toInt_lt]
  | ge => simp [holds, run, Int32.le_iff_toInt_le]
  | lt => simp [holds, run, Int32.lt_iff_toInt_lt]
  | le => simp [holds, run, Int32.le_iff_toInt_le]

namespace BinaryOp

variable {op : BinaryOp}

theorem Yields.ne_zero (h : op.Yields x y z) (hd : op.divides = true) : y ≠ 0 := by
  cases op with
  | arithmetic a =>
    intro hy
    cases a with
    | div => simp [Yields, ArithmeticOp.run, hy] at h
    | rem => simp [Yields, ArithmeticOp.run, hy] at h
    | _ => cases hd
  | _ => cases hd

theorem fold_of_yields (h : op.Yields x y z) : .const z ≤ op.fold x.toInt y.toInt := by
  cases op with
  | arithmetic a =>
    have hn : ¬ ((arithmetic a).divides = true ∧ y.toInt = 0) := fun hd ↦ h.ne_zero hd.1 (Int32.toInt_inj.1 hd.2)
    rw [fold, if_neg hn, Value.ofInt, ArithmeticOp.ofInt_apply h]
  | bitwise b =>
    cases h
    rw [fold, Value.ofInt, BitwiseOp.ofInt_apply]
  | shift s =>
    cases h
    rw [fold, Value.ofInt, ShiftOp.ofInt_apply]
  | condition c =>
    cases h
    rw [fold, Value.ofInt, ConditionOp.holds_toInt]
    cases c.run x y <;> exact le_rfl
  | comparison _ => exact Value.le_nac _
  | unknown _ => exact Value.le_nac _

theorem combine_of_yields {v w : Value} (hv : .const x ≤ v) (hw : .const y ≤ w) (h : op.Yields x y z) :
    .const z ≤ op.combine v w := by
  obtain rfl | rfl := Value.const_le.1 hv
  · obtain rfl | rfl := Value.const_le.1 hw
    · exact Value.le_nac _
    · rw [combine, if_neg fun hd ↦ h.ne_zero hd.1 hd.2]
      exact Value.le_nac _
  · obtain rfl | rfl := Value.const_le.1 hw
    · exact Value.le_nac _
    · exact fold_of_yields h

end BinaryOp

end ConstantFlow
