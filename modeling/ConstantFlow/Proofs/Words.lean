import ConstantFlow.Proofs.Registers

namespace ConstantFlow

/-- What the machine makes of two words, where shifts count their distance modulo 32. There is nothing to be had
from a division by zero, or from an operator on numbers of another type. -/
def BinaryOp.onWords? (op : BinaryOp) (a b : BitVec 32) : Option (BitVec 32) :=
  match op with
  | arithmetic .add => some (a + b)
  | arithmetic .sub => some (a - b)
  | arithmetic .mul => some (a * b)
  | arithmetic .div => if b = 0 then none else some (a.sdiv b)
  | arithmetic .rem => if b = 0 then none else some (a.srem b)
  | bitwise .or => some (a ||| b)
  | bitwise .and => some (a &&& b)
  | bitwise .xor => some (a ^^^ b)
  | shift .shl => some (a <<< (b.toInt % 32).toNat)
  | shift .shr => some (a.sshiftRight (b.toInt % 32).toNat)
  | shift .ushr => some (a >>> (b.toInt % 32).toNat)
  | condition .eq => some (if a = b then 1 else 0)
  | condition .ne => some (if a ≠ b then 1 else 0)
  | condition .gt => some (if b.slt a then 1 else 0)
  | condition .ge => some (if b.sle a then 1 else 0)
  | condition .lt => some (if a.slt b then 1 else 0)
  | condition .le => some (if a.sle b then 1 else 0)
  | comparison _ => none
  | unknown _ => none

theorem toInt_ofInt_of_inRange {n : Int} (h : leastInt ≤ n ∧ n ≤ greatestInt) : (Int32.ofInt n).toInt = n :=
  Int32.toInt_ofInt_of_le h.1 (Int.lt_of_le_of_lt h.2 (by decide))

theorem ArithmeticOp.toBitVec_run (op : ArithmeticOp) (x y : Int32) :
    (op.run x y).map Int32.toBitVec = (BinaryOp.arithmetic op).onWords? x.toBitVec y.toBitVec := by
  have hzero : y.toBitVec = 0 ↔ y = 0 := Int32.toBitVec_inj (b := 0)
  cases op with
  | div =>
    rw [run, BinaryOp.onWords?, if_congr hzero rfl rfl]
    split <;> rfl
  | rem =>
    rw [run, BinaryOp.onWords?, if_congr hzero rfl rfl]
    split <;> rfl
  | _ => rfl

theorem ArithmeticOp.run_eq_none {op : ArithmeticOp} {x y : Int32} :
    op.run x y = none ↔ (BinaryOp.arithmetic op).divides = true ∧ y = 0 := by
  cases op <;> simp [run, BinaryOp.divides]

theorem BitwiseOp.toBitVec_run (op : BitwiseOp) (x y : Int32) :
    some (op.run x y).toBitVec = (BinaryOp.bitwise op).onWords? x.toBitVec y.toBitVec := by
  cases op <;> rfl

theorem ShiftOp.toBitVec_run (op : ShiftOp) (x y : Int32) :
    some (op.run x y).toBitVec = (BinaryOp.shift op).onWords? x.toBitVec y.toBitVec := by
  have hamount : (y.toBitVec.toInt % 32).toNat = shiftAmount y.toInt := (shiftAmount_eq y.toInt).symm
  cases op with
  | shl => rw [run, Int32.toBitVec_shiftLeft, BitVec.shiftLeft_eq', smod_shiftAmount, BinaryOp.onWords?, hamount]
  | shr => rw [run, Int32.toBitVec_shiftRight, BitVec.sshiftRight_eq', smod_shiftAmount, BinaryOp.onWords?, hamount]
  | ushr =>
    have hshift : (x.toUInt32 >>> y.toUInt32).toBitVec = x.toBitVec >>> (y.toBitVec.toNat % 32) :=
      BitVec.eq_of_toNat_eq (UInt32.toNat_shiftRight x.toUInt32 y.toUInt32)
    rw [BinaryOp.onWords?, hamount, shiftAmount_toInt, ← hshift]
    rfl

theorem ConditionOp.onWords?_eq (op : ConditionOp) (a b : BitVec 32) :
    (BinaryOp.condition op).onWords? a b = some (if op.holds a.toInt b.toInt then 1 else 0) := by
  cases op with
  | eq => simp [BinaryOp.onWords?, holds, BitVec.toInt_inj]
  | ne => simp [BinaryOp.onWords?, holds, BitVec.toInt_inj]
  | gt => simp [BinaryOp.onWords?, holds, BitVec.slt_iff_toInt_lt]
  | ge => simp [BinaryOp.onWords?, holds, BitVec.sle_iff_toInt_le]
  | lt => simp [BinaryOp.onWords?, holds, BitVec.slt_iff_toInt_lt]
  | le => simp [BinaryOp.onWords?, holds, BitVec.sle_iff_toInt_le]

namespace BinaryOp

theorem fold_eq_undef (op : BinaryOp) (x y : Int) : op.fold x y = .undef ↔ op.divides = true ∧ y = 0 := by
  cases op with
  | arithmetic a =>
    rw [fold]
    split
    · next h => exact ⟨fun _ ↦ h, fun _ ↦ rfl⟩
    · next hn =>
      refine ⟨fun h ↦ ?_, fun hd ↦ absurd hd hn⟩
      cases h
  | _ =>
    constructor
    · intro h
      cases h
    · intro h
      cases h.1

theorem constant?_fold (op : BinaryOp) (x y : Int32) :
    (op.fold x.toInt y.toInt).constant?.map Int32.toBitVec = op.onWords? x.toBitVec y.toBitVec := by
  cases op with
  | arithmetic a =>
    rw [← ArithmeticOp.toBitVec_run]
    cases h : a.run x y with
    | none =>
      obtain ⟨hd, hy⟩ := ArithmeticOp.run_eq_none.1 h
      have hzero : y.toInt = 0 := congrArg Int32.toInt hy
      rw [(fold_eq_undef _ _ _).2 ⟨hd, hzero⟩]
      rfl
    | some z =>
      have hyields : (arithmetic a).Yields x y z := h
      have hn : ¬ ((arithmetic a).divides = true ∧ y.toInt = 0) :=
        fun hd ↦ hyields.ne_zero hd.1 (Int32.toInt_inj.1 hd.2)
      rw [fold, if_neg hn, Value.ofInt, ArithmeticOp.ofInt_apply h]
      rfl
  | bitwise b =>
    rw [← BitwiseOp.toBitVec_run, fold, Value.ofInt, BitwiseOp.ofInt_apply]
    rfl
  | shift s =>
    rw [← ShiftOp.toBitVec_run, fold, Value.ofInt, ShiftOp.ofInt_apply]
    rfl
  | condition c =>
    rw [ConditionOp.onWords?_eq, fold, Int32.toInt_toBitVec, Int32.toInt_toBitVec]
    split <;> rfl
  | comparison _ => rfl
  | unknown _ => rfl

/-- On numbers in the range of a register, the number that an operator is folded to is the signed reading of
what the machine makes of their words; and folding is undefined exactly for a division by zero. The quotient of
the least number by minus one wraps around to the least number, and leaves no remainder. -/
theorem fold_eq_machine (op : BinaryOp) (x y : Int) (hx : leastInt ≤ x ∧ x ≤ greatestInt)
    (hy : leastInt ≤ y ∧ y ≤ greatestInt) :
    (op.fold x y).constant?.map Int32.toInt = (op.onWords? (.ofInt 32 x) (.ofInt 32 y)).map BitVec.toInt ∧
      (op.fold x y = .undef ↔ op.divides = true ∧ y = 0) ∧
      (arithmetic .div).fold leastInt (-1) = .ofInt leastInt ∧ (arithmetic .rem).fold leastInt (-1) = .ofInt 0 := by
  refine ⟨?_, fold_eq_undef op x y, rfl, rfl⟩
  have hbits := constant?_fold op (.ofInt x) (.ofInt y)
  rw [toInt_ofInt_of_inRange hx, toInt_ofInt_of_inRange hy, Int32.toBitVec_ofInt, Int32.toBitVec_ofInt] at hbits
  rw [← hbits, Option.map_map]
  rfl

theorem ushr_minus_one :
    (leastInt ≤ -1 ∧ -1 ≤ greatestInt) ∧ ((shift .ushr).fold (-1) (-1)).constant?.map Int32.toInt = some 1 := by
  have hr : leastInt ≤ -1 ∧ -1 ≤ greatestInt := by decide
  exact ⟨hr, (fold_eq_machine (shift .ushr) (-1) (-1) hr hr).1⟩

end BinaryOp

end ConstantFlow
