import ConstantFlow.Proofs.Words
import Mathlib.Data.Int.Bitwise
import Mathlib.Data.Int.ModEq

namespace ConstantFlow

variable {n k : Int}

/-- A number becomes the one number in the range of a register that differs from it by a multiple of `2 ^ 32`. -/
theorem wrap_eq_iff : wrap n = k ↔ (leastInt ≤ k ∧ k ≤ greatestInt) ∧ k ≡ n [ZMOD 2 ^ 32] := by
  have hsize : 0 < Int32.size := by decide
  rw [wrap_eq_bmod, Int.bmod_eq_iff hsize, Int.modEq_comm, Int.modEq_iff_dvd]
  simp only [Int32.size, leastInt, greatestInt]
  omega

theorem wrap_inRange (n : Int) : leastInt ≤ wrap n ∧ wrap n ≤ greatestInt := (wrap_eq_iff.1 rfl).1

theorem wrap_modEq (n : Int) : wrap n ≡ n [ZMOD 2 ^ 32] := (wrap_eq_iff.1 rfl).2

theorem wrap_congr (h : n ≡ k [ZMOD 2 ^ 32]) : wrap n = wrap k :=
  wrap_eq_iff.2 ⟨wrap_inRange k, (wrap_modEq k).trans h.symm⟩

theorem wrap_eq_self (h : leastInt ≤ n ∧ n ≤ greatestInt) : wrap n = n := wrap_eq_iff.2 ⟨h, Int.ModEq.rfl⟩

theorem lowBits_wrap (n : Int) : lowBits (wrap n) = lowBits n := by
  rw [lowBits_eq, lowBits_eq]
  exact congrArg Int.toNat (wrap_modEq n)

theorem shiftAmount_wrap (n : Int) : shiftAmount (wrap n) = shiftAmount n := by
  rw [shiftAmount_eq, shiftAmount_eq]
  exact congrArg Int.toNat ((wrap_modEq n).of_dvd (by decide))

theorem Value.ofInt_congr (h : n ≡ k [ZMOD 2 ^ 32]) : Value.ofInt n = Value.ofInt k := by
  rw [ofInt, ofInt, ← ofInt_wrap n, ← ofInt_wrap k, wrap_congr h]

namespace Value

theorem constOfDatum_wrap (n : Int) : constOfDatum (.int (wrap n)) = .ok (ofInt n) := by
  rw [constOfDatum, if_pos (wrap_inRange n), ofInt, ofInt_wrap, ofInt]

theorem constOfDatum_toInt (c : Int32) : constOfDatum (.int c.toInt) = .ok (const c) := by
  rw [← wrap_toInt, constOfDatum_wrap, ofInt, Int32.ofInt_toInt]

end Value

def BitwiseOp.onIntegers : BitwiseOp → Int → Int → Int
  | or, x, y => x.lor y
  | and, x, y => x.land y
  | xor, x, y => x.xor y

theorem getLsbD_ofInt {w i : Nat} (h : i < w) (x : Int) : (BitVec.ofInt w x).getLsbD i = x.testBit i := by
  cases x with
  | ofNat n =>
    rw [Int.ofNat_eq_natCast, BitVec.ofInt_natCast, BitVec.getLsbD_ofNat, decide_eq_true h, Bool.true_and]
    rfl
  | negSucc n =>
    rw [BitVec.ofInt_negSucc_eq_not_ofNat, BitVec.getLsbD_not, BitVec.getLsbD_ofNat, decide_eq_true h,
      Bool.true_and, Bool.true_and]
    rfl

theorem BitwiseOp.ofInt_onIntegers (op : BitwiseOp) (x y : Int) :
    Int32.ofInt (op.onIntegers x y) = op.run (.ofInt x) (.ofInt y) := by
  apply Int32.toBitVec_inj.1
  apply BitVec.eq_of_getLsbD_eq
  intro i hi
  rw [Int32.toBitVec_ofInt, getLsbD_ofInt hi]
  cases op with
  | or =>
    simp only [onIntegers, run, Int.testBit_lor, Int32.toBitVec_or, BitVec.getLsbD_or, Int32.toBitVec_ofInt,
      getLsbD_ofInt hi]
  | and =>
    simp only [onIntegers, run, Int.testBit_land, Int32.toBitVec_and, BitVec.getLsbD_and, Int32.toBitVec_ofInt,
      getLsbD_ofInt hi]
  | xor =>
    simp only [onIntegers, run, Int.testBit_lxor, Int32.toBitVec_xor, BitVec.getLsbD_xor, Int32.toBitVec_ofInt,
      getLsbD_ofInt hi]

theorem BitwiseOp.ofInt_apply_lowBits (op : BitwiseOp) (x y : Int) :
    Int32.ofInt (op.apply (lowBits x) (lowBits y)) = Int32.ofInt (op.onIntegers x y) := by
  have h := op.ofInt_apply (.ofInt x) (.ofInt y)
  rw [toInt_ofInt, toInt_ofInt, lowBits_wrap, lowBits_wrap] at h
  rw [h, ofInt_onIntegers]

inductive FoldError
  | arithmetic (e : ArithmeticError)
  | value (e : ValueError)

def ArithmeticOp.onIntegers? : ArithmeticOp → Int → Int → Except ArithmeticError Int
  | add, x, y => .ok (x + y)
  | sub, x, y => .ok (x - y)
  | mul, x, y => .ok (x * y)
  | div, x, y => quotient? x y
  | rem, x, y => remainder? x y

def ShiftOp.onIntegers? : ShiftOp → Int → Int → Except ArithmeticError Int
  | shl, x, amount => if amount < 0 then .error .negativeShift else .ok (x <<< amount.toNat)
  | shr, x, amount => if amount < 0 then .error .negativeShift else .ok (x >>> amount.toNat)
  | ushr, x, amount => logicalShift? x amount

def Value.register (n : Int) : Except FoldError Value := (constOfDatum (.int (wrap n))).mapError .value

theorem Value.register_eq (n : Int) : register n = .ok (ofInt n) := by
  rw [register, constOfDatum_wrap]
  rfl

theorem ArithmeticOp.onIntegers?_eq {op : ArithmeticOp} {x y : Int}
    (h : ¬ ((BinaryOp.arithmetic op).divides = true ∧ y = 0)) : op.onIntegers? x y = .ok (op.apply x y) := by
  cases op with
  | div => exact if_neg fun hy ↦ h ⟨rfl, hy⟩
  | rem => exact if_neg fun hy ↦ h ⟨rfl, hy⟩
  | _ => rfl

theorem ShiftOp.onIntegers?_natCast (op : ShiftOp) (x : Int) (amount : Nat) :
    op.onIntegers? x amount = .ok (op.apply x amount) := by
  have h : ¬ (amount : Int) < 0 := by omega
  cases op with
  | ushr => rw [onIntegers?, logicalShift?, if_neg h, apply, Int.toNat_natCast]
  | _ => rw [onIntegers?, if_neg h, apply, Int.toNat_natCast]

namespace BinaryOp

/-- An operator on two numbers, with every step that may fail. -/
def fold? (op : BinaryOp) (x y : Int) : Except FoldError Value :=
  match op with
  | arithmetic a =>
    if op.divides ∧ y = 0 then .ok .undef
    else do Value.register (← (a.onIntegers? x y).mapError .arithmetic)
  | bitwise b => Value.register (b.onIntegers x y)
  | shift s => do Value.register (← (s.onIntegers? x (shiftAmount y)).mapError .arithmetic)
  | condition c => (Value.constOfDatum (.int (if c.holds x y then 1 else 0))).mapError .value
  | comparison _ => .ok .nac
  | unknown _ => .ok .nac

theorem fold?_eq (op : BinaryOp) (x y : Int) : op.fold? x y = .ok (op.fold x y) := by
  unfold fold? fold
  cases op with
  | arithmetic a =>
    dsimp only
    split
    · rfl
    · next h =>
      rw [ArithmeticOp.onIntegers?_eq h]
      exact Value.register_eq _
  | bitwise b =>
    dsimp only
    rw [Value.register_eq, Value.ofInt, Value.ofInt, BitwiseOp.ofInt_apply_lowBits]
  | shift s =>
    dsimp only
    rw [ShiftOp.onIntegers?_natCast]
    exact Value.register_eq _
  | condition c =>
    dsimp only
    split <;> rfl
  | comparison _ => rfl
  | unknown _ => rfl

theorem divides_iff {op : BinaryOp} : op.divides = true ↔ op = arithmetic .div ∨ op = arithmetic .rem := by
  constructor
  · intro h
    cases op with
    | arithmetic a =>
      cases a with
      | div => exact .inl rfl
      | rem => exact .inr rfl
      | _ => cases h
    | _ => cases h
  · rintro (rfl | rfl) <;> rfl

theorem fold_eq_nac {op : BinaryOp} {x y : Int} :
    op.fold x y = .nac ↔ (∃ c, op = comparison c) ∨ ∃ symbol, op = unknown symbol := by
  constructor
  · intro h
    cases op with
    | arithmetic a =>
      rw [fold] at h
      split at h <;> cases h
    | comparison c => exact .inl ⟨c, rfl⟩
    | unknown symbol => exact .inr ⟨symbol, rfl⟩
    | _ => cases h
  · rintro (⟨c, rfl⟩ | ⟨symbol, rfl⟩) <;> rfl

def readsLowBits : BinaryOp → Bool
  | arithmetic .add | arithmetic .sub | arithmetic .mul => true
  | bitwise _ => true
  | shift .shl | shift .ushr => true
  | comparison _ | unknown _ => true
  | _ => false

theorem fold_wrap {op : BinaryOp} (h : op.readsLowBits = true) (x y : Int) :
    op.fold x y = op.fold (wrap x) (wrap y) := by
  have hx := (wrap_modEq x).symm
  have hy := (wrap_modEq y).symm
  cases op with
  | arithmetic a =>
    cases a with
    | add => exact Value.ofInt_congr (hx.add hy)
    | sub => exact Value.ofInt_congr (hx.sub hy)
    | mul => exact Value.ofInt_congr (hx.mul hy)
    | _ => cases h
  | bitwise b => rw [fold, fold, lowBits_wrap, lowBits_wrap]
  | shift s =>
    rw [fold, fold, shiftAmount_wrap]
    cases s with
    | shl =>
      rw [ShiftOp.apply, ShiftOp.apply, Int.shiftLeft_eq, Int.shiftLeft_eq]
      exact Value.ofInt_congr (hx.mul_right _)
    | ushr => rw [ShiftOp.apply, ShiftOp.apply, logicalShift, logicalShift, lowBits_wrap]
    | shr => cases h
  | condition c => cases h
  | comparison _ => rfl
  | unknown _ => rfl

theorem readsLowBits_of_fold_wrap {op : BinaryOp} (h : ∀ x y, op.fold x y = op.fold (wrap x) (wrap y)) :
    op.readsLowBits = true := by
  -- every other operator tells `2 ^ 32` from zero, as its left or as its right operand
  have hleft (y) := h 4294967296 y
  have hright := h 0 4294967296
  cases op with
  | arithmetic a =>
    cases a with
    | div => exact absurd (hleft 2) (by decide)
    | rem => exact absurd (hleft 3) (by decide)
    | _ => rfl
  | shift s =>
    cases s with
    | shr => exact absurd (hleft 1) (by decide)
    | _ => rfl
  | condition c =>
    cases c with
    | ge | lt => exact absurd hright (by decide)
    | _ => exact absurd (hleft 0) (by decide)
  | _ => rfl

/-- An operator has a result on any two numbers, since no step of it fails. Only a division by zero is undefined,
only an operator that is not modelled leaves the result open, and all else is a constant in the range of a
register. A register keeps of a number the one number in its range that is congruent to it; and the operators that
read the low bits are just those whose result on any two numbers is that on what a register keeps of them. -/
theorem fold_unbounded (op : BinaryOp) :
    (∀ x y, op.fold? x y = .ok (op.fold x y) ∧
      (op.fold x y = .undef ↔ (op = arithmetic .div ∨ op = arithmetic .rem) ∧ y = 0) ∧
      (op.fold x y = .nac ↔ (∃ c, op = comparison c) ∨ ∃ symbol, op = unknown symbol) ∧
      (op.fold x y = .undef ∨ op.fold x y = .nac ∨
        ∃ c : Int32, op.fold x y = .const c ∧ leastInt ≤ c.toInt ∧ c.toInt ≤ greatestInt)) ∧
    (∀ n k, (leastInt ≤ k ∧ k ≤ greatestInt) ∧ k ≡ n [ZMOD 2 ^ 32] ↔ k = wrap n) ∧
    ((∀ x y, op.fold x y = op.fold (wrap x) (wrap y)) ↔ op.readsLowBits = true) := by
  refine ⟨fun x y ↦ ⟨fold?_eq op x y, ?_, fold_eq_nac, ?_⟩, fun n k ↦ ?_, readsLowBits_of_fold_wrap, fold_wrap⟩
  · rw [fold_eq_undef, divides_iff]
  · cases op.fold x y with
    | undef => exact .inl rfl
    | nac => exact .inr (.inl rfl)
    | const c => exact .inr (.inr ⟨c, rfl, wrap_toInt c ▸ wrap_inRange c.toInt⟩)
  · rw [← wrap_eq_iff, eq_comm]

end BinaryOp

end ConstantFlow
