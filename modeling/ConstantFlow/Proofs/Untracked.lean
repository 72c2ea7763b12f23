import ConstantFlow.Proofs.Monotonicity
import ConstantFlow.Proofs.Soundness

namespace ConstantFlow

open Value

variable {f : Fact} {σ : Store}

/-- What an expression may come to in a run: a number in a register, or something of a type that is not
tracked. -/
inductive Outcome
  | number (n : Int32)
  | other

/-- A value leaves room for an outcome. Only an unknown value does so for what no register holds. -/
def Outcome.Under (v : Value) : Outcome → Prop
  | number n => const n ≤ v
  | other => v = nac

theorem Outcome.under_nac (t : Outcome) : t.Under nac := by
  cases t with
  | number n => exact le_nac _
  | other => rfl

namespace BinaryOp

variable {op : BinaryOp} {v w : Value} {r s t : Outcome}

/-- What an operator may make of two operands, of which `s` is the right one, if they are not both registers.
Arithmetic leaves the registers, unless it divides by zero. -/
def Mixes (s t : Outcome) : BinaryOp → Prop
  | condition _ => t = .number 0 ∨ t = .number 1
  | comparison _ => t = .number (-1) ∨ t = .number 0 ∨ t = .number 1
  | op => t = .other ∧ ¬ (op.divides = true ∧ s = .number 0)

theorem Mixes.ne_zero (h : op.Mixes s t) (hd : op.divides = true) : s ≠ .number 0 := by
  cases op with
  | arithmetic a => exact fun hs ↦ h.2 ⟨hd, hs⟩
  | _ => cases hd

theorem combine_of_mixes (hv : r.Under v) (hw : s.Under w) (hrs : r = .other ∨ s = .other)
    (h : op.Mixes s t) : op.combine v w = nac := by
  rcases hrs with rfl | rfl
  · obtain rfl : v = nac := hv
    rcases combine_nac_left op w with he | ⟨-, hd, rfl⟩
    · exact he
    · -- a divisor that is known to be zero is zero in the run
      cases s with
      | number y => exact absurd (congrArg Outcome.number (eq_of_const_le hw).symm) (h.ne_zero hd).symm
      | other => cases hw
  · obtain rfl : w = nac := hw
    exact combine_nac_right op v

theorem combine_undef_left_of_ne (op : BinaryOp) (h : w ≠ nac) : op.combine undef w = undef :=
  (combine_undef_left op w).resolve_right fun hn ↦ h hn.2

theorem combine_undef_right_of_ne (op : BinaryOp) (h : v ≠ nac) : op.combine v undef = undef :=
  (combine_undef_right op v).resolve_right fun hn ↦ h hn.2

end BinaryOp

namespace Exp

variable {e : Exp} {r : Outcome} {c : Int32}

/-- What an expression may come to, where the store holds the tracked variables. An untracked variable has
some value of its type, and a shape that is not looked into may come to anything. -/
inductive Evaluates (σ : Store) : Exp → Outcome → Prop
  | literal (c : Int32) : Evaluates σ (.literal (.int c)) (.number c)
  | tracked {x : Var} {n : Int32} : x.isTracked = true → σ x = some n → Evaluates σ (.var x) (.number n)
  | untracked {x : Var} : x.isTracked = false → Evaluates σ (.var x) .other
  | registers {op : BinaryOp} {a b : Exp} {x y z : Int32} :
      Evaluates σ a (.number x) → Evaluates σ b (.number y) → op.Yields x y z →
      Evaluates σ (.binary op a b) (.number z)
  | mixed {op : BinaryOp} {a b : Exp} {r s t : Outcome} :
      Evaluates σ a r → Evaluates σ b s → r = .other ∨ s = .other → op.Mixes s t →
      Evaluates σ (.binary op a b) t
  | unopened {e : Exp} (t : Outcome) : e.isOpaque = true → Evaluates σ e t

def readsUntracked : Exp → Bool
  | var x => !x.isTracked
  | binary _ a b => a.readsUntracked || b.readsUntracked
  | _ => false

/-- Whether evaluation takes an untracked variable for one that was never written, and the result with it:
an operand that is lost takes the other along, unless that is unknown. -/
def losesValue (f : Fact) : Exp → Bool
  | var x => !x.isTracked
  | binary _ a b => (a.losesValue f && b.value f ≠ nac) || (b.losesValue f && a.value f ≠ nac)
  | _ => false

theorem losesValue_unopened (h : e.isOpaque = true) (f : Fact) : e.losesValue f = false := by
  cases e with
  | literal _ | var _ | binary _ _ _ => cases h
  | _ => rfl

theorem losesValue_eq_false (h : e.readsUntracked = false) : e.losesValue f = false := by
  induction e using induction_visited with
  | literal l => rfl
  | var x => exact h
  | binary op a b iha ihb =>
    simp only [readsUntracked, Bool.or_eq_false_iff] at h
    simp [losesValue, iha h.1, ihb h.2]
  | unopened e he => exact losesValue_unopened he f

theorem Evaluates.improper?_eq_none (h : e.Evaluates σ r) : e.improper? = none := by
  induction h with
  | literal c => rfl
  | tracked _ _ => rfl
  | untracked _ => rfl
  | registers _ _ _ iha ihb => rw [improper?, iha, ihb, Option.or_none]
  | mixed _ _ _ _ iha ihb => rw [improper?, iha, ihb, Option.or_none]
  | @unopened e t he =>
    cases e with
    | literal _ | var _ | binary _ _ _ => cases he
    | _ => rfl

def Accounts (f : Fact) (e : Exp) (r : Outcome) : Prop :=
  e.losesValue f = true ∧ e.value f = undef ∨ e.losesValue f = false ∧ r.Under (e.value f)

theorem accounts_binary {op : BinaryOp} {a b : Exp} {r s t : Outcome} (ha : a.Accounts f r) (hb : b.Accounts f s)
    (h : r.Under (a.value f) → s.Under (b.value f) → t.Under (op.combine (a.value f) (b.value f))) :
    (binary op a b).Accounts f t := by
  unfold Accounts
  rw [losesValue, value]
  rcases ha with ⟨hla, hva⟩ | ⟨hla, hva⟩
  · -- the left value is lost, and the result with it unless the right operand is unknown
    by_cases hn : b.value f = nac
    · have hlb : b.losesValue f = false := by
        rcases hb with ⟨-, hvb⟩ | ⟨hlb, -⟩
        · rw [hn] at hvb
          cases hvb
        · exact hlb
      rw [hn, BinaryOp.combine_nac_right]
      exact .inr ⟨by simp [hlb], t.under_nac⟩
    · rw [hva, BinaryOp.combine_undef_left_of_ne op hn]
      exact .inl ⟨by simp [hla, hn], rfl⟩
  · rcases hb with ⟨hlb, hvb⟩ | ⟨hlb, hvb⟩
    · by_cases hn : a.value f = nac
      · have he : op.combine nac undef = nac := rfl
        rw [hn, hvb, he]
        exact .inr ⟨by simp [hla], t.under_nac⟩
      · rw [hvb, BinaryOp.combine_undef_right_of_ne op hn]
        exact .inl ⟨by simp [hlb, hn], rfl⟩
    · exact .inr ⟨by simp [hla, hlb], h hva hvb⟩

theorem Evaluates.accounts (h : e.Evaluates σ r) (hk : ∀ x ∈ f.keys, x.isTracked = true) (hf : f.Covers σ) :
    e.Accounts f r := by
  induction h with
  | literal c => exact .inr ⟨rfl, le_rfl⟩
  | tracked ht hx => exact .inr ⟨by simp [losesValue, ht], hf _ _ hx⟩
  | @untracked x ht =>
    have hx : x ∉ f.keys := fun hm ↦ by simp [hk x hm] at ht
    exact .inl ⟨by simp [losesValue, ht], Fact.get_eq_undef hx⟩
  | registers _ _ hop iha ihb => exact accounts_binary iha ihb fun ha hb ↦ BinaryOp.combine_of_yields ha hb hop
  | @mixed op a b r s t _ _ hrs hop iha ihb =>
    refine accounts_binary iha ihb fun ha hb ↦ ?_
    rw [BinaryOp.combine_of_mixes ha hb hrs hop]
    exact t.under_nac
  | unopened t he =>
    refine .inr ⟨losesValue_unopened he f, ?_⟩
    rw [value_unopened he]
    exact t.under_nac

/-- Evaluation leaves room for the number that an expression comes to exactly if it does not lose the value.
A lost value is undefined, never a wrong number, and only an untracked variable can lose it. -/
theorem evaluate_covers_iff (hk : ∀ x ∈ f.keys, x.isTracked = true) (hf : f.Covers σ)
    (h : e.Evaluates σ (.number c)) :
    ∃ v, e.evaluate f = .ok v ∧ (.const c ≤ v ↔ e.losesValue f = false) ∧
      (e.losesValue f = true → v = undef) ∧ (e.readsUntracked = false → .const c ≤ v) := by
  refine ⟨e.value f, by rw [evaluate, h.improper?_eq_none], ?_⟩
  rcases h.accounts hk hf with ⟨hl, hv⟩ | ⟨hl, hv⟩
  · refine ⟨?_, fun _ ↦ hv, fun hr ↦ ?_⟩
    · rw [hv, hl]
      simp
    · rw [losesValue_eq_false hr] at hl
      cases hl
  · have hle : .const c ≤ e.value f := hv
    refine ⟨⟨fun _ ↦ hl, fun _ ↦ hle⟩, fun ht ↦ ?_, fun _ ↦ hle⟩
    rw [hl] at ht
    cases ht

end Exp

def Var.long (name : String) : Var := ⟨name, .primitive .long⟩

namespace Exp

/-- `l cmp (long) n < i`, where nothing is known of `n`: an unknown operand keeps the value. -/
def comparedWithCast : Exp :=
  .binary (.condition .lt)
    (.binary (.comparison .cmp) (.var (.long "l")) (.cast (.primitive .long) (.var (.int "n")))) (.var (.int "i"))

theorem comparedWithCast_covers :
    comparedWithCast.readsUntracked = true ∧
      comparedWithCast.Evaluates (fun x ↦ if x = .int "i" then some 3 else none) (.number 1) ∧
      ∃ v, comparedWithCast.evaluate (.ofList [(.int "i", .const 3)]) = .ok v ∧ .const 1 ≤ v := by
  have hk : ∀ x ∈ (Fact.ofList [(.int "i", .const 3)]).keys, x.isTracked = true := by decide
  have hf : (Fact.ofList [(.int "i", .const 3)]).Covers fun x ↦ if x = .int "i" then some 3 else none := by
    intro x n hx
    obtain ⟨rfl, hn⟩ := Option.ite_none_right_eq_some.1 hx
    cases hn
    decide
  have hless : BinaryOp.Yields (-1) 3 1 (.condition .lt) := rfl
  have h : comparedWithCast.Evaluates (fun x ↦ if x = .int "i" then some 3 else none) (.number 1) :=
    .registers (.mixed (.untracked rfl) (.unopened .other rfl) (.inl rfl) (.inl rfl))
      (.tracked rfl (if_pos rfl)) hless
  obtain ⟨v, hv, hiff, -, -⟩ := evaluate_covers_iff hk hf h
  exact ⟨rfl, h, v, hv, hiff.2 (by decide)⟩

theorem not_evaluate_covers :
    ¬ ∀ (f : Fact) (σ : Store) (e : Exp) (c : Int32), (∀ x ∈ f.keys, x.isTracked = true) → f.Covers σ →
      e.Evaluates σ (.number c) → ∃ v, e.evaluate f = .ok v ∧ .const c ≤ v := by
  intro hall
  have heval : Exp.Evaluates (fun _ ↦ none)
      (.binary (.comparison .cmp) (.var (.long "a")) (.var (.long "b"))) (.number 0) :=
    .mixed (.untracked rfl) (.untracked rfl) (.inl rfl) (.inr (.inl rfl))
  obtain ⟨v, hv, hle⟩ := hall .empty (fun _ ↦ none) _ 0 (fun _ h ↦ nomatch h) (fun _ _ h ↦ nomatch h) heval
  cases hv
  cases le_undef.1 hle

end Exp

end ConstantFlow
