import ConstantFlow.Proofs.Facts
import ConstantFlow.Transfer

namespace ConstantFlow

def Var.int (name : String) : Var := ⟨name, .primitive .int⟩

namespace Exp

variable {f g : Fact}

/-- Whether evaluation stops at an expression without looking at it. -/
def isOpaque : Exp → Bool
  | literal _ => false
  | var _ => false
  | binary _ _ _ => false
  | _ => true

@[elab_as_elim]
theorem induction_visited {motive : Exp → Prop} (literal : ∀ l, motive (.literal l)) (var : ∀ x, motive (.var x))
    (binary : ∀ op a b, motive a → motive b → motive (.binary op a b))
    (unopened : ∀ e, e.isOpaque = true → motive e) : ∀ e, motive e
  | .literal l => literal l
  | .var x => var x
  | .binary op a b =>
    binary op a b (induction_visited literal var binary unopened a) (induction_visited literal var binary unopened b)
  | .neg _ => unopened _ rfl
  | .cast _ _ => unopened _ rfl
  | .staticField _ => unopened _ rfl
  | .field _ _ => unopened _ rfl
  | .element _ _ => unopened _ rfl
  | .call _ _ => unopened _ rfl
  | .new _ => unopened _ rfl

theorem value_unopened {e : Exp} (h : e.isOpaque = true) (f : Fact) : e.value f = .nac := by
  cases e with
  | literal _ | var _ | binary _ _ _ => cases h
  | _ => rfl

theorem value_congr (h : f.get = g.get) (e : Exp) : e.value f = e.value g := by
  induction e using induction_visited with
  | literal l => rfl
  | var x => exact congrFun h x
  | binary op a b iha ihb => rw [value, value, iha, ihb]
  | unopened e he => rw [value_unopened he, value_unopened he]

end Exp

namespace Stmt

variable {s : Stmt} {f g : Fact} {x y : Var} {e : Exp}

theorem tracked?_eq_some : s.tracked? = some (x, e) ↔ s.definition? = some (.var x, e) ∧ x.isTracked = true := by
  constructor
  · intro h
    unfold tracked? at h
    split at h
    · next y e' hd =>
      split at h
      · next hy =>
        cases h
        exact ⟨hd, hy⟩
      · cases h
    · cases h
  · intro ⟨hd, hx⟩
    rw [tracked?, hd]
    exact if_pos hx

/-- A tracked definition is evaluated from whole numbers only. -/
def IsProper (s : Stmt) : Prop := ∀ x e, s.tracked? = some (x, e) → e.improper? = none

theorem refusal?_eq_none : s.refusal? = none ↔ s.IsProper := by
  unfold refusal? IsProper
  cases h : s.tracked? with
  | none => simp
  | some d =>
    obtain ⟨x, e⟩ := d
    simp [Option.map_eq_none_iff]

instance : Decidable s.IsProper := decidable_of_iff (s.refusal?.isNone = true) <| by
  rw [Option.isNone_iff_eq_none, refusal?_eq_none]

theorem forall_tracked_of_all {P : Exp → Bool} (h : (s.tracked?.all fun d ↦ P d.2) = true) :
    ∀ x e, s.tracked? = some (x, e) → P e = true := by
  intro x e hd
  rwa [hd] at h

theorem transfer_eq (hs : s.IsProper) (f g : Fact) : s.transfer f g = .ok (g.copyFrom (s.effect f)) := by
  rw [transfer, refusal?_eq_none.2 hs]

theorem effect_tracked (h : s.tracked? = some (x, e)) (f : Fact) : s.effect f = f.set x (e.value f) := by
  rw [effect, h]

theorem effect_untracked (h : s.tracked? = none) (f : Fact) : s.effect f = f := by
  rw [effect, h]

theorem get_effect_tracked (h : s.tracked? = some (x, e)) (f : Fact) (y : Var) :
    (s.effect f).get y = if x = y then e.value f else f.get y := by
  rw [effect_tracked h, Fact.get_set]

theorem get_effect_of_untouched (h : ∀ e, s.tracked? ≠ some (x, e)) (f : Fact) : (s.effect f).get x = f.get x := by
  cases hd : s.tracked? with
  | none => rw [effect_untracked hd]
  | some d =>
    obtain ⟨y, e⟩ := d
    have hne : y ≠ x := by
      rintro rfl
      exact h e hd
    rw [get_effect_tracked hd, if_neg hne]

theorem mem_keys_effect_of_untouched (h : ∀ e, s.tracked? ≠ some (x, e)) (f : Fact) :
    x ∈ (s.effect f).keys ↔ x ∈ f.keys := by
  cases hd : s.tracked? with
  | none => rw [effect_untracked hd]
  | some d =>
    obtain ⟨y, e⟩ := d
    have hne : x ≠ y := by
      rintro rfl
      exact h e hd
    rw [effect_tracked hd, Fact.mem_keys_set, or_iff_right hne]

theorem get_effect_congr (h : f.get = g.get) (s : Stmt) : (s.effect f).get = (s.effect g).get := by
  cases hd : s.tracked? with
  | none => rw [effect_untracked hd, effect_untracked hd, h]
  | some d =>
    obtain ⟨x, e⟩ := d
    funext y
    rw [get_effect_tracked hd, get_effect_tracked hd, e.value_congr h, h]

theorem keys_effect_mono (s : Stmt) (h : ∀ x ∈ f.keys, x ∈ g.keys) :
    ∀ x ∈ (s.effect f).keys, x ∈ (s.effect g).keys := by
  intro y hy
  cases hd : s.tracked? with
  | none =>
    rw [effect_untracked hd] at hy ⊢
    exact h y hy
  | some d =>
    rw [effect_tracked hd, Fact.mem_keys_set] at hy ⊢
    exact hy.imp id (h y)

theorem transfer_empty (hs : s.IsProper) (f : Fact) :
    ∃ out changed, s.transfer f .empty = .ok (out, changed) ∧ out.get = (s.effect f).get :=
  ⟨_, _, transfer_eq hs f .empty, Fact.get_copyFrom_of_keys fun _ h ↦ nomatch h⟩

end Stmt

end ConstantFlow
