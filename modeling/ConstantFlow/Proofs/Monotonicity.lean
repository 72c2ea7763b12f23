import ConstantFlow.Proofs.Evaluation

namespace ConstantFlow

open Value

namespace BinaryOp

variable {op : BinaryOp} {v v' w w' : Value}

/-- An unknown dividend over a divisor that goes from undefined to zero. -/
def Collapses (op : BinaryOp) (v w v' w' : Value) : Prop :=
  op.divides = true ∧ v = nac ∧ w = undef ∧ v' = nac ∧ w' = const 0

theorem combine_nac_left (op : BinaryOp) (w : Value) :
    op.combine nac w = nac ∨ op.combine nac w = undef ∧ op.divides = true ∧ w = const 0 := by
  cases w with
  | undef => exact .inl rfl
  | nac => exact .inl rfl
  | const y =>
    simp only [combine]
    split
    · next h => exact .inr ⟨rfl, h.1, congrArg const h.2⟩
    · exact .inl rfl

theorem combine_nac_right (op : BinaryOp) (v : Value) : op.combine v nac = nac := by cases v <;> rfl

theorem combine_undef_left (op : BinaryOp) (w : Value) :
    op.combine undef w = undef ∨ op.combine undef w = nac ∧ w = nac := by
  cases w with
  | nac => exact .inr ⟨rfl, rfl⟩
  | _ => exact .inl rfl

theorem combine_undef_right (op : BinaryOp) (v : Value) :
    op.combine v undef = undef ∨ op.combine v undef = nac ∧ v = nac := by
  cases v with
  | nac => exact .inr ⟨rfl, rfl⟩
  | _ => exact .inl rfl

theorem combine_zero (h : op.divides = true) (v : Value) : op.combine v (const 0) = undef := by
  cases v with
  | undef => rfl
  | nac => simp [combine, h]
  | const x =>
    cases op with
    | arithmetic a => simp [combine, fold, h]
    | _ => cases h

theorem combine_le (hv : v ≤ v') (hw : w ≤ w') (h : ¬ op.Collapses v w v' w') :
    op.combine v w ≤ op.combine v' w' := by
  rcases le_cases hw with rfl | rfl | rfl
  · rcases combine_undef_right op v with he | ⟨he, rfl⟩
    · exact he.le.trans (undef_le _)
    · obtain rfl := nac_le.1 hv
      rcases combine_nac_left op w' with he' | ⟨-, hd, rfl⟩
      · exact (le_nac _).trans he'.ge
      · -- unknown over undefined below, unknown over zero above
        exact absurd ⟨hd, rfl, rfl, rfl, rfl⟩ h
  · exact (le_nac _).trans (combine_nac_right op v').ge
  · rcases le_cases hv with rfl | rfl | rfl
    · rcases combine_undef_left op w with he | ⟨he, rfl⟩
      · exact he.le.trans (undef_le _)
      · exact (le_nac _).trans (combine_nac_right op v').ge
    · rcases combine_nac_left op w with he | ⟨-, hd, rfl⟩
      · exact (le_nac _).trans he.ge
      · exact (combine_zero hd v).le.trans (undef_le _)
    · exact le_rfl

/-- An operand that falls from unknown to undefined takes the result down the same way, or leaves it. -/
theorem combine_falls (hv : v ≤ v' ∨ v = nac ∧ v' = undef) (hw : w ≤ w' ∨ w = nac ∧ w' = undef) :
    op.combine v w ≤ op.combine v' w' ∨ op.combine v w = nac ∧ op.combine v' w' = undef := by
  rcases hw with hw | ⟨rfl, rfl⟩
  · rcases hv with hv | ⟨rfl, rfl⟩
    · by_cases hc : op.Collapses v w v' w'
      · obtain ⟨hd, rfl, rfl, rfl, rfl⟩ := hc
        exact .inr ⟨rfl, combine_zero hd nac⟩
      · exact .inl (combine_le hv hw hc)
    · rcases combine_nac_left op w with he | ⟨he, -⟩
      · rcases combine_undef_left op w' with he' | ⟨he', -⟩
        · exact .inr ⟨he, he'⟩
        · exact .inl ((le_nac _).trans he'.ge)
      · exact .inl (he.le.trans (undef_le _))
  · rcases combine_undef_right op v' with he' | ⟨he', -⟩
    · exact .inr ⟨combine_nac_right op v, he'⟩
    · exact .inl ((le_nac _).trans he'.ge)

end BinaryOp

namespace Exp

variable {lo hi : Fact} {e : Exp}

def Collapses (lo hi : Fact) : Exp → Prop
  | binary op a b =>
    op.Collapses (a.value lo) (b.value lo) (a.value hi) (b.value hi) ∨ a.Collapses lo hi ∨ b.Collapses lo hi
  | _ => False

theorem value_le_of_not_collapses (h : lo ≤ hi) (hc : ¬ e.Collapses lo hi) : e.value lo ≤ e.value hi := by
  induction e using induction_visited with
  | literal l => exact le_rfl
  | var x => exact h x
  | binary op a b iha ihb =>
    simp only [Collapses, not_or] at hc
    exact BinaryOp.combine_le (iha hc.2.1) (ihb hc.2.2) hc.1
  | unopened e he => rw [value_unopened he, value_unopened he]

theorem value_le_or_falls (h : lo ≤ hi) (e : Exp) :
    e.value lo ≤ e.value hi ∨ e.value lo = nac ∧ e.value hi = undef := by
  induction e using induction_visited with
  | literal l => exact .inl le_rfl
  | var x => exact .inl (h x)
  | binary op a b iha ihb => exact BinaryOp.combine_falls iha ihb
  | unopened e he => exact .inl (by rw [value_unopened he, value_unopened he])

def hasDivision : Exp → Bool
  | binary op a b => op.divides || a.hasDivision || b.hasDivision
  | _ => false

theorem not_collapses_of_not_hasDivision (h : e.hasDivision = false) : ¬ e.Collapses lo hi := by
  induction e using induction_visited with
  | literal l => exact id
  | var x => exact id
  | binary op a b iha ihb =>
    simp only [hasDivision, Bool.or_eq_false_iff] at h
    rintro (hc | hc | hc)
    · exact absurd hc.1 (by simp [h.1.1])
    · exact iha h.1.2 hc
    · exact ihb h.2 hc
  | unopened e he =>
    cases e with
    | literal _ | var _ | binary _ _ _ => cases he
    | _ => exact id

end Exp

namespace Stmt

variable {s : Stmt} {lo hi : Fact}

theorem effect_le (h : lo ≤ hi)
    (hc : ∀ x e, s.tracked? = some (x, e) → e.value lo ≤ e.value hi) : s.effect lo ≤ s.effect hi := by
  cases hd : s.tracked? with
  | none => rwa [effect_untracked hd, effect_untracked hd]
  | some d =>
    obtain ⟨x, e⟩ := d
    rw [effect_tracked hd, effect_tracked hd]
    exact Fact.set_le_set h (hc x e hd) x

theorem effect_falls (h : lo ≤ hi) (hn : ¬ s.effect lo ≤ s.effect hi) :
    ∃ x e, s.tracked? = some (x, e) ∧ e.Collapses lo hi ∧ (s.effect lo).get x = nac ∧
      (s.effect hi).get x = undef ∧ ∀ y, y ≠ x → (s.effect lo).get y ≤ (s.effect hi).get y := by
  cases hd : s.tracked? with
  | none => exact absurd (effect_le h fun x e he ↦ by rw [hd] at he; cases he) hn
  | some d =>
    obtain ⟨x, e⟩ := d
    have hv : ¬ e.value lo ≤ e.value hi := by
      intro hv
      refine hn (effect_le h fun x' e' hd' ↦ ?_)
      cases hd.symm.trans hd'
      exact hv
    obtain ⟨hnac, hundef⟩ := (e.value_le_or_falls h).resolve_left hv
    refine ⟨x, e, rfl, ?_, ?_, ?_, ?_⟩
    · by_contra hc
      exact hv (Exp.value_le_of_not_collapses h hc)
    · rw [get_effect_tracked hd, if_pos rfl, hnac]
    · rw [get_effect_tracked hd, if_pos rfl, hundef]
    · intro y hy
      rw [get_effect_tracked hd, get_effect_tracked hd, if_neg hy.symm, if_neg hy.symm]
      exact h y

/-- A transfer of more knowledge leaves at least as much, unless the definition collapses; and where it
leaves less, the one variable to go down is the defined one, from unknown to undefined. -/
theorem transfer_leq_unless_collapses (hs : s.IsProper) (h : lo.leq hi = true) :
    ∃ outLo outHi changedLo changedHi,
      s.transfer lo .empty = .ok (outLo, changedLo) ∧ s.transfer hi .empty = .ok (outHi, changedHi) ∧
      ((∀ x e, s.tracked? = some (x, e) → ¬ e.Collapses lo hi) → outLo.leq outHi = true) ∧
      (outLo.leq outHi = false ↔ ∃ x e, s.tracked? = some (x, e) ∧ e.Collapses lo hi ∧
        outLo.get x = nac ∧ outHi.get x = undef ∧ ∀ y, y ≠ x → outLo.get y ≤ outHi.get y) := by
  rw [Fact.leq_iff] at h
  obtain ⟨outLo, changedLo, hLo, heLo⟩ := transfer_empty hs lo
  obtain ⟨outHi, changedHi, hHi, heHi⟩ := transfer_empty hs hi
  have hleq : outLo.leq outHi = true ↔ s.effect lo ≤ s.effect hi := by
    rw [Fact.leq_iff, Fact.le_def, Fact.le_def, heLo, heHi]
  refine ⟨outLo, outHi, changedLo, changedHi, hLo, hHi, ?_, ?_, ?_⟩
  · intro hc
    exact hleq.2 (effect_le h fun x e hd ↦ Exp.value_le_of_not_collapses h (hc x e hd))
  · intro hn
    rw [heLo, heHi]
    refine effect_falls h fun he ↦ ?_
    rw [hleq.2 he] at hn
    cases hn
  · intro ⟨x, e, _, _, hnac, hundef, _⟩
    rw [← Bool.not_eq_true, Fact.leq_iff]
    intro hle
    have hx := Fact.get_le hle x
    rw [hnac, hundef] at hx
    cases nac_le.1 hx

def division : Stmt :=
  .assign (.var (.int "q")) (.binary (.arithmetic .div) (.var (.int "n")) (.var (.int "d")))

theorem division_isProper : division.IsProper := by decide

theorem division_leq_of_known_divisor :
    division.IsProper ∧ (Fact.ofList [(.int "n", .nac)]).leq (.ofList [(.int "n", .nac), (.int "d", .const 2)]) = true ∧
      ∃ outLo outHi changedLo changedHi,
        division.transfer (.ofList [(.int "n", .nac)]) .empty = .ok (outLo, changedLo) ∧
        division.transfer (.ofList [(.int "n", .nac), (.int "d", .const 2)]) .empty = .ok (outHi, changedHi) ∧
        outLo.leq outHi = true := by
  obtain ⟨outLo, outHi, changedLo, changedHi, hLo, hHi, hle, -⟩ :=
    transfer_leq_unless_collapses division_isProper
      (show (Fact.ofList [(.int "n", .nac)]).leq (.ofList [(.int "n", .nac), (.int "d", .const 2)]) = true by decide)
  refine ⟨division_isProper, by decide, outLo, outHi, changedLo, changedHi, hLo, hHi, hle ?_⟩
  rintro x e ⟨⟩ (⟨-, -, -, -, h⟩ | h | h)
  · exact absurd h (by decide)
  · exact h
  · exact h

/-- Not every transfer is monotone: a divisor that turns out to be zero takes the quotient down. -/
theorem not_transfer_monotone :
    ¬ ∀ (s : Stmt) (lo hi outLo outHi : Fact) (changedLo changedHi : Bool), s.IsProper → lo.leq hi = true →
      s.transfer lo .empty = .ok (outLo, changedLo) → s.transfer hi .empty = .ok (outHi, changedHi) →
      outLo.leq outHi = true := by
  intro h
  have hle := h division (.ofList [(.int "n", .nac)]) (.ofList [(.int "n", .nac), (.int "d", .const 0)]) _ _ _ _
    division_isProper (by decide) rfl rfl
  revert hle
  decide

end Stmt

end ConstantFlow
