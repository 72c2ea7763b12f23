import ConstantFlow.Proofs.Checks

namespace ConstantFlow

namespace Literal

variable {d : Datum} {l : Literal}

theorem ofDatum_eq_ok : ofDatum d = .ok l ↔ l.datum = d := by
  constructor
  · intro h
    unfold ofDatum at h
    split at h
    · next n =>
      split at h
      · next hn =>
        cases h
        exact congrArg Datum.int (toInt_ofInt_of_inRange hn)
      · cases h
    · cases h
      rfl
    · split at h <;> cases h
      rfl
    · cases h
  · rintro rfl
    cases l with
    | int c =>
      have hc : leastInt ≤ c.toInt ∧ c.toInt ≤ greatestInt := wrap_toInt c ▸ wrap_inRange c.toInt
      rw [datum, ofDatum, if_pos hc, Int32.ofInt_toInt]
    | truth b => rfl
    | real x hx => exact dif_pos hx

theorem constOfDatum_eq_ok {v : Value} (h : Value.constOfDatum d = .ok v) : ∃ c, datum (int c) = d := by
  unfold Value.constOfDatum at h
  split at h
  · next n =>
    split at h
    · next hn => exact ⟨.ofInt n, congrArg Datum.int (toInt_ofInt_of_inRange hn)⟩
    · cases h
  · cases h

theorem exists_constOfDatum_iff :
    (∃ v, Value.constOfDatum d = .ok v) ↔ ∃ l, ofDatum d = .ok l ∧ l.isProper = true := by
  simp only [ofDatum_eq_ok]
  constructor
  · intro ⟨v, h⟩
    obtain ⟨c, hc⟩ := constOfDatum_eq_ok h
    exact ⟨int c, hc, rfl⟩
  · rintro ⟨l, rfl, hl⟩
    exact ⟨l.value, by rw [constOfDatum_datum, if_pos hl]⟩

theorem not_isProper_iff :
    l.isProper = false ↔ (∃ b, l.datum = .truth b) ∨ ∃ x, l.datum = .real x ∧ x.isInRange = true := by
  cases l with
  | int c => simp [isProper, datum]
  | truth b => simp [isProper, datum]
  | real x hx => simpa [isProper, datum] using hx

theorem refused_as_constant_iff :
    ((∃ l, ofDatum d = .ok l) ∧ ¬ ∃ v, Value.constOfDatum d = .ok v) ↔
      (∃ b, d = .truth b) ∨ ∃ x, d = .real x ∧ x.isInRange = true := by
  constructor
  · intro ⟨⟨l, hl⟩, hnot⟩
    have hproper : l.isProper = false :=
      Bool.eq_false_iff.2 fun h ↦ hnot (exists_constOfDatum_iff.2 ⟨l, hl, h⟩)
    exact ofDatum_eq_ok.1 hl ▸ not_isProper_iff.1 hproper
  · rintro (⟨b, rfl⟩ | ⟨x, rfl, hx⟩)
    · exact ⟨⟨truth b, rfl⟩, nofun⟩
    · exact ⟨⟨real x hx, dif_pos hx⟩, nofun⟩

end Literal

namespace Exp

variable {e : Exp} {f : Fact}

/-- The literals that evaluation comes to, from left to right. -/
def literalsRead : Exp → List Literal
  | literal l => [l]
  | binary _ a b => a.literalsRead ++ b.literalsRead
  | _ => []

theorem improper?_eq_find? (e : Exp) : e.improper? = e.literalsRead.find? fun l ↦ !l.isProper := by
  induction e using induction_visited with
  | literal l =>
    rw [improper?, literalsRead, List.find?_singleton]
    cases l.isProper <;> rfl
  | var x => rfl
  | binary op a b iha ihb => rw [improper?, literalsRead, List.find?_append, iha, ihb]
  | unopened e he =>
    cases e with
    | literal _ | var _ | binary _ _ _ => cases he
    | _ => rfl

theorem evaluate_eq_error {err : ValueError} :
    e.evaluate f = .error err ↔ ∃ l, e.improper? = some l ∧ err = .notAnInteger l.datum := by
  unfold evaluate
  cases e.improper? with
  | none => simp
  | some l => simp [eq_comm]

theorem exists_evaluate_iff : (∃ v, e.evaluate f = .ok v) ↔ e.improper? = none := by
  unfold evaluate
  cases e.improper? <;> simp

/-- An evaluation returns just when every literal it reads is a whole number. Otherwise the first that is none stops
it, and no other step can: neither the check of the operands nor an operator on numbers of any size. A literal can be
made from more than a constant can, namely from truth values and from fractions in the range of a register. -/
theorem evaluate_stops_iff (e : Exp) (f : Fact) :
    ((∃ v, e.evaluate f = .ok v) ↔ ∀ l ∈ e.literalsRead, l.isProper = true) ∧
    (∀ err, e.evaluate f = .error err ↔
      ∃ before l after, e.literalsRead = before ++ l :: after ∧ (∀ k ∈ before, k.isProper = true) ∧
        l.isProper = false ∧ err = .notAnInteger l.datum) ∧
    e.evaluateChecked f = (e.evaluate f).mapError .value ∧
    (∀ op x y, BinaryOp.fold? op x y = .ok (op.fold x y)) ∧
    (∀ d, (∃ v, Value.constOfDatum d = .ok v) ↔ ∃ l, Literal.ofDatum d = .ok l ∧ l.isProper = true) ∧
    ∀ d, ((∃ l, Literal.ofDatum d = .ok l) ∧ ¬ ∃ v, Value.constOfDatum d = .ok v) ↔
      (∃ b, d = .truth b) ∨ ∃ x, d = .real x ∧ x.isInRange = true := by
  refine ⟨?_, fun err ↦ ?_, evaluateChecked_eq e f, BinaryOp.fold?_eq, fun d ↦ Literal.exists_constOfDatum_iff,
    fun d ↦ Literal.refused_as_constant_iff⟩
  · rw [exists_evaluate_iff, improper?_eq_find?, List.find?_eq_none]
    simp
  · simp only [evaluate_eq_error, improper?_eq_find?, List.find?_eq_some_iff_append]
    constructor
    · rintro ⟨l, ⟨hl, before, after, heq, hbefore⟩, herr⟩
      exact ⟨before, l, after, heq, by simpa using hbefore, by simpa using hl, herr⟩
    · rintro ⟨before, l, after, heq, hbefore, hl, herr⟩
      exact ⟨l, ⟨by simpa using hl, before, after, heq, by simpa using hbefore⟩, herr⟩

theorem not_evaluate_total :
    (¬ ∀ e f, ∃ v, evaluate e f = .ok v) ∧
      ¬ ∀ d l, Literal.ofDatum d = .ok l → ∃ v, Value.constOfDatum d = .ok v := by
  constructor
  · intro h
    obtain ⟨v, hv⟩ := h (.literal (.truth true)) .empty
    cases hv
  · intro h
    obtain ⟨v, hv⟩ := h (.truth true) (.truth true) rfl
    cases hv

end Exp

end ConstantFlow
