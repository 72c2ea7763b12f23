import ConstantFlow.Value
import Mathlib.Order.Basic
import Mathlib.Order.Lattice

namespace ConstantFlow.Value

variable {a b c : Value}

instance : PartialOrder Value where
  le_refl _ := .inr (.inr rfl)
  le_trans a b c hab hbc := by
    rcases hab with rfl | rfl | rfl
    · exact .inl rfl
    · rcases hbc with h | rfl | rfl
      · cases h
      · exact .inr (.inl rfl)
      · exact .inr (.inl rfl)
    · exact hbc
  le_antisymm a b hab hba := by
    rcases hab with rfl | rfl | rfl
    · rcases hba with rfl | h | rfl
      · rfl
      · cases h
      · rfl
    · rcases hba with h | rfl | h
      · cases h
      · rfl
      · exact h.symm
    · rfl

theorem undef_le (a : Value) : undef ≤ a := .inl rfl

theorem le_nac (a : Value) : a ≤ nac := .inr (.inl rfl)

@[simp] theorem le_undef : a ≤ undef ↔ a = undef :=
  ⟨fun h ↦ le_antisymm h (undef_le a), fun h ↦ h.le⟩

@[simp] theorem nac_le : nac ≤ a ↔ a = nac :=
  ⟨fun h ↦ le_antisymm (le_nac a) h, fun h ↦ h.ge⟩

theorem const_le {n : Int32} : const n ≤ a ↔ a = nac ∨ a = const n := by
  constructor
  · rintro (h | h | h)
    · cases h
    · exact .inl h
    · exact .inr h.symm
  · rintro (rfl | rfl)
    · exact le_nac _
    · exact le_rfl

theorem eq_of_const_le {m n : Int32} (h : const n ≤ const m) : n = m := by
  obtain hn | hn := const_le.1 h
  · cases hn
  · exact (const.inj hn).symm

theorem eq_const_of_constant? {v : Value} {n : Int32} (h : v.constant? = some n) : v = const n := by
  cases v with
  | const m => exact congrArg const (Option.some.inj h)
  | _ => cases h

theorem le_cases (h : a ≤ b) : a = undef ∨ b = nac ∨ a = b := h

theorem le_meet_left (a b : Value) : a ≤ a.meet b := by
  cases a with
  | undef => exact undef_le _
  | nac => exact le_rfl
  | const m =>
    cases b with
    | undef => exact le_rfl
    | nac => exact le_nac _
    | const n =>
      simp only [meet]
      split
      · exact le_rfl
      · exact le_nac _

theorem le_meet_right (a b : Value) : b ≤ a.meet b := by
  cases a with
  | undef => exact le_rfl
  | nac => exact le_nac _
  | const m =>
    cases b with
    | undef => exact undef_le _
    | nac => exact le_rfl
    | const n =>
      simp only [meet]
      split
      · next h => exact h ▸ le_rfl
      · exact le_nac _

theorem meet_le (ha : a ≤ c) (hb : b ≤ c) : a.meet b ≤ c := by
  rcases ha with rfl | rfl | rfl
  · exact hb
  · exact le_nac _
  · rcases hb with rfl | rfl | rfl
    · cases a <;> exact le_rfl
    · exact le_nac _
    · cases b <;> simp [meet]

instance : SemilatticeSup Value where
  sup := meet
  le_sup_left := le_meet_left
  le_sup_right := le_meet_right
  sup_le _ _ _ := meet_le

/-- What a row of values has in common. -/
def meets (l : List Value) : Value := l.foldr meet undef

theorem le_meets {l : List Value} (h : a ∈ l) : a ≤ meets l := by
  induction l with
  | nil => cases h
  | cons b l ih =>
    rcases List.mem_cons.1 h with rfl | h
    · exact le_meet_left _ _
    · exact (ih h).trans (le_meet_right _ _)

theorem meets_le {l : List Value} (h : ∀ a ∈ l, a ≤ c) : meets l ≤ c := by
  induction l with
  | nil => exact undef_le c
  | cons b l ih =>
    exact meet_le (h b List.mem_cons_self) (ih fun a ha ↦ h a (List.mem_cons_of_mem b ha))

end ConstantFlow.Value
