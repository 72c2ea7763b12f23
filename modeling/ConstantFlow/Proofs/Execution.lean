import ConstantFlow.Graph.Control
import ConstantFlow.Proofs.Evaluation
import ConstantFlow.Proofs.Registers
import Mathlib.Logic.Relation

namespace ConstantFlow

abbrev Store := Var → Option Int32

variable {σ σ' : Store}

/-- The numbers that an expression may have. A shape that is not looked into may have any. -/
inductive Exp.Yields (σ : Store) : Exp → Int32 → Prop
  | literal (c : Int32) : Yields σ (.literal (.int c)) c
  | var {x : Var} {n : Int32} : σ x = some n → Yields σ (.var x) n
  | binary {op : BinaryOp} {a b : Exp} {x y z : Int32} :
      Yields σ a x → Yields σ b y → op.Yields x y z → Yields σ (.binary op a b) z
  | unopened {e : Exp} (n : Int32) : e.isOpaque = true → Yields σ e n

namespace Stmt

def Writes (s : Stmt) (σ σ' : Store) : Prop :=
  match s.tracked? with
  | some (x, e) => ∃ n, e.Yields σ n ∧ σ' = Function.update σ x (some n)
  | none => σ' = σ

def target? : Stmt → Option Int
  | goto target => some target
  | branch _ target => some target
  | _ => none

end Stmt

/-- A moment of a run: the position that is next, and the store. Past the last position the run is over. -/
structure Moment where
  position : Nat
  store : Store

namespace Method

variable {m : Method} {i : Nat} {k : Fin m.size}

/-- The positions that may come next. A branch may go either way. -/
def Goes (m : Method) (i : Nat) (s : Stmt) (j : Nat) : Prop :=
  match s with
  | .goto target => target = j
  | .branch _ target => target = j ∨ j = i + 1
  | .ret _ => j = m.code.length
  | _ => j = i + 1

/-- A run gets stuck where an expression has no value. -/
inductive Step (m : Method) : Moment → Moment → Prop
  | step {i j : Nat} {k : Fin m.size} {σ σ' : Store} : m.code[i]? = some k → (m.stmt k).Writes σ σ' →
      m.Goes i (m.stmt k) j → Step m ⟨i, σ⟩ ⟨j, σ'⟩

/-- A store with any numbers for the tracked parameters, and for nothing else. -/
def Enters (m : Method) (σ : Store) : Prop := ∀ x, (σ x).isSome = true ↔ x ∈ m.params ∧ x.isTracked = true

def Reaches (m : Method) (σ : Store) : Moment → Prop := Relation.ReflTransGen m.Step ⟨0, σ⟩

def JumpsInRange (m : Method) : Prop := ∀ k, ∀ t ∈ (m.stmt k).target?, 0 ≤ t ∧ t < m.code.length

instance : Decidable m.JumpsInRange :=
  inferInstanceAs (Decidable (∀ k, ∀ t ∈ (m.stmt k).target?, 0 ≤ t ∧ t < (m.code.length : Int)))

def site (m : Method) (i : Nat) : Node m.size :=
  match m.code[i]? with
  | some k => .stmt k
  | none => .exit

theorem site_eq (h : m.code[i]? = some k) : m.site i = .stmt k := by
  rw [site, h]

theorem site_ne_entry (m : Method) (i : Nat) : m.site i ≠ .entry := by
  unfold site
  cases m.code[i]? <;> exact nofun

theorem site_length (m : Method) : m.site m.code.length = .exit := by
  rw [site, List.getElem?_eq_none le_rfl]

end Method

end ConstantFlow
