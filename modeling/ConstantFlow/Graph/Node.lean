namespace ConstantFlow

inductive Node (n : Nat)
  | entry
  | exit
  | stmt (k : Fin n)
  deriving DecidableEq

variable {n : Nat} {α : Type}

def Node.all (n : Nat) : List (Node n) := .entry :: .exit :: (List.finRange n).map .stmt

theorem Node.mem_all (v : Node n) : v ∈ Node.all n := by cases v <;> simp [Node.all]

structure NodeMap (n : Nat) (α : Type) where
  entry : α
  exit : α
  stmts : Vector α n

namespace NodeMap

def const (a : α) : NodeMap n α := ⟨a, a, .replicate n a⟩

def get (m : NodeMap n α) : Node n → α
  | .entry => m.entry
  | .exit => m.exit
  | .stmt k => m.stmts[k]

def set (m : NodeMap n α) (v : Node n) (a : α) : NodeMap n α :=
  match v with
  | .entry => { m with entry := a }
  | .exit => { m with exit := a }
  | .stmt k => { m with stmts := m.stmts.set k a }

theorem get_const (a : α) (v : Node n) : (const a : NodeMap n α).get v = a := by
  cases v <;> simp [const, get]

theorem get_set (m : NodeMap n α) (v w : Node n) (a : α) :
    (m.set v a).get w = if v = w then a else m.get w := by
  cases v <;> cases w <;> simp [get, set, Vector.getElem_set, Fin.ext_iff]

end NodeMap

end ConstantFlow
