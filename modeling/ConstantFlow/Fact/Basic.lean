import ConstantFlow.Program.Expression
import ConstantFlow.Table
import ConstantFlow.Value

namespace ConstantFlow

/-- A variable that was never written reads as undefined, so an entry of that value says no more than none. -/
structure Fact where
  bindings : Table Var Value

structure NonMonotone where
  target : Var
  old : Value
  new : Value

def NonMonotone.message (e : NonMonotone) : String :=
  "non-monotone update of " ++ e.target.name ++ ": " ++ e.old.describe ++ " -> " ++ e.new.describe

namespace Fact

def empty : Fact := ⟨.empty⟩

def ofList (l : List (Var × Value)) : Fact := ⟨.ofList l⟩

def entries (f : Fact) : List (Var × Value) := f.bindings.entries

def keys (f : Fact) : List Var := f.bindings.keys

def size (f : Fact) : Nat := f.bindings.size

def contains (f : Fact) (x : Var) : Bool := x ∈ f.keys

def get (f : Fact) (x : Var) : Value := (f.bindings.get? x).getD .undef

def set (f : Fact) (x : Var) (v : Value) : Fact := ⟨f.bindings.insert x v⟩

/-- Writes a value, and says whether that makes a change. A new entry that says nothing makes none. -/
def update (f : Fact) (x : Var) (v : Value) : Fact × Bool :=
  let old := f.bindings.get? x
  (f.set x v, old ≠ some v && !(old.isNone && v = .undef))

def raise (f : Fact) (x : Var) (v : Value) : Except NonMonotone (Fact × Bool) :=
  if f.get x ≤ v then .ok (f.update x v) else .error ⟨x, f.get x, v⟩

/-- Writes every binding of `g` over `f`, and says whether some variable reads differently now. -/
def copyFrom (f g : Fact) : Fact × Bool :=
  g.entries.foldl (fun (acc : Fact × Bool) e ↦
    let (f', changed) := acc.1.update e.1 e.2
    (f', acc.2 || changed)) (f, false)

/-- Writes into `target`, for each variable of `f`, what both agree on; `checked` watches that no value
moves down. -/
def meetInto (f : Fact) (checked : Bool) (target : Fact) : Except NonMonotone Fact :=
  f.entries.foldlM (fun t e ↦
    let v := e.2.meet (t.get e.1)
    if checked then (t.raise e.1 v).map Prod.fst else .ok (t.set e.1 v)) target

def leq (f g : Fact) : Bool := f.entries.all fun e ↦ e.2 ≤ g.get e.1

def agrees (f g : Fact) : Bool := (f.keys ++ g.keys).all fun x ↦ f.get x = g.get x

/-- The constants by name. Of two variables with one name the later one counts. -/
def constants (f : Fact) : List (String × Int32) :=
  (Table.ofList (f.entries.filterMap fun e ↦ e.2.constant?.map fun c ↦ (e.1.name, c))).entries

def describe (f : Fact) : String :=
  let sorted := f.entries.mergeSort fun a b ↦ a.1.name ≤ b.1.name
  "\x7b" ++ ", ".intercalate (sorted.map fun e ↦ e.1.name ++ "=" ++ e.2.describe) ++ "\x7d"

theorem get_set (f : Fact) (x y : Var) (v : Value) :
    (f.set x v).get y = if x = y then v else f.get y := by
  simp only [get, set, Table.get?_insert]
  split <;> rfl

theorem update_eq (f : Fact) (x : Var) (v : Value) : f.update x v = (f.set x v, decide (f.get x ≠ v)) := by
  rw [update, get]
  cases f.bindings.get? x with
  | none => simp [eq_comm]
  | some w => simp

theorem keys_set (f : Fact) (x : Var) (v : Value) :
    (f.set x v).keys = if x ∈ f.keys then f.keys else f.keys ++ [x] := Table.keys_insert ..

end Fact

end ConstantFlow
