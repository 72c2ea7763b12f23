import ConstantFlow.Evaluation
import ConstantFlow.Program.Statement

namespace ConstantFlow.Stmt

def effect (s : Stmt) (f : Fact) : Fact :=
  match s.tracked? with
  | some (x, e) => f.set x (e.value f)
  | none => f

def refusal? (s : Stmt) : Option ValueError :=
  match s.tracked? with
  | some (_, e) => e.improper?.map fun l ↦ .notAnInteger l.datum
  | none => none

/-- Writes the effect on `input` over `output`, and says whether some variable reads differently there. -/
def transfer (s : Stmt) (input output : Fact) : Except ValueError (Fact × Bool) :=
  match s.refusal? with
  | some e => .error e
  | none => .ok (output.copyFrom (s.effect input))

def warnings (s : Stmt) (f : Fact) : List Warning :=
  match s.tracked? with
  | some (_, e) => e.warnings f
  | none => []

end ConstantFlow.Stmt
