import ConstantFlow.Transfer

namespace ConstantFlow

/-- A command may give one name two roles; it reads what it needs before it writes. -/
inductive Command
  | update (slot : String) (x : Var) (v : Value)
  | raise (slot : String) (x : Var) (v : Value)
  | copy (source slot : String)
  | copyFrom (slot source : String)
  | meet (source slot : String)
  | transfer (s : Stmt) (source slot : String)

inductive CommandError
  | missing (slot : String)
  | nonMonotone (e : NonMonotone)
  | value (e : ValueError)

structure Pool where
  slots : Table String Fact

namespace Pool

def empty : Pool := ⟨.empty⟩

def put (p : Pool) (slot : String) (f : Fact) : Pool := ⟨p.slots.insert slot f⟩

def get (p : Pool) (slot : String) : Except CommandError Fact :=
  match p.slots.get? slot with
  | some f => .ok f
  | none => .error (.missing slot)

def result (p : Pool) (checked : Bool) : Command → Except CommandError (Fact × Option Bool)
  | .update slot x v => do
    let (f, changed) := (← p.get slot).update x v
    return (f, some changed)
  | .raise slot x v => do
    let (f, changed) ← ((← p.get slot).raise x v).mapError .nonMonotone
    return (f, some changed)
  | .copy source _ => return (← p.get source, none)
  | .copyFrom slot source => do
    let (f, changed) := (← p.get slot).copyFrom (← p.get source)
    return (f, some changed)
  | .meet source slot => do
    let f ← ((← p.get source).meetInto checked (← p.get slot)).mapError .nonMonotone
    return (f, none)
  | .transfer s source slot => do
    let (f, changed) ← (s.transfer (← p.get source) (← p.get slot)).mapError .value
    return (f, some changed)

end Pool

def Command.slot : Command → String
  | update slot _ _ => slot
  | raise slot _ _ => slot
  | copy _ slot => slot
  | copyFrom slot _ => slot
  | meet _ slot => slot
  | transfer _ _ slot => slot

/-- Runs a command; one that fails leaves every fact as it was. -/
def Pool.run (p : Pool) (checked : Bool) (c : Command) : Pool :=
  match p.result checked c with
  | .ok (f, _) => p.put c.slot f
  | .error _ => p

namespace Pool

variable {p : Pool} {checked : Bool} {c : Command} {slot other : String} {f : Fact} {changed : Option Bool}

theorem get_put (p : Pool) (slot other : String) (f : Fact) :
    (p.put slot f).get other = if slot = other then .ok f else p.get other := by
  unfold get put
  rw [Table.get?_insert]
  by_cases h : slot = other
  · rw [if_pos h, if_pos h]
  · rw [if_neg h, if_neg h]

theorem put_of_get (h : p.get slot = .ok f) : p.put slot f = p := by
  have hs : p.slots.get? slot = some f := by
    unfold get at h
    split at h
    · next he =>
      cases h
      exact he
    · cases h
  rw [put, Table.insert_of_get? hs]

theorem put_put (p : Pool) (slot : String) (f g : Fact) : (p.put slot f).put slot g = p.put slot g := by
  simp only [put, Table.insert_insert]

theorem run_of_result (h : p.result checked c = .ok (f, changed)) : p.run checked c = p.put c.slot f := by
  rw [run, h]

theorem run_of_result_error {e : CommandError} (h : p.result checked c = .error e) : p.run checked c = p := by
  rw [run, h]

theorem get_run_of_result (h : p.result checked c = .ok (f, changed)) : (p.run checked c).get c.slot = .ok f := by
  rw [run_of_result h, get_put, if_pos rfl]

theorem get_run_of_ne (p : Pool) (checked : Bool) (c : Command) (h : c.slot ≠ other) :
    (p.run checked c).get other = p.get other := by
  cases hr : p.result checked c with
  | ok r => rw [run_of_result hr, get_put, if_neg h]
  | error e => rw [run_of_result_error hr]

section

variable {source : String} {t : Fact} {x : Var} {v : Value}

theorem result_update (hf : p.get slot = .ok f) (checked : Bool) (x : Var) (v : Value) :
    p.result checked (.update slot x v) = .ok (f.set x v, some (f.get x ≠ v)) := by
  rw [result, hf]
  simp only [bind, Except.bind, Fact.update_eq]
  rfl

theorem result_raise (hf : p.get slot = .ok f) (checked : Bool) (h : f.get x ≤ v) :
    p.result checked (.raise slot x v) = .ok (f.set x v, some (f.get x ≠ v)) := by
  rw [result, hf]
  simp only [bind, Except.bind, Fact.raise, if_pos h, Fact.update_eq]
  rfl

theorem result_raise_error (hf : p.get slot = .ok f) (checked : Bool) (h : ¬ f.get x ≤ v) :
    p.result checked (.raise slot x v) = .error (.nonMonotone ⟨x, f.get x, v⟩) := by
  rw [result, hf]
  simp only [bind, Except.bind, Fact.raise, if_neg h]
  rfl

theorem result_copy (hf : p.get source = .ok f) (checked : Bool) (slot : String) :
    p.result checked (.copy source slot) = .ok (f, none) := by
  rw [result, hf]
  rfl

theorem result_copyFrom (ht : p.get slot = .ok t) (hf : p.get source = .ok f) (checked : Bool) :
    p.result checked (.copyFrom slot source) = .ok ((t.copyFrom f).1, some (t.copyFrom f).2) := by
  rw [result, ht, hf]
  rfl

theorem result_transfer_error {s : Stmt} {e : ValueError} (hf : p.get source = .ok f) (ht : p.get slot = .ok t)
    (hs : s.refusal? = some e) (checked : Bool) :
    p.result checked (.transfer s source slot) = .error (.value e) := by
  rw [result, hf, ht]
  simp only [bind, Except.bind, Stmt.transfer, hs]
  rfl

end

end Pool

end ConstantFlow
