import ConstantFlow.Graph.Control
import ConstantFlow.Proofs.Evaluation

namespace ConstantFlow

namespace Exp

mutual

def operators : Exp → List BinaryOp
  | binary op a b => a.operators ++ op :: b.operators
  | neg e => e.operators
  | cast _ e => e.operators
  | field b _ => b.operators
  | element b i => b.operators ++ i.operators
  | call _ args => argOperators args
  | _ => []

def argOperators : List Exp → List BinaryOp
  | [] => []
  | e :: rest => e.operators ++ argOperators rest

end

mutual

/-- An expression has a text exactly if each of its operators has a symbol. -/
theorem isSome_text? : ∀ e : Exp, e.text?.isSome = true ↔ ∀ op ∈ e.operators, op.symbol?.isSome = true
  | literal l => by simp [text?, operators]
  | var x => by simp [text?, operators]
  | binary op a b => by
    simp only [operators, List.mem_append, List.mem_cons, or_imp, forall_and, forall_eq, ← isSome_text? a,
      ← isSome_text? b]
    rw [text?]
    cases a.text? <;> cases op.symbol? <;> cases b.text? <;> simp
  | neg e => by
    rw [operators, ← isSome_text? e, text?]
    cases e.text? <;> simp
  | cast t e => by
    rw [operators, ← isSome_text? e, text?]
    cases e.text? <;> simp
  | staticField f => by simp [text?, operators]
  | field b f => by
    rw [operators, ← isSome_text? b, text?]
    cases b.text? <;> simp
  | element b i => by
    simp only [operators, List.mem_append, or_imp, forall_and, ← isSome_text? b, ← isSome_text? i]
    rw [text?]
    cases b.text? <;> cases i.text? <;> simp
  | call m args => by
    rw [operators, ← isSome_argTexts? args, text?]
    cases argTexts? args <;> simp
  | new t => by simp [text?, operators]

theorem isSome_argTexts? : ∀ args : List Exp,
    (argTexts? args).isSome = true ↔ ∀ op ∈ argOperators args, op.symbol?.isSome = true
  | [] => by simp [argTexts?, argOperators]
  | e :: rest => by
    simp only [argOperators, List.mem_append, or_imp, forall_and, ← isSome_text? e, ← isSome_argTexts? rest]
    rw [argTexts?]
    cases e.text? <;> cases argTexts? rest <;> simp

end

end Exp

namespace Stmt

def operators (s : Stmt) : List BinaryOp := s.exps.flatMap Exp.operators

theorem isSome_text? (s : Stmt) : s.text?.isSome = true ↔ ∀ op ∈ s.operators, op.symbol?.isSome = true := by
  have htwo (a b : Option String) : (a.any fun _ ↦ b.isSome) = true ↔ a.isSome = true ∧ b.isSome = true := by
    cases a <;> simp
  have hexps : s.text?.isSome = true ↔ ∀ e ∈ s.exps, e.text?.isSome = true := by
    unfold text?
    split <;> simp [exps, Option.isSome_bind, htwo]
  rw [hexps]
  simp only [Exp.isSome_text?, operators, List.mem_flatMap]
  exact ⟨fun h op ⟨e, he, hop⟩ ↦ h e he op hop, fun h e he op hop ↦ h op ⟨e, he, hop⟩⟩

end Stmt

theorem DanglingJump.isSome_message? (e : DanglingJump) :
    e.message?.isSome = true ↔ ∀ op ∈ e.origin.operators, op.symbol?.isSome = true := by
  rw [message?, Option.isSome_map, Stmt.isSome_text?]

namespace Method

variable (m : Method)

def endOperators : Endpoint m.size → List BinaryOp
  | .node v => (m.stmtAt v).operators
  | .foreign s => s.operators

theorem isSome_endText? (a : Endpoint m.size) :
    (m.endText? a).isSome = true ↔ ∀ op ∈ m.endOperators a, op.symbol?.isSome = true := by
  cases a with
  | node v => exact Stmt.isSome_text? _
  | foreign s => exact Stmt.isSome_text? _

theorem isSome_outsideText? (e : OutsideEdge m.size) : (m.outsideText? e).isSome = true ↔
    ∀ op ∈ m.endOperators e.source ++ m.endOperators e.target, op.symbol?.isSome = true := by
  simp only [List.mem_append, or_imp, forall_and, ← isSome_endText?]
  rw [outsideText?]
  cases m.endText? e.source <;> cases m.endText? e.target <;> simp

end Method

end ConstantFlow
