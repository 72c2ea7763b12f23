import ConstantFlow.Program.Statement

namespace ConstantFlow

/-- A line of a listing: a statement of its own, or the very statement at an earlier position. -/
inductive Line
  | own (s : Stmt)
  | again (position : Nat)

theorem eraseDups_concat {α : Type} [DecidableEq α] (l : List α) (a : α) :
    (l ++ [a]).eraseDups = if a ∈ l then l.eraseDups else l.eraseDups ++ [a] := by
  have hr : [a].removeAll l = if a ∈ l then [] else [a] := by
    by_cases h : a ∈ l <;> simp [List.removeAll, h]
  rw [List.eraseDups_append, hr]
  split <;> simp [List.eraseDups_cons]

/-- A statement is one thing even where it stands at several positions, so a body is a row of distinct statements,
numbered as they first come, and a code of such numbers. -/
structure Method where
  name : String
  params : List Var
  size : Nat
  stmts : Vector Stmt size
  code : List (Fin size)
  numbered : (code.map Fin.val).eraseDups = List.range size

namespace Method

def empty (name : String) (params : List Var) : Method := ⟨name, params, 0, #v[], [], rfl⟩

theorem mem_code (m : Method) (k : Fin m.size) : k ∈ m.code := by
  have h : k.val ∈ (m.code.map Fin.val).eraseDups := by simp [m.numbered]
  rw [List.mem_eraseDups, List.mem_map] at h
  obtain ⟨j, hj, he⟩ := h
  exact Fin.ext he ▸ hj

def push (m : Method) (s : Stmt) : Method where
  name := m.name
  params := m.params
  size := m.size + 1
  stmts := m.stmts.push s
  code := m.code.map Fin.castSucc ++ [Fin.last m.size]
  numbered := by
    have h : m.size ∉ m.code.map Fin.val := by
      rw [List.mem_map]
      rintro ⟨k, -, hk⟩
      exact absurd k.isLt (by omega)
    have he : (m.code.map Fin.castSucc).map Fin.val = m.code.map Fin.val := by
      rw [List.map_map]
      exact List.map_congr_left fun _ _ ↦ rfl
    rw [List.map_append, he, List.map_singleton, Fin.val_last, eraseDups_concat, if_neg h, m.numbered,
      List.range_succ]

def repeatStmt (m : Method) (k : Fin m.size) : Method where
  name := m.name
  params := m.params
  size := m.size
  stmts := m.stmts
  code := m.code ++ [k]
  numbered := by
    rw [List.map_append, List.map_singleton, eraseDups_concat,
      if_pos (List.mem_map_of_mem (m.mem_code k)), m.numbered]

def extend (m : Method) : List Line → Option Method
  | [] => some m
  | .own s :: rest => (m.push s).extend rest
  | .again i :: rest =>
    match m.code[i]? with
    | some k => (m.repeatStmt k).extend rest
    | none => none

def ofLines (name : String) (params : List Var) (lines : List Line) : Option Method :=
  (empty name params).extend lines

def stmt (m : Method) (k : Fin m.size) : Stmt := m.stmts[k]

def listing (m : Method) : List Stmt := m.code.map m.stmt

/-- The number of the statement at a position, if the position is there. -/
def at? (m : Method) (position : Int) : Option (Fin m.size) :=
  if position < 0 then none else m.code[position.toNat]?

def lastPosition (m : Method) (number : Nat) : Int :=
  match (m.code.map Fin.val).reverse.idxOf? number with
  | some i => m.code.length - 1 - i
  | none => -1

def vars (m : Method) : List Var := (m.params ++ m.listing.flatMap Stmt.vars).eraseDups

/-- The variables of a method in which every base is one. Another base has no place in the list. -/
def vars? (m : Method) : Option (List Var) :=
  if m.listing.all Stmt.hasVarBases then some m.vars else none

end Method

end ConstantFlow
