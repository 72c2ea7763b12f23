namespace ConstantFlow

inductive PrimitiveType
  | byte | short | int | char | boolean | long | float | double
  deriving DecidableEq

namespace PrimitiveType

def all : List PrimitiveType := [byte, short, int, char, boolean, long, float, double]

def name : PrimitiveType → String
  | byte => "byte"
  | short => "short"
  | int => "int"
  | char => "char"
  | boolean => "boolean"
  | long => "long"
  | float => "float"
  | double => "double"

def ofName? (s : String) : Option PrimitiveType := all.find? fun t ↦ t.name == s

def isIntLike : PrimitiveType → Bool
  | byte | short | int | char | boolean => true
  | long | float | double => false

end PrimitiveType

/-- A reference type is known by its name alone, which may be that of a primitive type. -/
inductive VarType
  | primitive (type : PrimitiveType)
  | reference (name : String)
  deriving DecidableEq

namespace VarType

def name : VarType → String
  | primitive t => t.name
  | reference s => s

def isIntLike : VarType → Bool
  | primitive t => t.isIntLike
  | reference _ => false

end VarType

structure Var where
  name : String
  type : VarType
  deriving DecidableEq

def Var.isTracked (x : Var) : Bool := x.type.isIntLike

end ConstantFlow
