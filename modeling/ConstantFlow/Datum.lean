import ConstantFlow.Binary64.Shortest
import ConstantFlow.Text.Quoted

namespace ConstantFlow

inductive Datum
  | null
  | truth (b : Bool)
  | int (n : Int)
  | real (x : Binary64)
  | text (s : String)
  | list (items : List Datum)
  | record (fields : List (String × Datum))

namespace Datum

mutual

def describe : Datum → String
  | null => "None"
  | truth b => if b then "True" else "False"
  | int n => toString n
  | real x => x.text
  | text s => Text.quoted s
  | list items => "[" ++ ", ".intercalate (describeItems items) ++ "]"
  | record fields => "\x7b" ++ ", ".intercalate (describeFields fields) ++ "\x7d"

def describeItems : List Datum → List String
  | [] => []
  | d :: rest => d.describe :: describeItems rest

def describeFields : List (String × Datum) → List String
  | [] => []
  | (k, d) :: rest => (Text.quoted k ++ ": " ++ d.describe) :: describeFields rest

end

/-- A text as it is, any other datum as in a message. -/
def plain : Datum → String
  | text s => s
  | d => d.describe

def isTrue : Datum → Bool
  | null => false
  | truth b => b
  | int n => n ≠ 0
  | real x => !x.isZero
  | text s => s ≠ ""
  | list items => !items.isEmpty
  | record fields => !fields.isEmpty

end Datum

end ConstantFlow
