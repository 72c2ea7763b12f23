import ConstantFlow.Datum

namespace ConstantFlow

inductive Strategy
  | fifo
  | rpo
  deriving DecidableEq

namespace Strategy

def all : List Strategy := [fifo, rpo]

def name : Strategy → String
  | fifo => "fifo"
  | rpo => "rpo"

/-- The strategy with a name in any letter case. Only ASCII letters have these as their small letters. -/
def ofName? (s : String) : Option Strategy := all.find? fun t ↦ t.name == s.toLower

def label : Strategy → String
  | fifo => "WorklistStrategy.FIFO"
  | rpo => "WorklistStrategy.RPO"

def describe (s : Strategy) : String := "<" ++ s.label ++ ": " ++ Text.quoted s.name ++ ">"

end Strategy

inductive Setting
  | datum (d : Datum)
  | strategy (s : Strategy)

namespace Setting

def describe : Setting → String
  | datum d => d.describe
  | strategy s => s.describe

def plain : Setting → String
  | datum d => d.plain
  | strategy s => s.label

def isTrue : Setting → Bool
  | datum d => d.isTrue
  | strategy _ => true

end Setting

/-- A bound on the number of iterations. The truth value true is taken for one. -/
inductive Bound
  | count (n : Nat) (pos : 0 < n)
  | truth
  deriving DecidableEq

namespace Bound

def steps : Bound → Nat
  | count n _ => n
  | truth => 1

def datum : Bound → Datum
  | count n _ => .int n
  | truth => .truth true

def ofSetting? : Setting → Option Bound
  | .datum (.int n) => if h : 0 < n.toNat then some (count n.toNat h) else none
  | .datum (.truth true) => some truth
  | _ => none

end Bound

structure Config where
  analysisId : Setting
  maxIterations : Bound
  strategy : Strategy
  checkInvariants : Setting

inductive ConfigError
  | unknownOptions (names : List String)
  | badBound (s : Setting)
  | badStrategy (s : Setting)

def ConfigError.message : ConfigError → String
  | unknownOptions names => "unknown analysis option(s): " ++ ", ".intercalate names
  | badBound s => "max_iterations must be a positive integer, got " ++ s.describe
  | badStrategy s => "invalid worklist strategy " ++ s.describe

inductive RevisionError
  | noSuchOption
  | unfit (e : ConfigError)

namespace Config

def default : Config where
  analysisId := .datum (.text "constprop")
  maxIterations := .count 1000000 (by decide)
  strategy := .rpo
  checkInvariants := .datum (.truth true)

def optionNames : List String := ["analysis_id", "max_iterations", "strategy", "check_invariants"]

def unknownNames (settings : List (String × Setting)) : List String :=
  ((settings.map Prod.fst).filter fun k ↦ !optionNames.contains k).mergeSort fun a b ↦ a ≤ b

def boundFrom (old : Bound) : Option Setting → Except ConfigError Bound
  | none => .ok old
  | some s =>
    match Bound.ofSetting? s with
    | some b => .ok b
    | none => .error (.badBound s)

def strategyFrom (old : Strategy) : Option Setting → Except ConfigError Strategy
  | none => .ok old
  | some (.strategy s) => .ok s
  | some s => .error (.badStrategy s)

/-- The options with some of them set anew; the bound is looked at before the strategy. -/
def assign (c : Config) (settings : List (String × Setting)) : Except ConfigError Config := do
  let bound ← boundFrom c.maxIterations (settings.lookup "max_iterations")
  let strategy ← strategyFrom c.strategy (settings.lookup "strategy")
  return {
    analysisId := (settings.lookup "analysis_id").getD c.analysisId
    maxIterations := bound
    strategy := strategy
    checkInvariants := (settings.lookup "check_invariants").getD c.checkInvariants }

def revise (c : Config) (settings : List (String × Setting)) : Except RevisionError Config :=
  if unknownNames settings = [] then (c.assign settings).mapError .unfit else .error .noSuchOption

def resolveStrategy : String × Setting → Except ConfigError (String × Setting)
  | ("strategy", .datum (.text s)) =>
    match Strategy.ofName? s with
    | some t => .ok ("strategy", .strategy t)
    | none => .error (.badStrategy (.datum (.text s)))
  | entry => .ok entry

/-- Options from a mapping. Unknown names are refused first, and all of them; then a name of no strategy. -/
def ofSettings (settings : List (String × Setting)) : Except ConfigError Config := do
  if unknownNames settings ≠ [] then throw (.unknownOptions (unknownNames settings))
  default.assign (← settings.mapM resolveStrategy)

def describe (c : Config) : String :=
  "AnalysisConfig(analysis_id=" ++ c.analysisId.describe ++
    ", max_iterations=" ++ c.maxIterations.datum.describe ++
    ", strategy=" ++ c.strategy.describe ++
    ", check_invariants=" ++ c.checkInvariants.describe ++ ")"

end Config

end ConstantFlow
