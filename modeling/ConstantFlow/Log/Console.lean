namespace ConstantFlow

inductive Level
  | debug
  | info
  | warning
  | error
  | critical
  deriving DecidableEq

namespace Level

def all : List Level := [debug, info, warning, error, critical]

def name : Level → String
  | debug => "DEBUG"
  | info => "INFO"
  | warning => "WARNING"
  | error => "ERROR"
  | critical => "CRITICAL"

def ofName? (s : String) : Option Level := all.find? fun l ↦ l.name == s

def rank : Level → Nat
  | debug => 10
  | info => 20
  | warning => 30
  | error => 40
  | critical => 50

/-- One asks for progress, more for every detail. -/
def ofVerbosity (v : Int) : Level := if v = 1 then info else if 2 ≤ v then debug else warning

end Level

structure Record where
  level : Level
  logger : String
  message : String

def topLogger : String := "constprop"

def Record.isWithin (r : Record) : Bool :=
  r.logger == topLogger || (topLogger.toList ++ ['.']).isPrefixOf r.logger.toList

def Record.line (r : Record) : String :=
  let level := (r.level.name.toList.take 5).rightpad 5 ' '
  " [" ++ String.ofList level ++ "] " ++ r.logger ++ ": " ++ r.message

structure Console where
  level : Level
  handlers : Nat

namespace Console

/-- Sets the level, and adds a handler beside those that are there. -/
def configure (handlers : Nat) (verbosity : Int) : Console := ⟨.ofVerbosity verbosity, handlers + 1⟩

def lines (c : Console) (records : List Record) : List String :=
  (records.filter fun r ↦ r.isWithin && c.level.rank ≤ r.level.rank).flatMap fun r ↦
    List.replicate c.handlers r.line

end Console

end ConstantFlow
