import TableClient.Condition.Syntax

/-!
# Faults of conditions

Why a condition cannot be compiled or joined to another one.
-/

namespace TableClient

/-- Why a condition is refused. -/
inductive ConditionError where
  /-- The text holds no word. -/
  | emptyCondition
  /-- Nothing is left of a term once parentheses and `NOT`s are taken away. -/
  | emptyTerm (term : String)
  /-- A function with too few or too many arguments. -/
  | argumentCount (function : Condition.BuiltIn) (found : Nat)
  /-- A term of no known shape. -/
  | unknownTerm (test : String)
  /-- A text that is no attribute path. -/
  | invalidPath (path : String)
  /-- A text that is no value placeholder. -/
  | invalidPlaceholder (placeholder : String)
  /-- The number of values differs from that of value placeholders. -/
  | valueCount (placeholders values : Nat)
  /-- A placeholder that already stands for something else. -/
  | duplicatePlaceholder (placeholder : String)
deriving DecidableEq

/-- The text of an error. -/
def ConditionError.message : ConditionError → String
  | .emptyCondition => "invalid expression: empty expression"
  | .emptyTerm term => "invalid expression: empty term in '" ++ term ++ "'"
  | .argumentCount function found =>
    "invalid expression: " ++ function.name ++ " expects " ++ toString function.arity ++
      " argument(s), got " ++ toString found
  | .unknownTerm test => "invalid expression: unrecognised term '" ++ test ++ "'"
  | .invalidPath path => "invalid expression: invalid attribute path '" ++ path ++ "'"
  | .invalidPlaceholder placeholder => "invalid value placeholder: " ++ placeholder
  | .valueCount placeholders values =>
    "expression has " ++ toString placeholders ++ " value placeholder(s) but " ++
      toString values ++ " value(s) were supplied"
  | .duplicatePlaceholder placeholder => "duplicate value placeholder: " ++ placeholder

end TableClient
