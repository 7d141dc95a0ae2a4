import TableClient.Text.Cut

/-!
# Conditions

The grammar of conditions on the attributes of an item. A condition is a chain of terms joined by
`AND` and `OR`; a term is one test with what stands around it: opening parentheses and `NOT`s
before, closing parentheses behind. Values occur as placeholders such as `:low`.

A condition is written with a spelling for each attribute name. Spelling a name as itself gives
the text of the source, and spelling it as a placeholder gives the text that is sent.

Results:
* `BuiltIn.mem_all`: `all` lists every function.
-/

namespace TableClient.Condition

/-- The functions of the condition language. -/
inductive BuiltIn where
  | attributeExists
  | attributeNotExists
  | attributeType
  | beginsWith
  | contains
deriving DecidableEq

/-- Every function. -/
def BuiltIn.all : List BuiltIn :=
  [.attributeExists, .attributeNotExists, .attributeType, .beginsWith, .contains]

/-- The name of a function. -/
def BuiltIn.name : BuiltIn → String
  | .attributeExists => "attribute_exists"
  | .attributeNotExists => "attribute_not_exists"
  | .attributeType => "attribute_type"
  | .beginsWith => "begins_with"
  | .contains => "contains"

/-- The number of arguments: a path, and for most functions a value. -/
def BuiltIn.arity : BuiltIn → Nat
  | .attributeExists | .attributeNotExists => 1
  | .attributeType | .beginsWith | .contains => 2

/-- The comparison operators. -/
inductive Comparator where
  | greater
  | greaterOrEqual
  | equal
  | less
  | lessOrEqual
deriving DecidableEq

/-- Every operator. -/
def Comparator.all : List Comparator := [.greater, .greaterOrEqual, .equal, .less, .lessOrEqual]

/-- The sign of an operator. -/
def Comparator.sign : Comparator → String
  | .greater => ">"
  | .greaterOrEqual => ">="
  | .equal => "="
  | .less => "<"
  | .lessOrEqual => "<="

/-- A segment of a path: the name of an attribute and the subscripts behind it, as written. -/
structure Segment where
  name : String
  subscripts : List Char
deriving DecidableEq

/-- A path into an item, from the outermost attribute on. -/
abbrev Path := List Segment

/-- What is tested: the value at a path or its size. -/
structure Operand where
  path : Path
  sized : Bool
deriving DecidableEq

/-- A single test. -/
inductive Test where
  | compare (operand : Operand) (comparator : Comparator) (value : String)
  | between (operand : Operand) (low high : String)
  | oneOf (operand : Operand) (values : List String)
  | call (function : BuiltIn) (path : Path) (value? : Option String)
deriving DecidableEq

/-- The shape of a test. -/
inductive Shape where
  | comparison
  | between
  | membership
  | call (function : BuiltIn)
deriving DecidableEq

/-- A test and what stands around it. -/
structure Term where
  /-- Opening parentheses and `NOT`s, as written. -/
  opening : List Char
  /-- Whether the number of `NOT`s is odd. -/
  negated : Bool
  test : Test
  /-- Closing parentheses that have no partner within the test, as written. -/
  closing : List Char
deriving DecidableEq

namespace Test

/-- The shape of a test. -/
def shape : Test → Shape
  | .compare .. => .comparison
  | .between .. => .between
  | .oneOf .. => .membership
  | .call function .. => .call function

/-- The path that a test looks at. -/
def path : Test → Path
  | .compare operand _ _ | .between operand _ _ | .oneOf operand _ => operand.path
  | .call _ path _ => path

/-- The value placeholders of a test, in order. -/
def values : Test → List String
  | .compare _ _ value => [value]
  | .between _ low high => [low, high]
  | .oneOf _ values => values
  | .call _ _ value? => value?.toList

end Test

/-- The attribute names of a term, in order. -/
def Term.names (term : Term) : List String := term.test.path.map Segment.name

/-- The value placeholders of a term, in order. -/
def Term.values (term : Term) : List String := term.test.values

/-! ## Writing -/

section
variable (spell : String → List Char)

/-- Writes a segment. -/
def Segment.write (segment : Segment) : List Char := spell segment.name ++ segment.subscripts

/-- Writes a path. -/
def Path.write (path : Path) : List Char := Text.join ['.'] (path.map (Segment.write spell))

/-- Writes an operand. -/
def Operand.write (operand : Operand) : List Char :=
  if operand.sized then "size(".toList ++ Path.write spell operand.path ++ [')']
  else Path.write spell operand.path

/-- Writes a test. -/
def Test.write : Test → List Char
  | .compare operand comparator value =>
    operand.write spell ++ ' ' :: comparator.sign.toList ++ ' ' :: value.toList
  | .between operand low high =>
    operand.write spell ++ " BETWEEN ".toList ++ low.toList ++ " AND ".toList ++ high.toList
  | .oneOf operand values =>
    operand.write spell ++ " IN (".toList ++
      Text.join [',', ' '] (values.map String.toList) ++ [')']
  | .call function path none => function.name.toList ++ '(' :: Path.write spell path ++ [')']
  | .call function path (some value) =>
    function.name.toList ++ '(' :: Path.write spell path ++ ',' :: ' ' :: value.toList ++ [')']

/-- Writes a term. -/
def Term.write (term : Term) : List Char := term.opening ++ term.test.write spell ++ term.closing

/-- Writes a chain of terms: the groups joined by `AND`, the terms of a group by `OR`. -/
def writeGroups (groups : List (List Term)) : List Char :=
  Text.join " AND ".toList
    (groups.map fun group => Text.join " OR ".toList (group.map (Term.write spell)))

end

/-! ## Lemmas -/

/-- `all` lists every function. -/
theorem BuiltIn.mem_all (function : BuiltIn) : function ∈ BuiltIn.all := by
  cases function <;> simp [BuiltIn.all]

end TableClient.Condition
