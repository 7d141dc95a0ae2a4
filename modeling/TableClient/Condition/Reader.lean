import TableClient.Condition.Error
import TableClient.Text.Blank

/-!
# Reading conditions

A condition is read from its words. `AND` separates groups and `OR` the terms of a group, each
only where words stand on both sides; the `AND` that belongs to a `BETWEEN` separates nothing.
A term is then read as a text: first what stands around the test, then the test by its shape,
then the operand, then the value placeholders from left to right. The first fault counts.
-/

namespace TableClient.Condition

open Text

/-! ## Words -/

/-- A word of a condition, or the `AND` that closes a `BETWEEN`. -/
inductive Word where
  | plain (text : List Char)
  | betweenAnd
deriving DecidableEq

/-- Marks the first `AND` behind each `BETWEEN`; `waiting` tells whether one is still to come. -/
def markBetween (waiting : Bool) : List (List Char) → List Word
  | [] => []
  | word :: rest =>
    if word = "BETWEEN".toList then .plain word :: markBetween true rest
    else if waiting ∧ word = "AND".toList then .betweenAnd :: markBetween false rest
    else .plain word :: markBetween waiting rest

/-- Cuts words at each occurrence of `mark` that has a word of the current piece before it and any
    word behind it. `piece` is the current piece, in reverse. -/
def cutAt (mark : Word) (piece : List Word) : List Word → List (List Word)
  | [] => [piece.reverse]
  | [word] => [(word :: piece).reverse]
  | word :: next :: rest =>
    if word = mark ∧ piece ≠ [] then piece.reverse :: cutAt mark [] (next :: rest)
    else cutAt mark (word :: piece) (next :: rest)

/-- The text that stands for `AND` between two unit separators is `AND` as well. -/
def unmask : List Char → List Char
  | '\x1f' :: 'A' :: 'N' :: 'D' :: '\x1f' :: rest => 'A' :: 'N' :: 'D' :: unmask rest
  | c :: rest => c :: unmask rest
  | [] => []

/-- The text of a word. -/
def Word.text : Word → List Char
  | .plain text => unmask text
  | .betweenAnd => "AND".toList

/-- The terms of a condition, as texts, in their groups. -/
def termTexts (words : List (List Char)) : List (List (List Char)) :=
  (cutAt (.plain "AND".toList) [] (markBetween false words)).map fun group =>
    (cutAt (.plain "OR".toList) [] group).map fun term => join [' '] (term.map Word.text)

/-! ## What stands around a test -/

/-- Takes opening parentheses (with the blanks behind them) and `NOT`s off a text. Returns whether
    the number of `NOT`s is odd, and what is left; `afterParenthesis` tells whether blanks are to
    be passed over. -/
def peelOpening (afterParenthesis : Bool) : List Char → Bool × List Char
  | [] => (false, [])
  | '(' :: rest => peelOpening true rest
  | 'N' :: 'O' :: 'T' :: ' ' :: rest =>
    let (negated, core) := peelOpening false rest
    (!negated, core)
  | c :: rest =>
    if afterParenthesis && isBlank c then peelOpening true rest else (false, c :: rest)

/-- Takes at most `excess` closing parentheses (with the blanks before them) off the end of a text
    that is given in reverse. -/
def peelClosing (excess : Nat) (afterParenthesis : Bool) : List Char → List Char
  | [] => []
  | c :: rest =>
    if c = ')' ∧ 0 < excess then peelClosing (excess - 1) true rest
    else if afterParenthesis && isBlank c then peelClosing excess true rest
    else c :: rest

/-- A text without the closing parentheses at its end that have no partner in it. -/
def dropClosing (text : List Char) : List Char :=
  (peelClosing (text.count ')' - text.count '(') false text.reverse).reverse

/-! ## Names, paths and placeholders -/

/-- The characters that no attribute name in a path holds. -/
def reserved : List Char := ['(', ')', '[', ']', ',', '#']

/-- Whether a text can be the name of an attribute in a path. -/
def isName (text : List Char) : Bool :=
  !text.isEmpty && text.head? != some ':' &&
    text.all fun c => !isBlank c && !reserved.contains c

/-- Whether a text is any number of `[digits]` groups; `inside` is the number of digits since the
    opening bracket, if one is open. -/
def areSubscripts (inside : Option Nat) : List Char → Bool
  | [] => inside.isNone
  | c :: rest =>
    match inside with
    | none => c == '[' && areSubscripts (some 0) rest
    | some digits =>
      if c = ']' then decide (0 < digits) && areSubscripts none rest
      else c.isDigit && areSubscripts (some (digits + 1)) rest

/-- The segment that a text is. -/
def readSegment? (text : List Char) : Option Segment :=
  let name := text.takeWhile (· != '[')
  let subscripts := text.dropWhile (· != '[')
  if isName name && areSubscripts none subscripts then some ⟨String.ofList name, subscripts⟩
  else none

/-- The path that a text is. -/
def readPath (text : List Char) : Except ConditionError Path :=
  match (split '.' text).mapM readSegment? with
  | some path => .ok path
  | none => .error (.invalidPath (String.ofList text))

/-- The operand that a text is: a path, or `size(path)`. -/
def readOperand (text : List Char) : Except ConditionError Operand := do
  match (dropLeading? "size(".toList text).bind (dropTrailing? [')']) with
  | some inner => return ⟨← readPath inner, true⟩
  | none => return ⟨← readPath text, false⟩

/-- Whether a character can stand in a placeholder. -/
def isWordChar (c : Char) : Bool := c.isAlphanum || c == '_'

/-- Whether a text is a value placeholder: a colon and at least one letter, digit or underscore,
    all of ASCII. -/
def isPlaceholder : List Char → Bool
  | ':' :: rest => !rest.isEmpty && rest.all isWordChar
  | _ => false

/-- Reads a value placeholder, where those in `bound` are taken. -/
def readPlaceholder (bound : List String) (text : List Char) : Except ConditionError String :=
  let placeholder := String.ofList text
  if !isPlaceholder text then .error (.invalidPlaceholder placeholder)
  else if bound.contains placeholder then .error (.duplicatePlaceholder placeholder)
  else .ok placeholder

/-- Reads value placeholders from left to right; each one read is taken for those behind it. -/
def readPlaceholders (bound : List String) : List (List Char) → Except ConditionError (List String)
  | [] => .ok []
  | text :: rest => do
    let placeholder ← readPlaceholder bound text
    return placeholder :: (← readPlaceholders (bound ++ [placeholder]) rest)

/-! ## Tests -/

/-- A test whose shape is known and whose parts are still texts. -/
inductive RawTest where
  | compare (operand : List Char) (comparator : Comparator) (value : List Char)
  | between (operand low high : List Char)
  | oneOf (operand : List Char) (values : List (List Char))
  | call (function : BuiltIn) (path : List Char) (value? : Option (List Char))

/-- The text between the parentheses of a call of `function`. -/
def callArguments? (text : List Char) (function : BuiltIn) : Option (List Char) :=
  ((dropLeading? function.name.toList text).bind (dropLeading? ['('])).bind (dropTrailing? [')'])

/-- The function that a text calls, and the text between the parentheses. -/
def findCall? (text : List Char) : Option (BuiltIn × List Char) :=
  BuiltIn.all.findSome? fun function =>
    (callArguments? text function).map fun inner => (function, inner)

/-- A call with the arguments in the given text. -/
def readCall (function : BuiltIn) (inner : List Char) : Except ConditionError RawTest :=
  let arguments := (split ',' inner).map trim
  if arguments.length ≠ function.arity then .error (.argumentCount function arguments.length)
  else .ok (.call function (arguments.headD []) arguments.tail.head?)

/-- The parts of `operand BETWEEN low AND high`. -/
def readBetween? (text : List Char) : Option RawTest :=
  match split ' ' text with
  | [operand, first, low, second, high] =>
    if first = "BETWEEN".toList ∧ second = "AND".toList then some (.between operand low high)
    else none
  | _ => none

/-- The parts of `operand IN (value, …)`. -/
def readMembership? (text : List Char) : Option RawTest :=
  let operand := text.takeWhile (· != ' ')
  let rest := text.dropWhile (· != ' ')
  ((dropLeading? " IN (".toList rest).bind (dropTrailing? [')'])).map fun inner =>
    .oneOf operand ((split ',' inner).map trim)

/-- The parts of `operand sign value`. -/
def readComparison? (text : List Char) : Option RawTest :=
  match split ' ' text with
  | [operand, sign, value] =>
    (Comparator.all.find? fun comparator => comparator.sign.toList = sign).map fun comparator =>
      .compare operand comparator value
  | _ => none

/-- The test whose shape a text has. -/
def readShape (text : List Char) : Except ConditionError RawTest :=
  match findCall? text with
  | some (function, inner) => readCall function inner
  | none =>
    match readBetween? text <|> readMembership? text <|> readComparison? text with
    | some test => .ok test
    | none => .error (.unknownTerm (String.ofList text))

/-- Reads the parts of a test: the operand or path, then the value placeholders. -/
def RawTest.read (bound : List String) : RawTest → Except ConditionError Test
  | .compare operand comparator value => do
    let operand ← readOperand operand
    let value ← readPlaceholder bound value
    return .compare operand comparator value
  | .between operand low high => do
    let operand ← readOperand operand
    let low ← readPlaceholder bound low
    let high ← readPlaceholder (bound ++ [low]) high
    return .between operand low high
  | .oneOf operand values => do
    let operand ← readOperand operand
    let values ← readPlaceholders bound values
    return .oneOf operand values
  | .call function path none => do
    let path ← readPath path
    return .call function path none
  | .call function path (some value) => do
    let path ← readPath path
    let value ← readPlaceholder bound value
    return .call function path (some value)

/-- Reads a term, where the value placeholders in `bound` are taken. -/
def readTerm (bound : List String) (text : List Char) : Except ConditionError Term := do
  let (negated, rest) := peelOpening false text
  let core := dropClosing rest
  if core.isEmpty then .error (.emptyTerm (String.ofList text))
  else
    let raw ← readShape core
    let test ← raw.read bound
    return ⟨text.take (text.length - rest.length), negated, test, rest.drop core.length⟩

/-- Reads the terms of a group one after another. -/
def readGroup (bound : List String) : List (List Char) → Except ConditionError (List Term)
  | [] => .ok []
  | text :: rest => do
    let term ← readTerm bound text
    return term :: (← readGroup (bound ++ term.values) rest)

/-- Reads groups one after another. -/
def readGroups (bound : List String) :
    List (List (List Char)) → Except ConditionError (List (List Term))
  | [] => .ok []
  | texts :: rest => do
    let group ← readGroup bound texts
    return group :: (← readGroups (bound ++ group.flatMap Term.values) rest)

end TableClient.Condition
