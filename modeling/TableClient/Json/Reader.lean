import TableClient.Json.Numeral

/-!
# Reading JSON texts

The grammar of RFC 8259 and nothing more: no trailing text, no single quotes, no control
characters in strings, no half of a surrogate pair. Arrays and objects that stand too deep in one
another are not read. Of two fields with one name the last stays.
-/

namespace TableClient.Json

/-- The blanks between the tokens of a text. -/
def isJsonBlank (c : Char) : Bool := c == ' ' || c == '\t' || c == '\n' || c == '\r'

/-- The text without leading blanks. -/
def skipBlanks (text : List Char) : List Char := text.dropWhile isJsonBlank

/-! ## Strings -/

/-- The value of a hexadecimal digit. -/
def hexValue? (c : Char) : Option Nat :=
  if '0' ≤ c ∧ c ≤ '9' then some (c.toNat - '0'.toNat)
  else if 'a' ≤ c ∧ c ≤ 'f' then some (c.toNat - 'a'.toNat + 10)
  else if 'A' ≤ c ∧ c ≤ 'F' then some (c.toNat - 'A'.toNat + 10)
  else none

/-- The number that four hexadecimal digits denote. -/
def readHex? (a b c d : Char) : Option Nat := do
  return (((← hexValue? a) * 16 + (← hexValue? b)) * 16 + (← hexValue? c)) * 16 + (← hexValue? d)

/-- The character that a short escape stands for. -/
def unescape? : Char → Option Char
  | '"' => some '"'
  | '\\' => some '\\'
  | '/' => some '/'
  | 'b' => some '\x08'
  | 'f' => some '\x0c'
  | 'n' => some '\n'
  | 'r' => some '\r'
  | 't' => some '\t'
  | _ => none

/-- The rest of a string behind its opening quote, and what follows the closing one; `done` holds
    the characters before, in reverse. -/
def readString? (done : List Char) : List Char → Option (String × List Char)
  | '"' :: rest => some (String.ofList done.reverse, rest)
  | '\\' :: 'u' :: a :: b :: c :: d :: '\\' :: 'u' :: e :: f :: g :: h :: rest =>
    match readHex? a b c d with
    | none => none
    | some unit =>
      if 0xD800 ≤ unit ∧ unit < 0xDC00 then
        match readHex? e f g h with
        | none => none
        | some second =>
          if 0xDC00 ≤ second ∧ second < 0xE000 then
            let point := 0x10000 + (unit - 0xD800) * 0x400 + (second - 0xDC00)
            readString? (Char.ofNat point :: done) rest
          else none
      else if 0xDC00 ≤ unit ∧ unit < 0xE000 then none
      else readString? (Char.ofNat unit :: done) ('\\' :: 'u' :: e :: f :: g :: h :: rest)
  | '\\' :: 'u' :: a :: b :: c :: d :: rest =>
    match readHex? a b c d with
    | none => none
    | some unit =>
      if 0xD800 ≤ unit ∧ unit < 0xE000 then none
      else readString? (Char.ofNat unit :: done) rest
  | '\\' :: c :: rest =>
    match unescape? c with
    | some escaped => readString? (escaped :: done) rest
    | none => none
  | c :: rest => if c.toNat < 0x20 then none else readString? (c :: done) rest
  | [] => none

/-! ## Values -/

/-- How many arrays and objects may stand in one another. -/
def maxDepth : Nat := 127

/-- What the reader looks for next, innermost first: the items or fields of the value that is
    being read, in reverse, or the place where a finished value belongs. -/
inductive Reading where
  /-- An item of an array, behind those already read. -/
  | item (done : List Json)
  /-- The value of a field, behind those already read. -/
  | value (done : List (String × Json)) (name : String)

/-- A step of the reader. -/
inductive Step where
  /-- A value has to begin. -/
  | start (text : List Char) (outer : List Reading)
  /-- A value has ended. -/
  | finish (value : Json) (text : List Char) (outer : List Reading)

/-- The name of a field and the colon behind it. -/
def readName? (text : List Char) : Option (String × List Char) :=
  match skipBlanks text with
  | '"' :: rest =>
    match readString? [] rest with
    | some (name, rest) =>
      match skipBlanks rest with
      | ':' :: rest => some (name, rest)
      | _ => none
    | none => none
  | _ => none

/-- Begins a value: an atom ends at once, an array or object opens if there is room for it. -/
def startValue? (text : List Char) (outer : List Reading) : Option Step :=
  match skipBlanks text with
  | 'n' :: 'u' :: 'l' :: 'l' :: rest => some (.finish .null rest outer)
  | 't' :: 'r' :: 'u' :: 'e' :: rest => some (.finish (.bool true) rest outer)
  | 'f' :: 'a' :: 'l' :: 's' :: 'e' :: rest => some (.finish (.bool false) rest outer)
  | '"' :: rest => (readString? [] rest).map fun (s, rest) => .finish (.string s) rest outer
  | '[' :: rest =>
    if outer.length < maxDepth then
      match skipBlanks rest with
      | ']' :: rest => some (.finish (.array []) rest outer)
      | rest => some (.start rest (.item [] :: outer))
    else none
  | '\x7b' :: rest =>
    if outer.length < maxDepth then
      match skipBlanks rest with
      | '\x7d' :: rest => some (.finish (.object []) rest outer)
      | rest => (readName? rest).map fun (name, rest) => .start rest (.value [] name :: outer)
    else none
  | rest => do
    let (numeral, rest) ← Numeral.read? rest
    return .finish (.number (← numeral.value?)) rest outer

/-- Puts a finished value where it belongs. -/
def finishValue? (value : Json) (text : List Char) : Reading → List Reading → Option Step
  | .item done, outer =>
    match skipBlanks text with
    | ',' :: rest => some (.start rest (.item (value :: done) :: outer))
    | ']' :: rest => some (.finish (.array (value :: done).reverse) rest outer)
    | _ => none
  | .value done name, outer =>
    let done := (name, value) :: done
    match skipBlanks text with
    | ',' :: rest => (readName? rest).map fun (name, rest) => .start rest (.value done name :: outer)
    | '\x7d' :: rest => some (.finish (.object done.reverse) rest outer)
    | _ => none

/-- Runs the reader for at most `steps` steps. -/
def run (steps : Nat) (step : Step) : Option Json :=
  match steps, step with
  | 0, _ => none
  | _ + 1, .finish value text [] => if (skipBlanks text).isEmpty then some value else none
  | steps + 1, .finish value text (reading :: outer) =>
    (finishValue? value text reading outer).bind (run steps)
  | steps + 1, .start text outer => (startValue? text outer).bind (run steps)

/-- The value that a text denotes, as it is written. Every two steps use up at least one
    character. -/
def written? (text : List Char) : Option Json := run (2 * text.length + 2) (.start text [])

/-- The value that a text denotes. -/
def ofText? (text : List Char) : Option Json := (written? text).map settle

end TableClient.Json
