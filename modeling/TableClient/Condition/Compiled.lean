import TableClient.Condition.Reader
import TableClient.Attribute.Document
import TableClient.Names

/-!
# Compiled conditions

A compiled condition is the text that is sent, in which `#n0`, `#n1`, … stand for attribute names
and `:low` and the like for values, together with what they stand for. The parts of one request
share a namespace: a name has the same placeholder in all of them, and a value placeholder is used
once.

Results:
* `compile_bound`: a compile adds the value placeholders of its terms to the namespace.
* `terms_join`: a joined condition has the terms of both sides.
-/

namespace TableClient.Condition

/-- The shape of a term and whether it is negated. -/
structure TermShape where
  shape : Shape
  negated : Bool
deriving DecidableEq

/-- What a compile makes of a condition. -/
structure Compiled where
  /-- The text with placeholders for the attribute names. -/
  text : String
  /-- The attribute names, by placeholder. -/
  names : Dict String
  /-- The values, by placeholder. -/
  values : Dict Attribute
  /-- The shapes of the terms, in order. -/
  terms : List TermShape
deriving DecidableEq

/-! ## Namespaces -/

/-- The placeholders that the parts of a request have used so far. -/
structure Namespace where
  /-- The attribute names in the order of their first use; the one at place `k` is written
      `#nk`. -/
  names : List String := []
  /-- The value placeholders. -/
  bound : List String := []
deriving DecidableEq

/-- The placeholder of a place. -/
def placeholder (place : Nat) : String := "#n" ++ toString place

/-- The placeholder of a name. -/
def placeholderOf (names : List String) (name : String) : String :=
  placeholder (names.idxOf name)

/-- The compiled form of terms that were read, with the placeholders of `names`. -/
def compiled (names : List String) (groups : List (List Term)) (values : List Json) : Compiled :=
  let terms := groups.flatten
  { text := String.ofList (writeGroups (fun name => (placeholderOf names name).toList) groups)
    names := Dict.ofList
      ((terms.flatMap Term.names).map fun name => (placeholderOf names name, name))
    values := Dict.ofList
      ((terms.flatMap Term.values).zip (values.map Attribute.ofDocument))
    terms := terms.map fun term => ⟨term.test.shape, term.negated⟩ }

/-- Compiles a condition and gives its value placeholders the values, in order. The result has the
    namespace after the compile; a condition that is refused leaves the namespace as it was. -/
def compile (names : Namespace) (text : String) (values : List Json) :
    Except ConditionError (Compiled × Namespace) :=
  match Text.words text.toList with
  | [] => .error .emptyCondition
  | words => do
    let groups ← readGroups names.bound (termTexts words)
    let terms := groups.flatten
    let placeholders := terms.flatMap Term.values
    if placeholders.length ≠ values.length then
      .error (.valueCount placeholders.length values.length)
    else
      let all := addNames names.names (terms.flatMap Term.names)
      return (compiled all groups values, ⟨all, names.bound ++ placeholders⟩)

/-- Compiles a condition that shares its placeholders with no other. -/
def compileAlone (text : String) (values : List Json) : Except ConditionError Compiled :=
  (compile {} text values).map Prod.fst

namespace Compiled

/-- The shape of the only term, if there is one term and it is not negated. -/
def onlyShape? (c : Compiled) : Option Shape :=
  match c.terms with
  | [term] => if term.negated then none else some term.shape
  | _ => none

/-! ## Expansion -/

/-- The text that a number sign and the word characters behind it, in reverse, stand for: the name
    if they are a known placeholder, else themselves. -/
def resolve (names : Dict String) (word : List Char) : List Char :=
  let placeholder := String.ofList ('#' :: word.reverse)
  ((Dict.get? names placeholder).getD placeholder).toList

/-- Replaces the known placeholders in a text; `word` holds what has been read behind a number
    sign, in reverse, if one is open. -/
def expandFrom (names : Dict String) (word : Option (List Char)) : List Char → List Char
  | [] =>
    match word with
    | some word => resolve names word
    | none => []
  | c :: rest =>
    match word with
    | none => if c = '#' then expandFrom names (some []) rest else c :: expandFrom names none rest
    | some word =>
      if isWordChar c then expandFrom names (some (c :: word)) rest
      else if c = '#' then resolve names word ++ expandFrom names (some []) rest
      else resolve names word ++ c :: expandFrom names none rest

/-- The text with the attribute names in place of their placeholders. -/
def expand (c : Compiled) : String := String.ofList (expandFrom c.names none c.text.toList)

/-! ## Joining -/

/-- The two ways to join conditions. -/
inductive Connective where
  | and
  | or
deriving DecidableEq

/-- The word of a connective. -/
def Connective.word : Connective → String
  | .and => "AND"
  | .or => "OR"

/-- The text of a condition as one side of a joined one: in parentheses if it has several terms. -/
def grouped (c : Compiled) : String := if 1 < c.terms.length then "(" ++ c.text ++ ")" else c.text

/-- The first entry of `others` whose placeholder stands for another name in `names`. -/
def nameConflict? (names others : Dict String) : Option String :=
  (others.find? fun other => (Dict.get? names other.1).any (· != other.2)).map Prod.fst

/-- The first placeholder of `others` that is bound in `values`. -/
def valueConflict? (values others : Dict Attribute) : Option String :=
  (others.find? fun other => Dict.contains values other.1).map Prod.fst

/-- Joins two conditions. They must agree on the names they share and share no value
    placeholder. -/
def join (connective : Connective) (left right : Compiled) : Except ConditionError Compiled :=
  match nameConflict? left.names right.names <|> valueConflict? left.values right.values with
  | some placeholder => .error (.duplicatePlaceholder placeholder)
  | none => .ok
    { text := left.grouped ++ " " ++ connective.word ++ " " ++ right.grouped
      names := Dict.insertAll left.names right.names
      values := Dict.insertAll left.values right.values
      terms := left.terms ++ right.terms }

end Compiled

/-! ## Lemmas -/

/-- A joined condition has the terms of both sides. -/
theorem Compiled.terms_join {connective : Compiled.Connective} {left right c : Compiled}
    (h : Compiled.join connective left right = .ok c) : c.terms = left.terms ++ right.terms := by
  unfold Compiled.join at h
  split at h
  · contradiction
  · cases h; rfl

/-- A compile adds value placeholders to the namespace and removes none. -/
theorem compile_bound {names after : Namespace} {text : String} {values : List Json} {c : Compiled}
    (h : compile names text values = .ok (c, after)) : names.bound <+: after.bound := by
  unfold compile at h
  split at h
  · contradiction
  · cases hg : readGroups names.bound (termTexts (Text.words text.toList)) with
    | error e => simp_all [bind, Except.bind]
    | ok groups =>
      simp only [hg, bind, Except.bind] at h
      split at h
      · contradiction
      · cases h
        exact List.prefix_append _ _

end TableClient.Condition
