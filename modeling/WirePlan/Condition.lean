import WirePlan.Text.Blank
import WirePlan.Text.Numeral

/-!
# Prerequisites

A field may be on the wire only under conditions on its siblings: a list of prerequisites, each of
which compares a sibling, or a member of a struct sibling reached by a dotted path, with a literal.
-/

namespace WirePlan

/-- The comparisons. -/
inductive Operator where
  | eq | ne | lt | le | gt | ge
  deriving DecidableEq, Repr

namespace Operator

/-- All comparisons. -/
def all : List Operator := [eq, ne, lt, le, gt, ge]

/-- The symbol in a schema. -/
def symbol : Operator → String
  | eq => "=="
  | ne => "!="
  | lt => "<"
  | le => "<="
  | gt => ">"
  | ge => ">="

/-- The comparison with a symbol, blanks around it aside. -/
def ofText? (s : String) : Option Operator := all.find? fun o => o.symbol = Text.trim s

/-- The comparison holds between two numbers. -/
def holds (o : Operator) (lhs rhs : Int) : Bool :=
  match o with
  | eq => lhs = rhs
  | ne => lhs ≠ rhs
  | lt => lhs < rhs
  | le => lhs ≤ rhs
  | gt => rhs < lhs
  | ge => rhs ≤ lhs

end Operator

/-- What a sibling is compared with. -/
inductive Literal where
  | int (value : Int64)
  | bool (value : Bool)
  | hex (value : UInt64)
  /-- A symbol, which only generated code can compare. -/
  | name (text : String)
  deriving DecidableEq, Repr

namespace Literal

/-- The literal that a trimmed text denotes. The readings are tried in order: a truth value, a
hexadecimal number that fits, a decimal number that fits, and any other text is a symbol. -/
def ofTrimmed (cs : List Char) : Literal :=
  let s := String.ofList cs
  if s = "true" ∨ s = "TRUE" then bool true
  else if s = "false" ∨ s = "FALSE" then bool false
  else match (Text.afterHexMarker? cs).bind (Text.unsigned? 16 UInt64.size) with
    | some n => hex (.ofNat n)
    | none =>
      match Text.signed64? cs with
      | some i => int (.ofInt i)
      | none => name s

/-- The literal that a text denotes, blanks around it aside. -/
def ofText (s : String) : Literal := ofTrimmed (Text.trimChars s.toList)

/-- The text of the literal. -/
def text : Literal → String
  | int i => toString i.toInt
  | bool b => if b then "true" else "false"
  | hex h => "0x" ++ Text.hexadecimal h.toNat
  | name s => s

/-- The number that the literal is compared as; a symbol is none. -/
def number? : Literal → Option Int
  | int i => some i.toInt
  | hex h => some h.toNat
  | bool b => some (if b then 1 else 0)
  | name _ => none

end Literal

/-- One condition on a sibling. -/
structure Prerequisite where
  /-- The sibling, or a dotted path into it. -/
  field : String
  operation : Operator
  value : Literal
  deriving DecidableEq, Repr

namespace Prerequisite

/-- The parts of a dotted path; there is always a first one, which may be empty. -/
def splitPath : List Char → List Char × List (List Char)
  | [] => ([], [])
  | c :: cs =>
    let (first, others) := splitPath cs
    if c = '.' then ([], first :: others) else (c :: first, others)

/-- The sibling that the condition reads. -/
def sibling (p : Prerequisite) : String := .ofList (splitPath p.field.toList).1

/-- The members to go through inside the sibling. -/
def members (p : Prerequisite) : List String := (splitPath p.field.toList).2.map .ofList

/-- The text of the condition. -/
def text (p : Prerequisite) : String :=
  p.field ++ " " ++ p.operation.symbol ++ " " ++ p.value.text

end Prerequisite

end WirePlan
