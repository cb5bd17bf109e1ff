import MonkeySyntax.Text
import MonkeySyntax.Token.Basic

/-! Diagnostics: what is wrong with a statement and where, put into words and shown with the line of
the source and a caret. -/
namespace MonkeySyntax

/-- A cause for which reading fails: a token of another kind than the one that has to follow, a
token with which no operand starts, a token that is no operator, an integer out of range, and an
expression inside too many others. -/
inductive Fault
  | unexpected (expected found : TokenKind)
  | noOperand (kind : TokenKind)
  | noOperator (kind : TokenKind)
  | badInteger (literal : String)
  | tooDeep (limit : Nat)
deriving DecidableEq

namespace Fault

def name : Fault → String
  | unexpected .. => "UnexpectedToken"
  | noOperand _ => "NoPrefixParseFn"
  | noOperator _ => "NoInfixParseFn"
  | badInteger _ => "IntegerParseError"
  | tooDeep _ => "NestingTooDeep"

def message : Fault → String
  | unexpected expected found =>
    "expected next token to be " ++ expected.name ++ ", got " ++ found.name ++ " instead"
  | noOperand kind => "no prefix parse function for " ++ kind.name ++ " found"
  | noOperator kind => "no infix parse function for " ++ kind.name ++ " found"
  | badInteger literal => "could not parse " ++ literal ++ " as integer"
  | tooDeep limit => "expression nested deeper than " ++ limit.repr ++ " levels"

/-- What to try against a fault, where there is something to try. -/
def advice : Fault → String
  | badInteger _ => ", is it above the integer limit?"
  | tooDeep _ => ", try splitting it with `let`"
  | _ => ""

def tip (f : Fault) : String := f.message ++ f.advice

end Fault

structure Diagnostic where
  fault : Fault
  position : Position
deriving DecidableEq

namespace Diagnostic

def message (d : Diagnostic) : String := d.fault.message

def excerpt (d : Diagnostic) (source : String) : List String :=
  let line := Text.locate source d.position.offset
  let number := line.number.repr
  let margin := String.ofList (List.replicate (number.length + 1) ' ') ++ "|"
  ["Error: " ++ d.fault.name ++ " (" ++ d.fault.tip ++ ")",
    "-> " ++ d.position.file,
    margin,
    number ++ " | " ++ line.shown,
    margin ++ " " ++ String.ofList (List.replicate line.column '-') ++ "^"]

def render (d : Diagnostic) (source : String) : String :=
  String.join ((d.excerpt source).map (· ++ "\n"))

end Diagnostic
end MonkeySyntax
