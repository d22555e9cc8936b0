import TreeWalk.Value.Basic

namespace TreeWalk

inductive Failure where
  | unbound (name : String)
  | mismatch (left : Tag) (operator : String) (right : Tag)
  | unknownBinary (left : Tag) (operator : String) (right : Tag)
  | unknownUnary (operator : String) (right : Tag)
  | overflow (left : Int) (operator : String) (right : Int)
  | negationOverflow (n : Int)
  | divisionByZero (left : Int)
  | unusableKey (tag : Tag)
  | notIndexable (tag : Tag)
  | notFunction (tag : Tag)
  | arity (want got : Nat)
  | builtinArity (got want : Nat)
  | notArray (b : Builtin) (tag : Tag)
  | noLength (tag : Tag)
  deriving DecidableEq, Repr

namespace Failure

def message : Failure → String
  | unbound name => "identifier not found: " ++ name
  | mismatch l op r => "type mismatch: " ++ l.name ++ " " ++ op ++ " " ++ r.name
  | unknownBinary l op r => "unknown operator: " ++ l.name ++ " " ++ op ++ " " ++ r.name
  | unknownUnary op r => "unknown operator: " ++ op ++ r.name
  | overflow l op r => "integer overflow: " ++ toString l ++ " " ++ op ++ " " ++ toString r
  | negationOverflow n => "integer overflow: -" ++ toString n
  | divisionByZero l => "division by zero: " ++ toString l ++ " / 0"
  | unusableKey tag => "unusable as hash key: " ++ tag.name
  | notIndexable tag => "index operator not supported: " ++ tag.name
  | notFunction tag => "not a function: " ++ tag.name
  | arity want got =>
    "wrong number of arguments: want=" ++ toString want ++ ", got=" ++ toString got
  | builtinArity got want =>
    "wrong number of arguments. got=" ++ toString got ++ ", want=" ++ toString want
  | notArray b tag => "argument to `" ++ b.name ++ "` must be ARRAY_OBJ, got " ++ tag.name
  | noLength tag => "argument to `len` not supported, got " ++ tag.name

def value (f : Failure) : Value := .error f.message

end Failure

end TreeWalk
