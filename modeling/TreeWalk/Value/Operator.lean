import TreeWalk.Token.Numeral
import TreeWalk.Value.Failure

/-! Arithmetic on integers is exact or refused: a result outside their range is an error, never a
wrapped number. -/
namespace TreeWalk
namespace Value

def arithmetic? : String → Option (Int → Int → Int)
  | "+" => some (· + ·)
  | "-" => some (· - ·)
  | "*" => some (· * ·)
  | "/" => some Int.tdiv
  | _ => none

def comparison? : String → Option (Int → Int → Bool)
  | "<" => some fun a b => decide (a < b)
  | ">" => some fun a b => decide (b < a)
  | "==" => some fun a b => a == b
  | "!=" => some fun a b => a != b
  | _ => none

def integerBinary (operator : String) (a b : Int) : Value :=
  match comparison? operator, arithmetic? operator with
  | some compare, _ => bool (compare a b)
  | none, none => (Failure.unknownBinary .integer operator .integer).value
  | none, some compute =>
    if operator = "/" ∧ b = 0 then (Failure.divisionByZero a).value
    else if InRange (compute a b) then int (compute a b)
    else (Failure.overflow a operator b).value

/-- Operands of different types never meet; strings can be joined, booleans compared. -/
def binary (operator : String) (left right : Value) : Value :=
  if left.tag ≠ right.tag then (Failure.mismatch left.tag operator right.tag).value
  else match left, right with
    | int a, int b => integerBinary operator a b
    | str a, str b =>
      if operator = "+" then str (a ++ b)
      else (Failure.unknownBinary .string operator .string).value
    | bool a, bool b =>
      if operator = "==" then bool (a == b)
      else if operator = "!=" then bool (a != b)
      else (Failure.unknownBinary .boolean operator .boolean).value
    | _, _ => (Failure.unknownBinary left.tag operator right.tag).value

def negate : Value → Value
  | int n => if maxInt < -n then (Failure.negationOverflow n).value else int (-n)
  | v => (Failure.unknownUnary "-" v.tag).value

/-- The opposite of a boolean; `null` counts as false and everything else as true. -/
def not : Value → Value
  | bool b => bool !b
  | null => bool true
  | _ => bool false

def unary (operator : String) (right : Value) : Value :=
  match operator with
  | "!" => right.not
  | "-" => right.negate
  | _ => (Failure.unknownUnary operator right.tag).value

def element (elements : List Value) (position : Int) : Value :=
  if 0 ≤ position then (elements[position.toNat]?).getD null else null

def index (left position : Value) : Value :=
  match left, position with
  | array elements, int n => element elements n
  | hash entries, _ =>
    match position.hashKey? with
    | some k => (stored? entries k).getD null
    | none => (Failure.unusableKey position.tag).value
  | _, _ => (Failure.notIndexable left.tag).value

end Value
end TreeWalk
