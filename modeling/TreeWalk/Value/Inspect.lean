import TreeWalk.Text.Quoted
import TreeWalk.Tree.Render
import TreeWalk.Value.Basic

namespace TreeWalk
namespace Value

mutual

def inspect : Value → String
  | int n => toString n
  | bool b => if b then "true" else "false"
  | str s => s
  | null => "null"
  | returned v => v.inspect
  | error message => "ERROR: " ++ message
  | array elements => "[" ++ ", ".intercalate (inspects elements) ++ "]"
  | hash entries => "\x7b" ++ ", ".intercalate (inspectEntries entries) ++ "\x7d"
  | function parameters body _ =>
    "fn(" ++ ",".intercalate (parameters.map Node.text) ++ ")\x7b\n" ++ body.text ++ "\n\x7d"
  | builtin _ => "builtin function"

def inspects : List Value → List String
  | [] => []
  | v :: vs => v.inspect :: inspects vs

def inspectEntries : List (HashKey × Value × Value) → List String
  | [] => []
  | (_, k, v) :: es => (k.inspect ++ ": " ++ v.inspect) :: inspectEntries es

end

theorem inspects_eq_map (vs : List Value) : inspects vs = vs.map inspect := by
  induction vs with
  | nil => rfl
  | cons v vs ih => simp [inspects, ih]

theorem inspectEntries_eq_map (es : List (HashKey × Value × Value)) :
    inspectEntries es = es.map fun e => e.2.1.inspect ++ ": " ++ e.2.2.inspect := by
  induction es with
  | nil => rfl
  | cons e es ih => simp [inspectEntries, ih]

def label : Value → String
  | int _ => "Integer"
  | bool _ => "Boolean"
  | str _ => "String"
  | null => "Null"
  | returned _ => "ReturnValue"
  | error _ => "Error"
  | array _ => "Array"
  | hash _ => "Hash"
  | function .. => "Function"
  | builtin _ => "Builtin"

def summary (v : Value) : String := v.label ++ "(" ++ quoted v.inspect ++ ")"

end Value
end TreeWalk
