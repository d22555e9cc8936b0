import TreeWalk.Tree.Basic

namespace TreeWalk
namespace Node

mutual

/-- A hole shows as `None`, except that a statement around nothing shows as nothing. -/
def text : Node → String
  | missing => "None"
  | bare _ t => t.literal
  | program statements => String.join (texts statements)
  | letStmt t name value => t.literal ++ " " ++ name.text ++ " = " ++ value.text ++ ";"
  | returnStmt t value => t.literal ++ " " ++ value.text ++ ";"
  | exprStmt _ missing => ""
  | exprStmt _ e => e.text
  | block _ statements => String.join (texts statements)
  | ident _ name => name
  | intLit t _ => t.literal
  | boolLit t _ => t.literal
  | strLit t _ => t.literal
  | unary _ operator right => "(" ++ operator ++ right.text ++ ")"
  | binary _ operator left right =>
    "(" ++ left.text ++ " " ++ operator ++ " " ++ right.text ++ ")"
  | ifExpr _ condition consequence missing => "if" ++ condition.text ++ " " ++ consequence.text
  | ifExpr _ condition consequence alternative =>
    "if" ++ condition.text ++ " " ++ consequence.text ++ "else " ++ alternative.text
  | fnLit t parameters body =>
    t.literal ++ "(" ++ ", ".intercalate (texts parameters) ++ ") " ++ body.text
  | call _ function arguments => function.text ++ "(" ++ ", ".intercalate (texts arguments) ++ ")"
  | arrayLit _ elements => "[" ++ ", ".intercalate (texts elements) ++ "]"
  | index _ left position => "(" ++ left.text ++ "[" ++ position.text ++ "])"
  | hashLit _ pairs => "\x7b" ++ ", ".intercalate (pairTexts pairs) ++ "\x7d"

def texts : List Node → List String
  | [] => []
  | n :: ns => n.text :: texts ns

def pairTexts : List (Node × Node) → List String
  | [] => []
  | (k, v) :: ps => (k.text ++ ":" ++ v.text) :: pairTexts ps

end

theorem texts_eq_map (ns : List Node) : texts ns = ns.map text := by
  induction ns with
  | nil => rfl
  | cons n ns ih => simp [texts, ih]

theorem pairTexts_eq_map (ps : List (Node × Node)) :
    pairTexts ps = ps.map fun p => p.1.text ++ ":" ++ p.2.text := by
  induction ps with
  | nil => rfl
  | cons p ps ih => simp [pairTexts, ih]

/-- Four spaces for each step of depth, none at a depth below zero. -/
def margin (depth : Int) : String := String.join (List.replicate depth.toNat "    ")

def entry (depth : Int) (n : Node) (children : List String) : String :=
  let head := margin depth ++ n.label ++ "(expr='" ++ n.text ++ "'"
  if children.isEmpty then head ++ ")"
  else head ++ ", nodes=[" ++ ",".intercalate (children.map ("\n" ++ ·)) ++ "\n" ++ margin depth
    ++ "])"

mutual

def entries (depth : Int) : Node → List String
  | missing => []
  | bare form t => [entry depth (bare form t) []]
  | program statements => [entry depth (program statements) (listEntries (depth + 1) statements)]
  | letStmt t name value =>
    [entry depth (letStmt t name value) (name.entries (depth + 1) ++ value.entries (depth + 1))]
  | returnStmt t value => [entry depth (returnStmt t value) (value.entries (depth + 1))]
  | exprStmt t e => [entry depth (exprStmt t e) (e.entries (depth + 1))]
  | block t statements => [entry depth (block t statements) (listEntries (depth + 1) statements)]
  | ident t name => [entry depth (ident t name) []]
  | intLit t value => [entry depth (intLit t value) []]
  | boolLit t value => [entry depth (boolLit t value) []]
  | strLit t value => [entry depth (strLit t value) []]
  | unary t operator right => [entry depth (unary t operator right) (right.entries (depth + 1))]
  | binary t operator left right =>
    [entry depth (binary t operator left right)
      (left.entries (depth + 1) ++ right.entries (depth + 1))]
  | ifExpr t condition consequence alternative =>
    [entry depth (ifExpr t condition consequence alternative)
      (condition.entries (depth + 1) ++ consequence.entries (depth + 1)
        ++ alternative.entries (depth + 1))]
  | fnLit t parameters body =>
    [entry depth (fnLit t parameters body)
      (listEntries (depth + 1) parameters ++ body.entries (depth + 1))]
  | call t function arguments =>
    [entry depth (call t function arguments)
      (function.entries (depth + 1) ++ listEntries (depth + 1) arguments)]
  | arrayLit t elements => [entry depth (arrayLit t elements) (listEntries (depth + 1) elements)]
  | index t left position =>
    [entry depth (index t left position)
      (left.entries (depth + 1) ++ position.entries (depth + 1))]
  | hashLit t pairs => [entry depth (hashLit t pairs) (pairEntries (depth + 1) pairs)]

def listEntries (depth : Int) : List Node → List String
  | [] => []
  | n :: ns => n.entries depth ++ listEntries depth ns

def pairEntries (depth : Int) : List (Node × Node) → List String
  | [] => []
  | (k, v) :: ps => k.entries depth ++ v.entries depth ++ pairEntries depth ps

end

/-- The outline of a tree, its root indented `depth` times. Holes are left out. -/
def outline (n : Node) (depth : Int) : String := String.join (n.entries depth)

def summary (n : Node) : String := n.label ++ "('" ++ n.text ++ "')"

/-- Nodes are alike when form and text agree, whatever their tokens. -/
def alike (a b : Node) : Bool := a.label == b.label && a.text == b.text

end Node
end TreeWalk
