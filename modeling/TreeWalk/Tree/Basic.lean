import TreeWalk.Token.Basic

/-! A child that could not be read is `missing`, so a tree exists for every source, and the trees of
faultless sources are those without holes. -/
namespace TreeWalk

inductive Bare where
  | node | statement | expression
  deriving DecidableEq, Repr

inductive Node where
  | missing
  | bare (form : Bare) (token : Token)
  | program (statements : List Node)
  | letStmt (token : Token) (name value : Node)
  | returnStmt (token : Token) (value : Node)
  | exprStmt (token : Token) (expression : Node)
  | block (token : Token) (statements : List Node)
  | ident (token : Token) (name : String)
  | intLit (token : Token) (value : Int)
  | boolLit (token : Token) (value : Bool)
  | strLit (token : Token) (value : String)
  | unary (token : Token) (operator : String) (right : Node)
  | binary (token : Token) (operator : String) (left right : Node)
  | ifExpr (token : Token) (condition consequence alternative : Node)
  | fnLit (token : Token) (parameters : List Node) (body : Node)
  | call (token : Token) (function : Node) (arguments : List Node)
  | arrayLit (token : Token) (elements : List Node)
  | index (token : Token) (left position : Node)
  | hashLit (token : Token) (pairs : List (Node × Node))
  deriving Repr, Inhabited

namespace Node

def isMissing : Node → Bool
  | missing => true
  | _ => false

def label : Node → String
  | missing => "NoneType"
  | bare .node _ => "Node"
  | bare .statement _ => "Statement"
  | bare .expression _ => "Expression"
  | program .. => "Program"
  | letStmt .. => "LetStatement"
  | returnStmt .. => "ReturnStatement"
  | exprStmt .. => "ExpressionStatement"
  | block .. => "BlockStatement"
  | ident .. => "Identifier"
  | intLit .. => "IntegerLiteral"
  | boolLit .. => "BooleanLiteral"
  | strLit .. => "StringLiteral"
  | unary .. => "PrefixExpression"
  | binary .. => "InfixExpression"
  | ifExpr .. => "IfExpression"
  | fnLit .. => "FunctionLiteral"
  | call .. => "CallExpression"
  | arrayLit .. => "ArrayLiteral"
  | index .. => "IndexExpression"
  | hashLit .. => "HashLiteral"

/-- The literal of the token a node was read from; a program's is its first statement's. -/
def tokenLiteral? : Node → Option String
  | missing => none
  | program [] => some ""
  | program (s :: _) => s.tokenLiteral?
  | bare _ t | letStmt t .. | returnStmt t .. | exprStmt t .. | block t .. | ident t ..
  | intLit t .. | boolLit t .. | strLit t .. | unary t .. | binary t .. | ifExpr t ..
  | fnLit t .. | call t .. | arrayLit t .. | index t .. | hashLit t .. => some t.literal

def bindingName? : Node → Option String
  | ident _ name => some name
  | strLit _ value => some value
  | _ => none

/-- A binding to such a node is kept under no name, so that nothing can ask for it. -/
def isAnonymous : Node → Bool
  | intLit .. | boolLit .. | letStmt .. => true
  | _ => false

end Node

end TreeWalk
