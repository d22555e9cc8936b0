import TreeWalk.Text.Digit
import TreeWalk.Text.Quoted

/-! Empty slots take the arguments in turn and numbered ones by position, but a template does not
mix the two. A brace that is meant as such is written twice. -/
namespace TreeWalk
namespace Template

inductive Fault where
  | noArgument (position : Nat)
  | unknownName (name : String)
  | hugePosition
  | loneOpen
  | loneClose
  | unclosed
  | openInSlot
  | mixedToNumbered
  | mixedToTurn
  deriving DecidableEq, Repr

/-- Why a template is not filled. -/
inductive Stop where
  | failed (f : Fault)
  /-- A slot tells how its argument is to be shown, or names a part of it. What then comes out is
  left open. -/
  | beyond
  deriving DecidableEq, Repr

def Fault.message : Fault → String
  | noArgument n => "Replacement index " ++ toString n ++ " out of range for positional args tuple"
  | unknownName name => quoted name
  | hugePosition => "Too many decimal digits in format string"
  | loneOpen => "Single '\x7b' encountered in format string"
  | loneClose => "Single '\x7d' encountered in format string"
  | unclosed => "expected '\x7d' before end of string"
  | openInSlot => "unexpected '\x7b' in field name"
  | mixedToNumbered =>
    "cannot switch from automatic field numbering to manual field specification"
  | mixedToTurn => "cannot switch from manual field specification to automatic field numbering"

inductive Numbering where
  | undecided
  | inTurn (next : Nat)
  | numbered
  deriving DecidableEq, Repr

def maxPosition : Nat := 0x7fffffffffffffff

/-- The position that a name's digits give after those read so far, `none` if it is no number. The
first digit that makes the position too large ends the reading, whatever comes behind it. -/
def positionFrom (n : Nat) : List Char → Except Fault (Option Nat)
  | [] => return some n
  | c :: rest =>
    match digit? c with
    | none => return none
    | some d =>
      if maxPosition < 10 * n + d then throw .hugePosition else positionFrom (10 * n + d) rest

def argument (args : List (List Char)) (n : Nat) : Except Fault (List Char) :=
  match args[n]? with
  | some a => .ok a
  | none => .error (.noArgument n)

def slot (args : List (List Char)) (numbering : Numbering) (name : List Char) :
    Except Fault (List Char × Numbering) := do
  if name.isEmpty then
    match numbering with
    | .undecided => return (← argument args 0, .inTurn 1)
    | .inTurn n => return (← argument args n, .inTurn (n + 1))
    | .numbered => throw .mixedToTurn
  else match ← positionFrom 0 name, numbering with
    | some _, .inTurn _ => throw .mixedToNumbered
    | some n, _ => return (← argument args n, .numbered)
    | none, _ => throw (.unknownName (String.ofList name))

def isDirective (c : Char) : Bool := c == '!' || c == ':' || c == '.' || c == '['

/-- Fills in what is left of a template. Inside a slot, `name?` holds its name so far. -/
def fillFrom (args : List (List Char)) :
    List Char → Option (List Char) → Numbering → Except Stop (List Char)
  | [], none, _ => return []
  | '{' :: '{' :: rest, none, numbering => return '{' :: (← fillFrom args rest none numbering)
  | '}' :: '}' :: rest, none, numbering => return '}' :: (← fillFrom args rest none numbering)
  | c :: rest, none, numbering =>
    if c = '{' then
      if rest.isEmpty then throw (.failed .loneOpen) else fillFrom args rest (some []) numbering
    else if c = '}' then throw (.failed .loneClose)
    else return c :: (← fillFrom args rest none numbering)
  | [], some _, _ => throw (.failed .unclosed)
  | c :: rest, some name, numbering => do
    if c = '}' then
      let (text, numbering) ← (slot args numbering name).mapError .failed
      return text ++ (← fillFrom args rest none numbering)
    else if c = '{' then throw (.failed .openInSlot)
    else if isDirective c then throw .beyond
    else fillFrom args rest (some (name ++ [c])) numbering

def fill (template : String) (args : List String) : Except Stop String :=
  (fillFrom (args.map String.toList) template.toList none .undecided).map String.ofList

def escape (text : String) : String :=
  String.ofList (text.toList.flatMap fun c => if c = '{' ∨ c = '}' then [c, c] else [c])

end Template
end TreeWalk
