import TreeWalk.Token.Lexeme
import TreeWalk.Token.Numeral
import TreeWalk.Tree.Basic

/-! Statements are read by descent and expressions by climbing binding levels. Of a faulty source,
the part that cannot be read becomes a hole and reading goes on behind it; only an overlong numeral
ends it at once. That a host may have to give up where a source nests too deep is left out. -/
namespace TreeWalk

inductive Level where
  | lowest | equality | order | sum | product | unary | call | index
  deriving DecidableEq, Repr

def Level.rank : Level → Nat
  | lowest => 1 | equality => 2 | order => 3 | sum => 4 | product => 5 | unary => 6 | call => 7
  | index => 8

/-- The level at which a token extends the operand before it. -/
def Kind.level : Kind → Level
  | .eq | .notEq => .equality
  | .lt | .gt => .order
  | .plus | .minus => .sum
  | .slash | .asterisk => .product
  | .lparen => .call
  | .lbracket => .index
  | _ => .lowest

inductive Complaint where
  | expected (want got : Kind)
  | noOperand (kind : Kind)
  | outOfRange (literal : String)
  deriving DecidableEq, Repr

def Complaint.message : Complaint → String
  | expected want got =>
    "expected next token to be " ++ want.name ++ ", got " ++ got.name ++ " instead"
  | noOperand kind => "no prefix parse function for " ++ kind.name ++ " found"
  | outOfRange literal => "could not parse " ++ literal ++ " as integer"

inductive Abort where
  | overlong (digits : Nat)
  | exhausted
  deriving DecidableEq, Repr

namespace Parse

/-- What is left of the source, the current token first, and the complaints so far, latest first. -/
structure State where
  tokens : List Token
  complaints : List Complaint
  deriving DecidableEq, Repr

def State.current (s : State) : Token := s.tokens.head?.getD .eof

def State.ahead (s : State) : Token := s.tokens.tail.head?.getD .eof

end Parse

abbrev Parse := StateT Parse.State (Except Abort)

namespace Parse

def current : Parse Token := return (← get).current

def ahead : Parse Token := return (← get).ahead

def advance : Parse Unit := modify fun s => { s with tokens := s.tokens.tail }

def complain (c : Complaint) : Parse Unit :=
  modify fun s => { s with complaints := c :: s.complaints }

def expect (kind : Kind) : Parse Bool := do
  let got := (← ahead).kind
  if got = kind then
    advance
    return true
  else
    complain (.expected kind got)
    return false

def endStatement : Parse Unit := do
  if (← ahead).kind = .semicolon then advance

def name : Parse Node := do
  let t ← current
  return .ident t t.literal

def integer : Parse Node := do
  let t ← current
  let digits := t.literal.toList
  if maxDigits < digits.length then throw (.overlong digits.length)
  let value : Int := decimalValue digits
  if maxInt < value then
    complain (.outOfRange t.literal)
    return .missing
  else
    return .intLit t value

def moreParameters : Nat → Parse (Option (List Node))
  | 0 => throw .exhausted
  | steps + 1 => do
    if (← ahead).kind = .comma then
      advance
      if ← expect .ident then
        let n ← name
        return (← moreParameters steps).map (n :: ·)
      else
        return none
    else
      return if ← expect .rparen then some [] else none

def parameters (steps : Nat) : Parse (Option (List Node)) := do
  if (← ahead).kind = .rparen then
    advance
    return some []
  else if ← expect .ident then
    let n ← name
    return (← moreParameters steps).map (n :: ·)
  else
    return none

mutual

def statements : Nat → Bool → Parse (List Node)
  | 0, _ => throw .exhausted
  | steps + 1, inBlock => do
    let kind := (← current).kind
    if kind = .eof ∨ inBlock ∧ kind = .rbrace then
      return []
    else
      let s ← statement steps
      advance
      let rest ← statements steps inBlock
      return if s.isMissing then rest else s :: rest

def statement : Nat → Parse Node
  | 0 => throw .exhausted
  | steps + 1 => do
    let t ← current
    match t.kind with
    | .letWord =>
      if ← expect .ident then
        let n ← name
        if ← expect .assign then
          advance
          let value ← expression steps .lowest
          endStatement
          return .letStmt t n value
        else
          return .missing
      else
        return .missing
    | .returnWord =>
      advance
      let value ← expression steps .lowest
      endStatement
      return .returnStmt t value
    | _ =>
      let e ← expression steps .lowest
      endStatement
      return .exprStmt t e

def block : Nat → Parse Node
  | 0 => throw .exhausted
  | steps + 1 => do
    let t ← current
    advance
    return .block t (← statements steps true)

/-- An expression that holds together at a level above the one given. -/
def expression : Nat → Level → Parse Node
  | 0, _ => throw .exhausted
  | steps + 1, level => do
    match ← operand steps with
    | some left => extend steps level left
    | none => return .missing

def operand : Nat → Parse (Option Node)
  | 0 => throw .exhausted
  | steps + 1 => do
    let t ← current
    match t.kind with
    | .ident => return some (.ident t t.literal)
    | .int => return some (← integer)
    | .string => return some (.strLit t t.literal)
    | .trueWord => return some (.boolLit t true)
    | .falseWord => return some (.boolLit t false)
    | .bang | .minus =>
      advance
      return some (.unary t t.literal (← expression steps .unary))
    | .lparen =>
      advance
      let e ← expression steps .lowest
      return some (if ← expect .rparen then e else .missing)
    | .ifWord => return some (← conditional steps)
    | .fnWord => return some (← function steps)
    | .lbracket =>
      return some (((← expressions steps .rbracket).map (.arrayLit t ·)).getD .missing)
    | .lbrace => return some (((← pairs steps).map (.hashLit t ·)).getD .missing)
    | kind =>
      complain (.noOperand kind)
      return none

/-- Extends an operand to the right while the token ahead binds tighter than the level. -/
def extend : Nat → Level → Node → Parse Node
  | 0, _, _ => throw .exhausted
  | steps + 1, level, left => do
    let t ← ahead
    if level.rank < t.kind.level.rank then
      advance
      extend steps level (← extension steps t left)
    else
      return left

/-- The operand together with what the current token, an operator, makes of it. -/
def extension : Nat → Token → Node → Parse Node
  | 0, _, _ => throw .exhausted
  | steps + 1, t, left => do
    match t.kind with
    | .lparen => return ((← expressions steps .rparen).map (.call t left ·)).getD .missing
    | .lbracket =>
      advance
      let position ← expression steps .lowest
      return if ← expect .rbracket then .index t left position else .missing
    | kind =>
      advance
      return .binary t t.literal left (← expression steps kind.level)

def conditional : Nat → Parse Node
  | 0 => throw .exhausted
  | steps + 1 => do
    let t ← current
    if ← expect .lparen then
      advance
      let condition ← expression steps .lowest
      if ← expect .rparen then
        if ← expect .lbrace then
          let consequence ← block steps
          if (← ahead).kind = .elseWord then
            advance
            if ← expect .lbrace then
              return .ifExpr t condition consequence (← block steps)
            else
              return .missing
          else
            return .ifExpr t condition consequence .missing
        else
          return .missing
      else
        return .missing
    else
      return .missing

def function : Nat → Parse Node
  | 0 => throw .exhausted
  | steps + 1 => do
    let t ← current
    if ← expect .lparen then
      match ← parameters steps with
      | some ps =>
        if ← expect .lbrace then
          return .fnLit t ps (← block steps)
        else
          return .missing
      | none => return .missing
    else
      return .missing

def expressions : Nat → Kind → Parse (Option (List Node))
  | 0, _ => throw .exhausted
  | steps + 1, close => do
    if (← ahead).kind = close then
      advance
      return some []
    else
      advance
      let e ← expression steps .lowest
      return (← moreExpressions steps close).map (e :: ·)

def moreExpressions : Nat → Kind → Parse (Option (List Node))
  | 0, _ => throw .exhausted
  | steps + 1, close => do
    if (← ahead).kind = .comma then
      advance
      advance
      let e ← expression steps .lowest
      return (← moreExpressions steps close).map (e :: ·)
    else
      return if ← expect close then some [] else none

def pairs : Nat → Parse (Option (List (Node × Node)))
  | 0 => throw .exhausted
  | steps + 1 => do
    if (← ahead).kind = .rbrace then
      advance
      return some []
    else
      advance
      let key ← expression steps .lowest
      if ← expect .colon then
        advance
        let value ← expression steps .lowest
        if (← ahead).kind = .rbrace then
          return (← pairs steps).map ((key, value) :: ·)
        else if ← expect .comma then
          return (← pairs steps).map ((key, value) :: ·)
        else
          return none
      else
        return none

end

/-- The steps that reading a number of tokens may take. -/
def allowance (count : Nat) : Nat := 8 * count + 8

end Parse

def parseTokens (tokens : List Token) : Except Abort (Node × List Complaint) := do
  let (statements, s) ← (Parse.statements (Parse.allowance tokens.length) false).run ⟨tokens, []⟩
  return (.program statements, s.complaints.reverse)

def parse (source : String) : Except Abort (Node × List Complaint) :=
  parseTokens (Token.ofText source)

end TreeWalk
