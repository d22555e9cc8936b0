namespace TreeWalk

def isOpener (c : Char) : Bool := c == '(' || c == '[' || c == '{'

def isCloser (c : Char) : Bool := c == ')' || c == ']' || c == '}'

/-- Brackets opened less brackets closed; `inString` tells whether a string is under way. -/
def balanceFrom : Bool → List Char → Int
  | _, [] => 0
  | inString, c :: rest =>
    if c = '"' then balanceFrom (!inString) rest
    else if inString then balanceFrom inString rest
    else if isOpener c then balanceFrom inString rest + 1
    else if isCloser c then balanceFrom inString rest - 1
    else balanceFrom inString rest

def openBrackets (text : String) : Int := balanceFrom false text.toList

/-- Puts a line behind the unfinished text before it, and tells whether more is needed. -/
def joinLine (line pending : String) : String × Bool :=
  let joined := if pending.isEmpty then line else pending ++ "\n" ++ line
  (joined, decide (0 < openBrackets joined))

end TreeWalk
