import TreeWalk.Token.Basic

/-! Words are longest runs of ASCII letters and underscores, numerals longest runs of ASCII digits.
A string runs to the next double quote or to the end of the source and has no escapes. -/
namespace TreeWalk

def isGap (c : Char) : Bool := c == ' ' || c == '\t' || c == '\n' || c == '\r'

def isLetter (c : Char) : Bool := c.isAlpha || c == '_'

def isDigit (c : Char) : Bool := c.isDigit

def isQuote (c : Char) : Bool := c == '"'

/-- A token with the number of characters it takes after its first one. -/
structure Lexeme where
  token : Token
  more : Nat
  deriving DecidableEq, Repr

namespace Lexeme

def run (kind : String → Kind) (p : Char → Bool) (c : Char) (rest : List Char) : Lexeme :=
  let tail := rest.takeWhile p
  let word := String.ofList (c :: tail)
  ⟨⟨kind word, word⟩, tail.length⟩

/-- A string, the opening quote already read. The closing quote is counted even where the source
ends before it. -/
def quoted (rest : List Char) : Lexeme :=
  let body := rest.takeWhile (!isQuote ·)
  ⟨⟨.string, String.ofList body⟩, body.length + 1⟩

def symbol (c : Char) (rest : List Char) : Lexeme :=
  if c == '=' && rest.head? == some '=' then ⟨⟨.eq, "=="⟩, 1⟩
  else if c == '!' && rest.head? == some '=' then ⟨⟨.notEq, "!="⟩, 1⟩
  else ⟨⟨(Kind.ofChar? c).getD .illegal, c.toString⟩, 0⟩

def start (c : Char) (rest : List Char) : Lexeme :=
  if isLetter c then run Kind.ofWord isLetter c rest
  else if isDigit c then run (fun _ => .int) isDigit c rest
  else if isQuote c then quoted rest
  else symbol c rest

end Lexeme

theorem length_dropWhile_le {α : Type} (p : α → Bool) (l : List α) :
    (l.dropWhile p).length ≤ l.length :=
  (List.dropWhile_sublist p).length_le

def tokenize (source : List Char) : List Token :=
  match _h : source.dropWhile isGap with
  | [] => []
  | c :: rest => (Lexeme.start c rest).token :: tokenize (rest.drop (Lexeme.start c rest).more)
termination_by source.length
decreasing_by
  have := length_dropWhile_le isGap source
  simp_all
  omega

namespace Token

def ofText (source : String) : List Token := tokenize source.toList

end Token

end TreeWalk
