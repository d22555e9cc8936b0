namespace TreeWalk

inductive Kind where
  | illegal | eof | ident | int | string
  | assign | plus | minus | bang | asterisk | slash | lt | gt | eq | notEq
  | comma | semicolon | colon | lparen | rparen | lbrace | rbrace | lbracket | rbracket
  | fnWord | letWord | trueWord | falseWord | ifWord | elseWord | returnWord
  deriving DecidableEq, Repr

namespace Kind

def name : Kind → String
  | illegal => "ILLEGAL" | eof => "EOF" | ident => "IDENT" | int => "INT" | string => "STRING"
  | assign => "ASSIGN" | plus => "PLUS" | minus => "MINUS" | bang => "BANG"
  | asterisk => "ASTERISK" | slash => "SLASH" | lt => "LT" | gt => "GT" | eq => "EQ"
  | notEq => "NOT_EQ" | comma => "COMMA" | semicolon => "SEMICOLON" | colon => "COLON"
  | lparen => "LPAREN" | rparen => "RPAREN" | lbrace => "LBRACE" | rbrace => "RBRACE"
  | lbracket => "LBRACKET" | rbracket => "RBRACKET" | fnWord => "FUNCTION" | letWord => "LET"
  | trueWord => "TRUE" | falseWord => "FALSE" | ifWord => "IF" | elseWord => "ELSE"
  | returnWord => "RETURN"

/-- The spelling of a kind that has only one; the name of the others. -/
def spelling : Kind → String
  | assign => "=" | plus => "+" | minus => "-" | bang => "!" | asterisk => "*" | slash => "/"
  | lt => "<" | gt => ">" | eq => "==" | notEq => "!=" | comma => "," | semicolon => ";"
  | colon => ":" | lparen => "(" | rparen => ")" | lbrace => "\x7b" | rbrace => "\x7d"
  | lbracket => "[" | rbracket => "]" | fnWord => "fn" | letWord => "let" | trueWord => "true"
  | falseWord => "false" | ifWord => "if" | elseWord => "else" | returnWord => "return"
  | k => k.name

def all : List Kind :=
  [illegal, eof, ident, int, string, assign, plus, minus, bang, asterisk, slash, lt, gt, eq,
    notEq, comma, semicolon, colon, lparen, rparen, lbrace, rbrace, lbracket, rbracket, fnWord,
    letWord, trueWord, falseWord, ifWord, elseWord, returnWord]

def ofName? (s : String) : Option Kind := all.find? (·.name == s)

def keywords : List Kind :=
  [fnWord, letWord, trueWord, falseWord, ifWord, elseWord, returnWord]

/-- Keywords win over identifiers. -/
def ofWord (word : String) : Kind := (keywords.find? (·.spelling == word)).getD ident

def ofChar? : Char → Option Kind
  | '=' => some assign | '+' => some plus | '-' => some minus | '!' => some bang
  | '*' => some asterisk | '/' => some slash | '<' => some lt | '>' => some gt
  | ',' => some comma | ';' => some semicolon | ':' => some colon
  | '(' => some lparen | ')' => some rparen | '{' => some lbrace | '}' => some rbrace
  | '[' => some lbracket | ']' => some rbracket
  | _ => none

end Kind

structure Token where
  kind : Kind
  literal : String
  deriving DecidableEq, Repr

namespace Token

def eof : Token := ⟨.eof, ""⟩

def text (t : Token) : String :=
  "\x7bType:" ++ t.kind.name ++ " Literal:" ++ t.literal ++ "\x7d"

end Token

end TreeWalk
