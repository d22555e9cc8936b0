import TreeWalk.Tree.Parse

/-! `Reads p input rest` says that the tokens `input` begin with the phrase `p` and that exactly the
tokens `rest` are left behind it. -/
namespace TreeWalk

def front (ts : List Token) : Token := ts.head?.getD .eof

@[simp] theorem front_cons (t : Token) (ts : List Token) : front (t :: ts) = t := rfl

@[simp] theorem front_nil : front [] = .eof := rfl

theorem front_append {ts : List Token} (h : ts ≠ []) (rest : List Token) :
    front (ts ++ rest) = front ts := by
  cases ts with
  | nil => contradiction
  | cons t ts => rfl

namespace Kind

def isUnary : Kind → Bool
  | bang | minus => true
  | _ => false

def isBinary : Kind → Bool
  | eq | notEq | lt | gt | plus | minus | slash | asterisk => true
  | _ => false

theorem isBinary_of_level {k : Kind} (hlevel : k.level ≠ .lowest) (hparen : k ≠ lparen)
    (hbracket : k ≠ lbracket) : k.isBinary := by
  cases k <;> simp_all [level, isBinary]

theorem rank_lt_of_isBinary {k : Kind} (h : k.isBinary) : k.level.rank < Level.unary.rank := by
  cases k <;> simp_all [level, isBinary, Level.rank]

theorem lt_rank_of_isBinary {k : Kind} (h : k.isBinary) : Level.lowest.rank < k.level.rank := by
  cases k <;> simp_all [level, isBinary, Level.rank]

/-- The level of unary operators is no operator's level to the right of an operand. -/
theorem rank_level_ne_unary (k : Kind) : k.level.rank ≠ Level.unary.rank := by
  cases k <;> decide

def beginsExpression : Kind → Bool
  | ident | int | string | trueWord | falseWord | bang | minus | lparen | ifWord | fnWord | lbracket
  | lbrace => true
  | _ => false

def closesItems : Kind → Bool
  | rparen | rbracket => true
  | _ => false

theorem ne_of_closesItems {k : Kind} (h : k.closesItems) : k ≠ comma := by
  rintro rfl
  cases h

theorem level_of_closesItems {k : Kind} (h : k.closesItems) : k.level = .lowest := by
  cases k <;> simp_all [closesItems, level]

theorem beginsExpression_of_closesItems {k : Kind} (h : k.closesItems) :
    k.beginsExpression = false := by
  cases k <;> simp_all [closesItems, beginsExpression]

theorem beginsExpression_of_isUnary {k : Kind} (h : k.isUnary) : k.beginsExpression := by
  cases k <;> simp_all [isUnary, beginsExpression]

end Kind

namespace Level

theorem lowest_rank_le (l : Level) : lowest.rank ≤ l.rank := by cases l <;> decide

theorem ne_lowest_of_rank_lt {l m : Level} (h : l.rank < m.rank) : m ≠ lowest := by
  rintro rfl
  exact absurd h (Nat.not_lt.mpr l.lowest_rank_le)

theorem eq_lowest_of_rank_le {l : Level} (h : l.rank ≤ lowest.rank) : l = lowest := by
  cases l with
  | lowest => rfl
  | _ => exact absurd h (by decide)

end Level

/-- How tightly a written expression holds together, by the operator in the open. An atom has none,
nor has what stands in parentheses; both hold tighter than any operator. -/
def topRank : Option Level → Nat
  | none => 9
  | some l => l.rank

structure Denotes (t : Token) (n : Int) : Prop where
  kind : t.kind = .int
  length_le : t.literal.toList.length ≤ maxDigits
  eq : n = decimalValue t.literal.toList
  le : n ≤ maxInt

/-- How a statement ends: with a semicolon, or before a token that can neither end it nor go on
with its expression. -/
inductive Ends : List Token → List Token → Prop
  | semicolon {t : Token} {rest : List Token} (kind : t.kind = .semicolon) : Ends (t :: rest) rest
  | bare {rest : List Token} (kind : (front rest).kind ≠ .semicolon)
      (level : (front rest).kind.level = .lowest) : Ends rest rest

inductive Phrase where
  | program (tree : Node)
  | statements (trees : List Node)
  | statement (tree : Node)
  | block (tree : Node)
  /-- An expression with the level of its operator in the open, if it has one. -/
  | expression (top : Option Level) (tree : Node)
  /-- Expressions between commas and the token that closes them. -/
  | items (close : Kind) (trees : List Node)
  | moreItems (close : Kind) (trees : List Node)
  | parameters (trees : List Node)
  | moreParameters (trees : List Node)
  | pairs (trees : List (Node × Node))

inductive Reads : Phrase → List Token → List Token → Prop
  | program {ss : List Node} {ts : List Token} (body : Reads (.statements ss) ts []) :
      Reads (.program (.program ss)) ts []
  | nil {ts : List Token} : Reads (.statements []) ts ts
  | cons {s : Node} {ss : List Node} {ts ms rest : List Token}
      (head : Reads (.statement s) ts ms) (tail : Reads (.statements ss) ms rest) :
      Reads (.statements (s :: ss)) ts rest
  | letStmt {word name sign : Token} {top : Option Level} {e : Node} {ts ms rest : List Token}
      (hword : word.kind = .letWord) (hname : name.kind = .ident) (hsign : sign.kind = .assign)
      (value : Reads (.expression top e) ts ms) (ends : Ends ms rest) :
      Reads (.statement (.letStmt word (.ident name name.literal) e))
        (word :: name :: sign :: ts) rest
  | returnStmt {word : Token} {top : Option Level} {e : Node} {ts ms rest : List Token}
      (hword : word.kind = .returnWord)
      (value : Reads (.expression top e) ts ms) (ends : Ends ms rest) :
      Reads (.statement (.returnStmt word e)) (word :: ts) rest
  | exprStmt {top : Option Level} {e : Node} {ts ms rest : List Token}
      (value : Reads (.expression top e) ts ms) (ends : Ends ms rest) :
      Reads (.statement (.exprStmt (front ts) e)) ts rest
  | block {opening closing : Token} {ss : List Node} {ts rest : List Token}
      (hopening : opening.kind = .lbrace) (body : Reads (.statements ss) ts (closing :: rest))
      (hclosing : closing.kind = .rbrace) :
      Reads (.block (.block opening ss)) (opening :: ts) rest
  /-- Only the end of input can stand for the closing brace of a block. -/
  | cutBlock {opening : Token} {ss : List Node} {ts : List Token}
      (hopening : opening.kind = .lbrace) (body : Reads (.statements ss) ts []) :
      Reads (.block (.block opening ss)) (opening :: ts) []
  | ident {t : Token} {rest : List Token} (ht : t.kind = .ident) :
      Reads (.expression none (.ident t t.literal)) (t :: rest) rest
  | int {t : Token} {n : Int} {rest : List Token} (ht : Denotes t n) :
      Reads (.expression none (.intLit t n)) (t :: rest) rest
  | str {t : Token} {rest : List Token} (ht : t.kind = .string) :
      Reads (.expression none (.strLit t t.literal)) (t :: rest) rest
  | true {t : Token} {rest : List Token} (ht : t.kind = .trueWord) :
      Reads (.expression none (.boolLit t true)) (t :: rest) rest
  | false {t : Token} {rest : List Token} (ht : t.kind = .falseWord) :
      Reads (.expression none (.boolLit t false)) (t :: rest) rest
  | group {opening closing : Token} {top : Option Level} {e : Node} {ts rest : List Token}
      (hopening : opening.kind = .lparen) (inner : Reads (.expression top e) ts (closing :: rest))
      (hclosing : closing.kind = .rparen) :
      Reads (.expression none e) (opening :: ts) rest
  | unary {op : Token} {top : Option Level} {e : Node} {ts rest : List Token}
      (hop : op.kind.isUnary) (right : Reads (.expression top e) ts rest)
      (level : Level.unary.rank ≤ topRank top) :
      Reads (.expression (some .unary) (.unary op op.literal e)) (op :: ts) rest
  | binary {op : Token} {l r : Option Level} {a b : Node} {ts ms rest : List Token}
      (hop : op.kind.isBinary) (left : Reads (.expression l a) ts (op :: ms))
      (right : Reads (.expression r b) ms rest)
      (hleft : op.kind.level.rank ≤ topRank l) (hright : op.kind.level.rank < topRank r) :
      Reads (.expression (some op.kind.level) (.binary op op.literal a b)) ts rest
  | call {opening : Token} {top : Option Level} {f : Node} {args : List Node}
      {ts ms rest : List Token}
      (hopening : opening.kind = .lparen) (function : Reads (.expression top f) ts (opening :: ms))
      (arguments : Reads (.items .rparen args) ms rest) (level : Level.call.rank ≤ topRank top) :
      Reads (.expression (some .call) (.call opening f args)) ts rest
  | index {opening closing : Token} {l p : Option Level} {a i : Node} {ts ms rest : List Token}
      (hopening : opening.kind = .lbracket) (left : Reads (.expression l a) ts (opening :: ms))
      (position : Reads (.expression p i) ms (closing :: rest))
      (hclosing : closing.kind = .rbracket) (level : Level.call.rank ≤ topRank l) :
      Reads (.expression (some .index) (.index opening a i)) ts rest
  | ifThen {word opening closing : Token} {top : Option Level} {c a : Node}
      {ts ms rest : List Token}
      (hword : word.kind = .ifWord) (hopening : opening.kind = .lparen)
      (condition : Reads (.expression top c) ts (closing :: ms)) (hclosing : closing.kind = .rparen)
      (consequence : Reads (.block a) ms rest) (noElse : (front rest).kind ≠ .elseWord) :
      Reads (.expression none (.ifExpr word c a .missing)) (word :: opening :: ts) rest
  | ifElse {word opening closing other : Token} {top : Option Level} {c a b : Node}
      {ts ms ns rest : List Token}
      (hword : word.kind = .ifWord) (hopening : opening.kind = .lparen)
      (condition : Reads (.expression top c) ts (closing :: ms)) (hclosing : closing.kind = .rparen)
      (consequence : Reads (.block a) ms (other :: ns)) (hother : other.kind = .elseWord)
      (alternative : Reads (.block b) ns rest) :
      Reads (.expression none (.ifExpr word c a b)) (word :: opening :: ts) rest
  | function {word opening : Token} {ps : List Node} {b : Node} {ts ms rest : List Token}
      (hword : word.kind = .fnWord) (hopening : opening.kind = .lparen)
      (names : Reads (.parameters ps) ts ms) (body : Reads (.block b) ms rest) :
      Reads (.expression none (.fnLit word ps b)) (word :: opening :: ts) rest
  | array {opening : Token} {es : List Node} {ts rest : List Token}
      (hopening : opening.kind = .lbracket) (elements : Reads (.items .rbracket es) ts rest) :
      Reads (.expression none (.arrayLit opening es)) (opening :: ts) rest
  | hash {opening : Token} {ps : List (Node × Node)} {ts rest : List Token}
      (hopening : opening.kind = .lbrace) (entries : Reads (.pairs ps) ts rest) :
      Reads (.expression none (.hashLit opening ps)) (opening :: ts) rest
  | noItems {k : Kind} {closing : Token} {rest : List Token} (hclosing : closing.kind = k) :
      Reads (.items k []) (closing :: rest) rest
  | items {k : Kind} {top : Option Level} {e : Node} {es : List Node} {ts ms rest : List Token}
      (first : Reads (.expression top e) ts ms) (more : Reads (.moreItems k es) ms rest) :
      Reads (.items k (e :: es)) ts rest
  | lastItem {k : Kind} {closing : Token} {rest : List Token} (hclosing : closing.kind = k) :
      Reads (.moreItems k []) (closing :: rest) rest
  | nextItem {k : Kind} {comma : Token} {top : Option Level} {e : Node} {es : List Node}
      {ts ms rest : List Token} (hcomma : comma.kind = .comma)
      (first : Reads (.expression top e) ts ms) (more : Reads (.moreItems k es) ms rest) :
      Reads (.moreItems k (e :: es)) (comma :: ts) rest
  | noParameters {closing : Token} {rest : List Token} (hclosing : closing.kind = .rparen) :
      Reads (.parameters []) (closing :: rest) rest
  | parameters {name : Token} {ps : List Node} {ts rest : List Token} (hname : name.kind = .ident)
      (more : Reads (.moreParameters ps) ts rest) :
      Reads (.parameters (.ident name name.literal :: ps)) (name :: ts) rest
  | lastParameter {closing : Token} {rest : List Token} (hclosing : closing.kind = .rparen) :
      Reads (.moreParameters []) (closing :: rest) rest
  | nextParameter {comma name : Token} {ps : List Node} {ts rest : List Token}
      (hcomma : comma.kind = .comma) (hname : name.kind = .ident)
      (more : Reads (.moreParameters ps) ts rest) :
      Reads (.moreParameters (.ident name name.literal :: ps)) (comma :: name :: ts) rest
  | noPairs {closing : Token} {rest : List Token} (hclosing : closing.kind = .rbrace) :
      Reads (.pairs []) (closing :: rest) rest
  | lastPair {colon closing : Token} {k v : Option Level} {key value : Node}
      {ts ms rest : List Token}
      (hkey : Reads (.expression k key) ts (colon :: ms)) (hcolon : colon.kind = .colon)
      (hvalue : Reads (.expression v value) ms (closing :: rest))
      (hclosing : closing.kind = .rbrace) :
      Reads (.pairs [(key, value)]) ts rest
  | nextPair {colon comma : Token} {k v : Option Level} {key value : Node}
      {ps : List (Node × Node)} {ts ms ns rest : List Token}
      (hkey : Reads (.expression k key) ts (colon :: ms)) (hcolon : colon.kind = .colon)
      (hvalue : Reads (.expression v value) ms (comma :: ns)) (hcomma : comma.kind = .comma)
      (more : Reads (.pairs ps) ns rest) :
      Reads (.pairs ((key, value) :: ps)) ts rest

theorem Ends.level_front {ms rest : List Token} (h : Ends ms rest) :
    (front ms).kind.level = .lowest := by
  cases h with
  | semicolon hk =>
    rw [front_cons, hk]
    rfl
  | bare _ hlevel => exact hlevel

namespace Reads

theorem kind_opening {b : Node} {ts rest : List Token} (h : Reads (.block b) ts rest) :
    (front ts).kind = .lbrace := by
  cases h with
  | block hopening => exact hopening
  | cutBlock hopening => exact hopening

theorem lt_topRank {top : Option Level} {e : Node} {ts rest : List Token}
    (h : Reads (.expression top e) ts rest) : Level.lowest.rank < topRank top := by
  cases h with
  | binary hop => exact Kind.lt_rank_of_isBinary hop
  | _ => decide

/-- Behind an item stands a comma or the closing token. -/
theorem level_moreItems {k : Kind} {es : List Node} {ts rest : List Token}
    (h : Reads (.moreItems k es) ts rest) (hk : k.closesItems) :
    (front ts).kind.level = .lowest := by
  cases h with
  | lastItem hclosing =>
    rw [front_cons, hclosing]
    exact Kind.level_of_closesItems hk
  | nextItem hcomma =>
    rw [front_cons, hcomma]
    rfl

theorem beginsExpression {p : Phrase} {ts rest : List Token} (h : Reads p ts rest)
    {top : Option Level} {e : Node} (hp : p = .expression top e) :
    (front ts).kind.beginsExpression := by
  induction h generalizing top e with
  | ident ht | str ht | true ht | false ht => simp [ht, Kind.beginsExpression]
  | int ht => simp [ht.kind, Kind.beginsExpression]
  | group ht | array ht | hash ht => simp [ht, Kind.beginsExpression]
  | unary hop => exact Kind.beginsExpression_of_isUnary hop
  | binary _ _ _ _ _ ih => exact ih rfl
  | call _ _ _ _ ih => exact ih rfl
  | index _ _ _ _ _ ih => exact ih rfl
  | ifThen ht | ifElse ht | function ht => simp [ht, Kind.beginsExpression]
  | _ => cases hp

theorem front_statement {e : Node} {ts rest : List Token} (h : Reads (.statement e) ts rest) :
    (front ts).kind ≠ .eof ∧ (front ts).kind ≠ .rbrace := by
  cases h with
  | letStmt hword | returnStmt hword => simp [hword]
  | exprStmt value =>
    have hbegins := value.beginsExpression rfl
    constructor
    · intro heq
      rw [heq] at hbegins
      cases hbegins
    · intro heq
      rw [heq] at hbegins
      cases hbegins

theorem isMissing_statement {e : Node} {ts rest : List Token} (h : Reads (.statement e) ts rest) :
    e.isMissing = Bool.false := by
  cases h <;> rfl

end Reads

end TreeWalk
