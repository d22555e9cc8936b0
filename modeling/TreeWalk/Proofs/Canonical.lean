import Mathlib.Data.List.Forall2
import TreeWalk.Proofs.Lexing
import TreeWalk.Proofs.Parse.Completeness

/-! In the canonical text of a tree without holes a semicolon ends each statement, and every
operand, callee and indexed expression stands in parentheses. Reading it gives the tree back, but
for the tokens on expression statements. -/
namespace TreeWalk

def grouped (ts : List Token) : List Token := Kind.lparen.token :: (ts ++ [Kind.rparen.token])

def commas : List (List Token) → List Token
  | [] => []
  | part :: parts => part ++ parts.flatMap (Kind.comma.token :: ·)

theorem commas_cons_cons (part part' : List Token) (parts : List (List Token)) :
    commas (part :: part' :: parts) = part ++ Kind.comma.token :: commas (part' :: parts) := by
  simp [commas]

namespace Node

mutual

def written : Node → List Token
  | missing | bare .. => []
  | program statements => (writtenEach statements).flatten
  | letStmt t name value =>
    t :: (name.written ++ Kind.assign.token :: (value.written ++ [Kind.semicolon.token]))
  | returnStmt t value => t :: (value.written ++ [Kind.semicolon.token])
  | exprStmt _ e => e.written ++ [Kind.semicolon.token]
  | block t statements => t :: ((writtenEach statements).flatten ++ [Kind.rbrace.token])
  | ident t _ | intLit t _ | boolLit t _ | strLit t _ => [t]
  | unary t _ right => t :: grouped right.written
  | binary t _ left right => grouped left.written ++ t :: grouped right.written
  | ifExpr t condition consequence alternative =>
    t :: (grouped condition.written ++ consequence.written ++
      if alternative.isMissing then [] else Kind.elseWord.token :: alternative.written)
  | fnLit t parameters body => t :: (grouped (commas (writtenEach parameters)) ++ body.written)
  | call t function arguments =>
    grouped function.written ++ t :: (commas (writtenEach arguments) ++ [Kind.rparen.token])
  | arrayLit t elements => t :: (commas (writtenEach elements) ++ [Kind.rbracket.token])
  | index t left position =>
    grouped left.written ++ t :: (position.written ++ [Kind.rbracket.token])
  | hashLit t pairs => t :: (commas (writtenPairs pairs) ++ [Kind.rbrace.token])

def writtenEach : List Node → List (List Token)
  | [] => []
  | n :: ns => n.written :: writtenEach ns

def writtenPairs : List (Node × Node) → List (List Token)
  | [] => []
  | (k, v) :: ps => (k.written ++ Kind.colon.token :: v.written) :: writtenPairs ps

end

theorem writtenEach_eq_map (ns : List Node) : writtenEach ns = ns.map written := by
  induction ns with
  | nil => rfl
  | cons n ns ih => simp [writtenEach, ih]

theorem writtenPairs_eq_map (ps : List (Node × Node)) :
    writtenPairs ps = ps.map fun p => p.1.written ++ Kind.colon.token :: p.2.written := by
  induction ps with
  | nil => rfl
  | cons p ps ih => simp [writtenPairs, ih]

def canonicalText (n : Node) : String := Token.spaced n.written

mutual

/-- The tree with another token on each expression statement, chosen for its expression. -/
def marked (mark : Node → Token) : Node → Node
  | missing => missing
  | bare form t => bare form t
  | program statements => program (markedEach mark statements)
  | letStmt t name value => letStmt t (name.marked mark) (value.marked mark)
  | returnStmt t value => returnStmt t (value.marked mark)
  | exprStmt _ e => exprStmt (mark e) (e.marked mark)
  | block t statements => block t (markedEach mark statements)
  | ident t name => ident t name
  | intLit t value => intLit t value
  | boolLit t value => boolLit t value
  | strLit t value => strLit t value
  | unary t operator right => unary t operator (right.marked mark)
  | binary t operator left right => binary t operator (left.marked mark) (right.marked mark)
  | ifExpr t condition consequence alternative =>
    ifExpr t (condition.marked mark) (consequence.marked mark) (alternative.marked mark)
  | fnLit t parameters body => fnLit t (markedEach mark parameters) (body.marked mark)
  | call t function arguments => call t (function.marked mark) (markedEach mark arguments)
  | arrayLit t elements => arrayLit t (markedEach mark elements)
  | index t left position => index t (left.marked mark) (position.marked mark)
  | hashLit t pairs => hashLit t (markedPairs mark pairs)

def markedEach (mark : Node → Token) : List Node → List Node
  | [] => []
  | n :: ns => n.marked mark :: markedEach mark ns

def markedPairs (mark : Node → Token) : List (Node × Node) → List (Node × Node)
  | [] => []
  | (k, v) :: ps => (k.marked mark, v.marked mark) :: markedPairs mark ps

end

def unmarked (n : Node) : Node := n.marked fun _ => .eof

def firstToken (n : Node) : Token := front n.written

def remarked (n : Node) : Node := n.marked firstToken

mutual

/-- One token on all expression statements hides what stood on them. -/
theorem marked_const (mark : Node → Token) (t : Token) (n : Node) :
    (n.marked mark).marked (fun _ => t) = n.marked fun _ => t := by
  cases n with
  | missing | bare | ident | intLit | boolLit | strLit => rfl
  | program ss | block _ ss => simp only [marked, markedEach_const mark t ss]
  | letStmt _ a b | binary _ _ a b | index _ a b =>
    simp only [marked, marked_const mark t a, marked_const mark t b]
  | returnStmt _ a | exprStmt _ a | unary _ _ a => simp only [marked, marked_const mark t a]
  | ifExpr _ a b c =>
    simp only [marked, marked_const mark t a, marked_const mark t b, marked_const mark t c]
  | fnLit _ ns a | call _ a ns =>
    simp only [marked, marked_const mark t a, markedEach_const mark t ns]
  | arrayLit _ ns => simp only [marked, markedEach_const mark t ns]
  | hashLit _ ps => simp only [marked, markedPairs_const mark t ps]

theorem markedEach_const (mark : Node → Token) (t : Token) (ns : List Node) :
    markedEach (fun _ => t) (markedEach mark ns) = markedEach (fun _ => t) ns := by
  cases ns with
  | nil => rfl
  | cons n ns => simp only [markedEach, marked_const mark t n, markedEach_const mark t ns]

theorem markedPairs_const (mark : Node → Token) (t : Token) (ps : List (Node × Node)) :
    markedPairs (fun _ => t) (markedPairs mark ps) = markedPairs (fun _ => t) ps := by
  cases ps with
  | nil => rfl
  | cons p ps =>
    obtain ⟨k, v⟩ := p
    simp only [markedPairs, marked_const mark t k, marked_const mark t v,
      markedPairs_const mark t ps]

end

theorem unmarked_remarked (n : Node) : n.remarked.unmarked = n.unmarked := marked_const _ _ n

end Node

structure IsName (w : String) : Prop where
  ne : w ≠ ""
  letters : ∀ c ∈ w.toList, isLetter c
  notKeyword : ∀ k ∈ Kind.keywords, w ≠ k.spelling

structure IsNumeral (w : String) : Prop where
  ne : w ≠ ""
  digits : ∀ c ∈ w.toList, isDigit c
  length_le : w.toList.length ≤ maxDigits
  le : (decimalValue w.toList : Int) ≤ maxInt

def Node.named (w : String) : Node := .ident ⟨.ident, w⟩ w

inductive Form where
  | program | statement | block | expression
  deriving DecidableEq, Repr

/-- The trees that can be written: no child is missing, and every node has the token it is read
from. The token of an expression statement is left open. -/
inductive Canonical : Form → Node → Prop
  | program {ss : List Node} (statements : ∀ s ∈ ss, Canonical .statement s) :
      Canonical .program (.program ss)
  | letStmt {w : String} {e : Node} (name : IsName w) (value : Canonical .expression e) :
      Canonical .statement (.letStmt Kind.letWord.token (.named w) e)
  | returnStmt {e : Node} (value : Canonical .expression e) :
      Canonical .statement (.returnStmt Kind.returnWord.token e)
  | exprStmt {e : Node} (t : Token) (value : Canonical .expression e) :
      Canonical .statement (.exprStmt t e)
  | block {ss : List Node} (statements : ∀ s ∈ ss, Canonical .statement s) :
      Canonical .block (.block Kind.lbrace.token ss)
  | ident {w : String} (name : IsName w) : Canonical .expression (.named w)
  | int {w : String} (numeral : IsNumeral w) :
      Canonical .expression (.intLit ⟨.int, w⟩ (decimalValue w.toList))
  | str {w : String} (noQuote : ∀ c ∈ w.toList, c ≠ '"') :
      Canonical .expression (.strLit ⟨.string, w⟩ w)
  | true : Canonical .expression (.boolLit Kind.trueWord.token true)
  | false : Canonical .expression (.boolLit Kind.falseWord.token false)
  | unary {k : Kind} {e : Node} (operator : k.isUnary) (right : Canonical .expression e) :
      Canonical .expression (.unary k.token k.spelling e)
  | binary {k : Kind} {a b : Node} (operator : k.isBinary) (left : Canonical .expression a)
      (right : Canonical .expression b) : Canonical .expression (.binary k.token k.spelling a b)
  | ifThen {c a : Node} (condition : Canonical .expression c) (consequence : Canonical .block a) :
      Canonical .expression (.ifExpr Kind.ifWord.token c a .missing)
  | ifElse {c a b : Node} (condition : Canonical .expression c) (consequence : Canonical .block a)
      (alternative : Canonical .block b) :
      Canonical .expression (.ifExpr Kind.ifWord.token c a b)
  | function {ws : List String} {b : Node} (names : ∀ w ∈ ws, IsName w)
      (body : Canonical .block b) :
      Canonical .expression (.fnLit Kind.fnWord.token (ws.map .named) b)
  | call {f : Node} {args : List Node} (function : Canonical .expression f)
      (arguments : ∀ a ∈ args, Canonical .expression a) :
      Canonical .expression (.call Kind.lparen.token f args)
  | array {es : List Node} (elements : ∀ e ∈ es, Canonical .expression e) :
      Canonical .expression (.arrayLit Kind.lbracket.token es)
  | index {a i : Node} (left : Canonical .expression a) (position : Canonical .expression i) :
      Canonical .expression (.index Kind.lbracket.token a i)
  | hash {ps : List (Node × Node)} (keys : ∀ p ∈ ps, Canonical .expression p.1)
      (values : ∀ p ∈ ps, Canonical .expression p.2) :
      Canonical .expression (.hashLit Kind.lbrace.token ps)

theorem Canonical.isMissing {form : Form} {n : Node} (h : Canonical form n) :
    n.isMissing = Bool.false := by
  cases h <;> rfl

namespace Kind

theorem isFixed_of_isUnary {k : Kind} (h : k.isUnary) : k.isFixed := by
  cases k <;> simp_all [isUnary, isFixed]

theorem isFixed_of_isBinary {k : Kind} (h : k.isBinary) : k.isFixed := by
  cases k <;> simp_all [isBinary, isFixed]

end Kind

theorem IsName.ofWord {w : String} (h : IsName w) : Kind.ofWord w = .ident := by
  have hfind : Kind.keywords.find? (·.spelling == w) = none := by
    rw [List.find?_eq_none]
    intro k hk heq
    exact h.notKeyword k hk (beq_iff_eq.mp heq).symm
  rw [Kind.ofWord, hfind]
  rfl

theorem IsName.lexical {w : String} (h : IsName w) : Token.Lexical ⟨.ident, w⟩ := by
  have hlexical := Token.Lexical.word h.ne h.letters
  rwa [h.ofWord] at hlexical

theorem IsNumeral.lexical {w : String} (h : IsNumeral w) : Token.Lexical ⟨.int, w⟩ :=
  .numeral h.ne h.digits

def Spellable (ts : List Token) : Prop := ∀ t ∈ ts, t.Lexical

namespace Spellable

theorem nil : Spellable [] := List.forall_mem_nil _

theorem cons {t : Token} {ts : List Token} (ht : t.Lexical) (hts : Spellable ts) :
    Spellable (t :: ts) := List.forall_mem_cons.mpr ⟨ht, hts⟩

theorem fixed {k : Kind} {ts : List Token} (hk : k.isFixed) (hts : Spellable ts) :
    Spellable (k.token :: ts) := cons (Kind.lexical_token hk) hts

theorem append {ts us : List Token} (hts : Spellable ts) (hus : Spellable us) :
    Spellable (ts ++ us) := List.forall_mem_append.mpr ⟨hts, hus⟩

theorem grouped {ts : List Token} (h : Spellable ts) : Spellable (grouped ts) :=
  fixed rfl (append h (fixed rfl nil))

theorem flatten {parts : List (List Token)} (h : ∀ part ∈ parts, Spellable part) :
    Spellable parts.flatten := by
  intro t ht
  obtain ⟨part, hpart, ht⟩ := List.mem_flatten.mp ht
  exact h part hpart t ht

theorem commas {parts : List (List Token)} (h : ∀ part ∈ parts, Spellable part) :
    Spellable (commas parts) := by
  induction parts with
  | nil => exact nil
  | cons part parts ih =>
    obtain ⟨hpart, hparts⟩ := List.forall_mem_cons.mp h
    cases parts with
    | nil => simpa [TreeWalk.commas] using hpart
    | cons part' parts =>
      rw [commas_cons_cons]
      exact append hpart (fixed rfl (ih hparts))

theorem each {ns : List Node} (h : ∀ n ∈ ns, Spellable n.written) :
    ∀ part ∈ Node.writtenEach ns, Spellable part := by
  rw [Node.writtenEach_eq_map]
  exact List.forall_mem_map.mpr h

theorem named {w : String} (h : IsName w) : Spellable (Node.named w).written :=
  cons h.lexical nil

end Spellable

theorem Node.written_ifThen (t : Token) (c a : Node) :
    (Node.ifExpr t c a .missing).written = t :: (grouped c.written ++ a.written) := by
  simp [Node.written, Node.isMissing]

theorem Canonical.written_ifElse {b : Node} (h : Canonical .block b) (t : Token) (c a : Node) :
    (Node.ifExpr t c a b).written =
      t :: (grouped c.written ++ a.written ++ Kind.elseWord.token :: b.written) := by
  simp [Node.written, h.isMissing]

theorem Canonical.spellable {form : Form} {n : Node} (h : Canonical form n) :
    Spellable n.written := by
  induction h with
  | program _ ih => exact .flatten (.each ih)
  | letStmt name _ ih =>
    exact .fixed rfl (.append (.named name) (.fixed rfl (.append ih (.fixed rfl .nil))))
  | returnStmt _ ih => exact .fixed rfl (.append ih (.fixed rfl .nil))
  | exprStmt _ _ ih => exact .append ih (.fixed rfl .nil)
  | block _ ih => exact .fixed rfl (.append (.flatten (.each ih)) (.fixed rfl .nil))
  | ident name => exact .named name
  | int numeral => exact .cons numeral.lexical .nil
  | str noQuote =>
    exact .cons (.quoted fun c hc => beq_eq_false_iff_ne.mpr (noQuote c hc)) .nil
  | true | false => exact .fixed rfl .nil
  | unary operator _ ih => exact .fixed (Kind.isFixed_of_isUnary operator) (.grouped ih)
  | binary operator _ _ ih ih' =>
    exact .append (.grouped ih) (.fixed (Kind.isFixed_of_isBinary operator) (.grouped ih'))
  | ifThen _ _ ih ih' =>
    rw [Node.written_ifThen]
    exact .fixed rfl (.append (.grouped ih) ih')
  | ifElse _ _ alternative ih ih' ih'' =>
    rw [alternative.written_ifElse]
    exact .fixed rfl (.append (.append (.grouped ih) ih') (.fixed rfl ih''))
  | function names _ ih =>
    have hnames := Spellable.each (List.forall_mem_map.mpr fun w hw => .named (names w hw))
    exact .fixed rfl (.append (.grouped (.commas hnames)) ih)
  | call _ _ ih ih' =>
    exact .append (.grouped ih) (.fixed rfl (.append (.commas (.each ih')) (.fixed rfl .nil)))
  | array _ ih => exact .fixed rfl (.append (.commas (.each ih)) (.fixed rfl .nil))
  | index _ _ ih ih' =>
    exact .append (.grouped ih) (.fixed rfl (.append ih' (.fixed rfl .nil)))
  | hash _ _ ih ih' =>
    simp only [Node.written, Node.writtenPairs_eq_map]
    have hpairs := List.forall_mem_map.mpr fun p hp =>
      (ih p hp).append (.fixed (k := .colon) rfl (ih' p hp))
    exact .fixed rfl (.append (.commas hpairs) (.fixed rfl .nil))

theorem Canonical.written_ne_nil {e : Node} (h : Canonical .expression e) : e.written ≠ [] := by
  cases h <;> simp [Node.written, Node.named, grouped]

/-- What reading finds where a canonical node is written. An expression must not come to stand
before an `else`, which would be taken for its own. -/
def Form.Readable : Form → Node → Prop
  | .program, n => Reads (.program n.remarked) n.written []
  | .statement, n => ∀ rest, Reads (.statement n.remarked) (n.written ++ rest) rest
  | .block, n => ∀ rest, Reads (.block n.remarked) (n.written ++ rest) rest
  | .expression, n => ∀ rest, (front rest).kind ≠ .elseWord →
      ∃ top, Reads (.expression top n.remarked) (n.written ++ rest) rest

theorem reads_statements {ss : List Node} (h : ∀ s ∈ ss, Form.Readable .statement s)
    (rest : List Token) :
    Reads (.statements (Node.markedEach Node.firstToken ss))
      ((Node.writtenEach ss).flatten ++ rest) rest := by
  induction ss with
  | nil => exact .nil
  | cons s ss ih =>
    obtain ⟨hs, hss⟩ := List.forall_mem_cons.mp h
    have htail := ih hss
    have hhead := hs ((Node.writtenEach ss).flatten ++ rest)
    rw [← List.append_assoc] at hhead
    exact .cons hhead htail

/-- Tokens that are read as an expression, unless they come to stand before an `else`. -/
def ReadsAs (ts : List Token) (e : Node) : Prop :=
  ∀ rest, (front rest).kind ≠ .elseWord → ∃ top, Reads (.expression top e) (ts ++ rest) rest

theorem ReadsAs.before {ts : List Token} {e : Node} (h : ReadsAs ts e) {k : Kind}
    (hk : k ≠ .elseWord) (rest : List Token) :
    ∃ top, Reads (.expression top e) (ts ++ k.token :: rest) (k.token :: rest) :=
  h (k.token :: rest) hk

/-- What is read as an expression whose operator in the open, if it has one, has this rank at
least. -/
def Tight (rank : Nat) (e : Node) (ts rest : List Token) : Prop :=
  ∃ top, rank ≤ topRank top ∧ Reads (.expression top e) ts rest

theorem Tight.mono {rank rank' : Nat} {e : Node} {ts rest : List Token} (h : Tight rank e ts rest)
    (hle : rank' ≤ rank) : Tight rank' e ts rest := by
  obtain ⟨top, htop, hread⟩ := h
  exact ⟨top, Nat.le_trans hle htop, hread⟩

theorem Form.Readable.readsAs {e : Node} (h : Form.Readable .expression e) :
    ReadsAs e.written e.remarked := h

/-- In parentheses an expression can stand anywhere. -/
theorem reads_grouped {ts : List Token} {e : Node} (h : ReadsAs ts e) (rest : List Token) :
    Reads (.expression none e) (grouped ts ++ rest) rest := by
  obtain ⟨top, hinner⟩ := h.before (k := .rparen) (by decide) rest
  have hlist : grouped ts ++ rest = Kind.lparen.token :: (ts ++ Kind.rparen.token :: rest) := by
    simp [grouped]
  rw [hlist]
  exact .group rfl hinner rfl

/-- Expressions one after the other, each behind a comma. -/
theorem reads_moreItems {parts : List (List Token)} {es : List Node}
    (h : List.Forall₂ ReadsAs parts es) {k : Kind} (hk : k ≠ .elseWord) (rest : List Token) :
    Reads (.moreItems k es) (parts.flatMap (Kind.comma.token :: ·) ++ k.token :: rest) rest := by
  induction h with
  | nil => exact .lastItem rfl
  | @cons part e parts es he _ ih =>
    have hfirst : ∃ top, Reads (.expression top e)
        (part ++ (parts.flatMap (Kind.comma.token :: ·) ++ k.token :: rest))
        (parts.flatMap (Kind.comma.token :: ·) ++ k.token :: rest) := by
      cases parts with
      | nil => exact he.before hk rest
      | cons part' parts => exact he.before (k := .comma) (by decide) _
    obtain ⟨top, hfirst⟩ := hfirst
    simp only [List.flatMap_cons, List.cons_append, List.append_assoc]
    exact .nextItem rfl hfirst ih

theorem reads_items {parts : List (List Token)} {es : List Node}
    (h : List.Forall₂ ReadsAs parts es) {k : Kind} (hk : k ≠ .elseWord) (rest : List Token) :
    Reads (.items k es) (commas parts ++ k.token :: rest) rest := by
  have hmore := reads_moreItems h hk rest
  cases h with
  | nil => exact .noItems rfl
  | cons =>
    simp only [List.flatMap_cons, List.cons_append, List.append_assoc] at hmore
    cases hmore with
    | nextItem _ first more =>
      simp only [commas, List.append_assoc]
      exact .items first more

theorem reads_moreParameters (ws : List String) (rest : List Token) :
    Reads (.moreParameters (Node.markedEach Node.firstToken (ws.map .named)))
      ((Node.writtenEach (ws.map .named)).flatMap (Kind.comma.token :: ·) ++
        Kind.rparen.token :: rest) rest := by
  induction ws with
  | nil => exact .lastParameter rfl
  | cons w ws ih => exact .nextParameter rfl rfl ih

theorem reads_parameters (ws : List String) (rest : List Token) :
    Reads (.parameters (Node.markedEach Node.firstToken (ws.map .named)))
      (commas (Node.writtenEach (ws.map .named)) ++ Kind.rparen.token :: rest) rest := by
  cases ws with
  | nil => exact .noParameters rfl
  | cons w ws => exact .parameters rfl (reads_moreParameters ws rest)

theorem reads_pairs {parts : List (List Token × List Token)} {ps : List (Node × Node)}
    (h : List.Forall₂ (fun part p => ReadsAs part.1 p.1 ∧ ReadsAs part.2 p.2) parts ps)
    (rest : List Token) :
    Reads (.pairs ps) (commas (parts.map fun part => part.1 ++ Kind.colon.token :: part.2) ++
      Kind.rbrace.token :: rest) rest := by
  induction h with
  | nil => exact .noPairs rfl
  | @cons part p parts ps hpart hrest ih =>
    obtain ⟨hkey, hvalue⟩ := hpart
    cases hrest with
    | nil =>
      obtain ⟨_, hvalue⟩ := hvalue.before (k := .rbrace) (by decide) rest
      obtain ⟨_, hkey⟩ := hkey.before (k := .colon) (by decide)
        (part.2 ++ Kind.rbrace.token :: rest)
      simp only [List.map_cons, List.map_nil, commas, List.flatMap_nil, List.append_nil,
        List.append_assoc, List.cons_append]
      exact .lastPair hkey rfl hvalue rfl
    | @cons part' _ parts =>
      obtain ⟨_, hvalue⟩ := hvalue.before (k := .comma) (by decide)
        (commas ((part' :: parts).map fun part => part.1 ++ Kind.colon.token :: part.2) ++
          Kind.rbrace.token :: rest)
      obtain ⟨_, hkey⟩ := hkey.before (k := .colon) (by decide)
        (part.2 ++ Kind.comma.token ::
          (commas ((part' :: parts).map fun part => part.1 ++ Kind.colon.token :: part.2) ++
            Kind.rbrace.token :: rest))
      simp only [List.map_cons, commas_cons_cons, List.append_assoc, List.cons_append]
        at hkey hvalue ih ⊢
      exact .nextPair hkey rfl hvalue rfl ih

theorem readsAs_each {es : List Node} (h : ∀ e ∈ es, Form.Readable .expression e) :
    List.Forall₂ ReadsAs (Node.writtenEach es) (Node.markedEach Node.firstToken es) := by
  induction es with
  | nil => exact .nil
  | cons e es ih =>
    obtain ⟨he, hes⟩ := List.forall_mem_cons.mp h
    exact .cons he (ih hes)

theorem readsAs_pairs {ps : List (Node × Node)} (hkeys : ∀ p ∈ ps, Form.Readable .expression p.1)
    (hvalues : ∀ p ∈ ps, Form.Readable .expression p.2) :
    List.Forall₂ (fun part p => ReadsAs part.1 p.1 ∧ ReadsAs part.2 p.2)
      (ps.map fun p => (p.1.written, p.2.written)) (Node.markedPairs Node.firstToken ps) := by
  induction ps with
  | nil => exact .nil
  | cons p ps ih =>
    obtain ⟨hkey, hkeys⟩ := List.forall_mem_cons.mp hkeys
    obtain ⟨hvalue, hvalues⟩ := List.forall_mem_cons.mp hvalues
    exact .cons ⟨hkey, hvalue⟩ (ih hkeys hvalues)

section

variable {k : Kind} {a b c e f i : Node} {ts us rest : List Token}

theorem Tight.unary (operator : k.isUnary) (h : Tight Level.unary.rank e ts rest) :
    Tight Level.unary.rank (.unary k.token k.spelling e) (k.token :: ts) rest := by
  obtain ⟨top, htop, hread⟩ := h
  exact ⟨_, Nat.le_refl _, .unary operator hread htop⟩

theorem Tight.binary (operator : k.isBinary) (ha : Tight k.level.rank a ts (k.token :: us))
    (hb : Tight (k.level.rank + 1) b us rest) :
    Tight k.level.rank (.binary k.token k.spelling a b) ts rest := by
  obtain ⟨top, htop, hread⟩ := ha
  obtain ⟨top', htop', hread'⟩ := hb
  exact ⟨_, Nat.le_refl _, .binary operator hread hread' htop htop'⟩

theorem Tight.call {parts : List (List Token)} {es : List Node}
    (hf : Tight Level.call.rank f ts
      (Kind.lparen.token :: (commas parts ++ [Kind.rparen.token]) ++ rest))
    (hes : List.Forall₂ ReadsAs parts es) :
    Tight Level.call.rank (.call Kind.lparen.token f es) ts rest := by
  obtain ⟨top, htop, hread⟩ := hf
  have harguments := reads_items hes (k := .rparen) (by decide) rest
  simp only [List.cons_append, List.append_assoc, List.nil_append] at hread
  exact ⟨_, by decide, .call rfl hread harguments htop⟩

theorem Tight.index
    (ha : Tight Level.call.rank a ts
      (Kind.lbracket.token :: (us ++ [Kind.rbracket.token]) ++ rest))
    (hi : ReadsAs us i) : Tight Level.call.rank (.index Kind.lbracket.token a i) ts rest := by
  obtain ⟨top, htop, hread⟩ := ha
  obtain ⟨_, hposition⟩ := hi.before (k := .rbracket) (by decide) rest
  simp only [List.cons_append, List.append_assoc, List.nil_append] at hread
  exact ⟨_, by decide, .index rfl hread hposition rfl htop⟩

theorem tight_grouped {rank : Nat} (hrank : rank ≤ Level.call.rank) (h : ReadsAs ts e)
    (rest : List Token) : Tight rank e (grouped ts ++ rest) rest :=
  ⟨none, Nat.le_trans hrank (by decide), reads_grouped h rest⟩

theorem tight_grouped_append {rank : Nat} (hrank : rank ≤ Level.call.rank) (h : ReadsAs ts e)
    (us rest : List Token) : Tight rank e (grouped ts ++ us ++ rest) (us ++ rest) := by
  rw [List.append_assoc]
  exact tight_grouped hrank h (us ++ rest)

theorem ReadsAs.of_tight {rank : Nat} (h : ∀ rest, Tight rank e (ts ++ rest) rest) :
    ReadsAs ts e := by
  intro rest _
  obtain ⟨top, -, hread⟩ := h rest
  exact ⟨top, hread⟩

theorem ReadsAs.of_closed (h : ∀ rest, Reads (.expression none e) (ts ++ rest) rest) :
    ReadsAs ts e := fun rest _ => ⟨none, h rest⟩

theorem reads_array {parts : List (List Token)} {es : List Node}
    (h : List.Forall₂ ReadsAs parts es) (rest : List Token) :
    Reads (.expression none (.arrayLit Kind.lbracket.token es))
      (Kind.lbracket.token :: (commas parts ++ [Kind.rbracket.token]) ++ rest) rest := by
  have helements := reads_items h (k := .rbracket) (by decide) rest
  simp only [List.cons_append, List.append_assoc, List.nil_append]
  exact .array rfl helements

theorem reads_hash {parts : List (List Token × List Token)} {ps : List (Node × Node)}
    (h : List.Forall₂ (fun part p => ReadsAs part.1 p.1 ∧ ReadsAs part.2 p.2) parts ps)
    (rest : List Token) :
    Reads (.expression none (.hashLit Kind.lbrace.token ps))
      (Kind.lbrace.token :: (commas (parts.map fun part => part.1 ++ Kind.colon.token :: part.2) ++
        [Kind.rbrace.token]) ++ rest) rest := by
  have hentries := reads_pairs h rest
  simp only [List.cons_append, List.append_assoc, List.nil_append]
  exact .hash rfl hentries

theorem reads_letStmt {w : String} (h : ReadsAs ts e) (rest : List Token) :
    Reads (.statement (.letStmt Kind.letWord.token (.named w) e))
      (Kind.letWord.token :: ⟨.ident, w⟩ :: Kind.assign.token ::
        (ts ++ [Kind.semicolon.token]) ++ rest) rest := by
  obtain ⟨top, hvalue⟩ := h.before (k := .semicolon) (by decide) rest
  simp only [List.cons_append, List.append_assoc, List.nil_append]
  exact .letStmt rfl rfl rfl hvalue (.semicolon rfl)

theorem reads_returnStmt (h : ReadsAs ts e) (rest : List Token) :
    Reads (.statement (.returnStmt Kind.returnWord.token e))
      (Kind.returnWord.token :: (ts ++ [Kind.semicolon.token]) ++ rest) rest := by
  obtain ⟨top, hvalue⟩ := h.before (k := .semicolon) (by decide) rest
  simp only [List.cons_append, List.append_assoc, List.nil_append]
  exact .returnStmt rfl hvalue (.semicolon rfl)

/-- Here alone the token that is read depends on how the expression is written. -/
theorem reads_exprStmt (hts : ts ≠ []) (h : ReadsAs ts e) (rest : List Token) :
    Reads (.statement (.exprStmt (front ts) e)) (ts ++ [Kind.semicolon.token] ++ rest) rest := by
  obtain ⟨top, hvalue⟩ := h.before (k := .semicolon) (by decide) rest
  have hread := Reads.exprStmt hvalue (.semicolon rfl)
  rw [front_append hts] at hread
  rw [List.append_assoc]
  exact hread

theorem reads_block {ss : List Node} (h : ∀ rest, Reads (.statements ss) (ts ++ rest) rest)
    (rest : List Token) :
    Reads (.block (.block Kind.lbrace.token ss))
      (Kind.lbrace.token :: (ts ++ [Kind.rbrace.token]) ++ rest) rest := by
  have hbody := h (Kind.rbrace.token :: rest)
  simp only [List.cons_append, List.append_assoc, List.nil_append]
  exact .block rfl hbody rfl

theorem readsAs_ifThen (hc : ReadsAs ts c) (ha : ∀ rest, Reads (.block a) (us ++ rest) rest) :
    ReadsAs (Kind.ifWord.token :: (grouped ts ++ us)) (.ifExpr Kind.ifWord.token c a .missing) := by
  intro rest hrest
  obtain ⟨top, hcondition⟩ := hc.before (k := .rparen) (by decide) (us ++ rest)
  simp only [grouped, List.cons_append, List.append_assoc, List.nil_append]
  exact ⟨_, .ifThen rfl rfl hcondition rfl (ha rest) hrest⟩

theorem reads_ifElse {vs : List Token} (hc : ReadsAs ts c)
    (ha : ∀ rest, Reads (.block a) (us ++ rest) rest)
    (hb : ∀ rest, Reads (.block b) (vs ++ rest) rest) (rest : List Token) :
    Reads (.expression none (.ifExpr Kind.ifWord.token c a b))
      (Kind.ifWord.token :: (grouped ts ++ us ++ Kind.elseWord.token :: vs) ++ rest) rest := by
  have hconsequence := ha (Kind.elseWord.token :: (vs ++ rest))
  obtain ⟨top, hcondition⟩ := hc.before (k := .rparen) (by decide)
    (us ++ Kind.elseWord.token :: (vs ++ rest))
  simp only [grouped, List.cons_append, List.append_assoc, List.nil_append]
  exact .ifElse rfl rfl hcondition rfl hconsequence rfl (hb rest)

theorem reads_function (ws : List String) (h : ∀ rest, Reads (.block b) (us ++ rest) rest)
    (rest : List Token) :
    Reads (.expression none
        (.fnLit Kind.fnWord.token (Node.markedEach Node.firstToken (ws.map .named)) b))
      (Kind.fnWord.token :: (grouped (commas (Node.writtenEach (ws.map .named))) ++ us) ++ rest)
      rest := by
  have hnames := reads_parameters ws (us ++ rest)
  simp only [grouped, List.cons_append, List.append_assoc, List.nil_append]
  exact .function rfl rfl hnames (h rest)

end

theorem Canonical.readable {form : Form} {n : Node} (h : Canonical form n) : form.Readable n := by
  induction h with
  | program _ ih =>
    have hbody := reads_statements ih []
    rw [List.append_nil] at hbody
    exact .program hbody
  | letStmt _ _ ih => exact reads_letStmt ih.readsAs
  | returnStmt _ ih => exact reads_returnStmt ih.readsAs
  | exprStmt _ value ih => exact reads_exprStmt value.written_ne_nil ih.readsAs
  | block _ ih => exact reads_block (reads_statements ih)
  | ident => exact fun _ _ => ⟨_, .ident rfl⟩
  | int numeral => exact fun _ _ => ⟨_, .int ⟨rfl, numeral.length_le, rfl, numeral.le⟩⟩
  | str => exact fun _ _ => ⟨_, .str rfl⟩
  | true => exact fun _ _ => ⟨_, .true rfl⟩
  | false => exact fun _ _ => ⟨_, .false rfl⟩
  | unary operator _ ih =>
    exact ReadsAs.of_tight fun rest =>
      .unary operator (tight_grouped (by decide) ih.readsAs rest)
  | @binary k _ _ operator _ _ ih ih' =>
    have hlt : k.level.rank < Level.call.rank :=
      Nat.lt_trans (Kind.rank_lt_of_isBinary operator) (by decide)
    exact ReadsAs.of_tight fun rest => .binary operator
      (tight_grouped_append (Nat.le_of_lt hlt) ih.readsAs _ rest)
      (tight_grouped hlt ih'.readsAs rest)
  | ifThen _ _ ih ih' =>
    have hread := readsAs_ifThen ih.readsAs ih'
    rw [← Node.written_ifThen] at hread
    exact hread
  | ifElse _ _ alternative ih ih' ih'' =>
    have hread := ReadsAs.of_closed (reads_ifElse ih.readsAs ih' ih'')
    rw [← alternative.written_ifElse] at hread
    exact hread
  | @function ws _ _ _ ih => exact ReadsAs.of_closed (reads_function ws ih)
  | call _ _ ih ih' =>
    exact ReadsAs.of_tight fun rest =>
      .call (tight_grouped_append (Nat.le_refl _) ih.readsAs _ rest) (readsAs_each ih')
  | array _ ih => exact ReadsAs.of_closed (reads_array (readsAs_each ih))
  | index _ _ ih ih' =>
    exact ReadsAs.of_tight fun rest =>
      .index (tight_grouped_append (Nat.le_refl _) ih.readsAs _ rest) ih'.readsAs
  | @hash ps _ _ ih ih' =>
    have hread := ReadsAs.of_closed (reads_hash (readsAs_pairs ih ih'))
    rw [List.map_map] at hread
    change ReadsAs (Kind.lbrace.token :: (commas (Node.writtenPairs ps) ++ _)) _
    rw [Node.writtenPairs_eq_map]
    exact hread

/-- The canonical text of a tree without holes is read without complaint, and as that tree. -/
theorem parse_canonicalText {tree : Node} (h : Canonical .program tree) :
    ∃ tree', parse tree.canonicalText = .ok (tree', []) ∧ tree'.unmarked = tree.unmarked := by
  refine ⟨tree.remarked, ?_, tree.unmarked_remarked⟩
  unfold parse Node.canonicalText
  rw [Token.ofText_spaced h.spellable]
  exact parseTokens_of_reads h.readable

/-- `let pick = fn(x, y) { if (x < y) { return ["a b"]; } else { {true: -y}; }; }; pick(1)[0];` -/
def pickTree : Node :=
  .program
    [.letStmt Kind.letWord.token (.named "pick")
      (.fnLit Kind.fnWord.token (["x", "y"].map .named)
        (.block Kind.lbrace.token
          [.exprStmt .eof (.ifExpr Kind.ifWord.token
            (.binary Kind.lt.token "<" (.named "x") (.named "y"))
            (.block Kind.lbrace.token
              [.returnStmt Kind.returnWord.token
                (.arrayLit Kind.lbracket.token [.strLit ⟨.string, "a b"⟩ "a b"])])
            (.block Kind.lbrace.token
              [.exprStmt .eof (.hashLit Kind.lbrace.token
                [(.boolLit Kind.trueWord.token true,
                  .unary Kind.minus.token "-" (.named "y"))])]))])),
      .exprStmt .eof (.index Kind.lbracket.token
        (.call Kind.lparen.token (.named "pick") [.intLit ⟨.int, "1"⟩ 1])
        (.intLit ⟨.int, "0"⟩ 0))]

theorem parse_canonicalText_pickTree :
    Canonical .program pickTree ∧ ∃ tree', parse pickTree.canonicalText = .ok (tree', []) ∧
      tree'.unmarked = pickTree.unmarked := by
  have hx : IsName "x" := ⟨by simp, by simp [isLetter], by simp [Kind.keywords, Kind.spelling]⟩
  have hy : IsName "y" := ⟨by simp, by simp [isLetter], by simp [Kind.keywords, Kind.spelling]⟩
  have hpick : IsName "pick" :=
    ⟨by simp, by simp [isLetter], by simp [Kind.keywords, Kind.spelling]⟩
  have hone : IsNumeral "1" :=
    ⟨by simp, by simp [isDigit], by simp [maxDigits], by simp [decimalValue, maxInt]⟩
  have hzero : IsNumeral "0" :=
    ⟨by simp, by simp [isDigit], by simp [maxDigits], by simp [decimalValue, maxInt]⟩
  have hstring : Canonical .expression (.strLit ⟨.string, "a b"⟩ "a b") := .str (by simp)
  have hpair : Canonical .expression (.hashLit Kind.lbrace.token
      [(.boolLit Kind.trueWord.token true, .unary Kind.minus.token "-" (.named "y"))]) :=
    .hash (List.forall_mem_singleton.mpr .true)
      (List.forall_mem_singleton.mpr (.unary (k := .minus) rfl (.ident hy)))
  have hif := Canonical.ifElse (.binary (k := .lt) rfl (.ident hx) (.ident hy))
    (.block (List.forall_mem_singleton.mpr
      (.returnStmt (.array (List.forall_mem_singleton.mpr hstring)))))
    (.block (List.forall_mem_singleton.mpr (.exprStmt .eof hpair)))
  have hfunction := Canonical.function
    (List.forall_mem_cons.mpr ⟨hx, List.forall_mem_singleton.mpr hy⟩)
    (.block (List.forall_mem_singleton.mpr (.exprStmt .eof hif)))
  have hindex := Canonical.index
    (.call (.ident hpick) (List.forall_mem_singleton.mpr (.int hone))) (.int hzero)
  have hcanonical : Canonical .program pickTree :=
    .program (List.forall_mem_cons.mpr
      ⟨.letStmt hpick hfunction, List.forall_mem_singleton.mpr (.exprStmt .eof hindex)⟩)
  exact ⟨hcanonical, parse_canonicalText hcanonical⟩

end TreeWalk
