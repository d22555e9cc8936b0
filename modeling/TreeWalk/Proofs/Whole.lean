import TreeWalk.Proofs.Lexing
import TreeWalk.Proofs.Parse.Soundness

namespace TreeWalk
namespace Node

def IsIdent : Node → Prop
  | ident .. => True
  | _ => False

/-- The trees with all their parts, except that the second branch of a condition may be missing. -/
inductive Whole : Node → Prop
  | program {ss : List Node} (statements : ∀ s ∈ ss, Whole s) : Whole (.program ss)
  | letStmt {t : Token} {name e : Node} (hname : name.IsIdent) (value : Whole e) :
      Whole (.letStmt t name e)
  | returnStmt {t : Token} {e : Node} (value : Whole e) : Whole (.returnStmt t e)
  | exprStmt {t : Token} {e : Node} (value : Whole e) : Whole (.exprStmt t e)
  | block {t : Token} {ss : List Node} (statements : ∀ s ∈ ss, Whole s) : Whole (.block t ss)
  | ident {t : Token} {name : String} : Whole (.ident t name)
  | int {t : Token} {n : Int} (range : InRange n) : Whole (.intLit t n)
  | bool {t : Token} {b : Bool} : Whole (.boolLit t b)
  | str {t : Token} {s : String} : Whole (.strLit t s)
  | unary {t : Token} {op : String} {e : Node} (right : Whole e) : Whole (.unary t op e)
  | binary {t : Token} {op : String} {a b : Node} (left : Whole a) (right : Whole b) :
      Whole (.binary t op a b)
  | ifThen {t : Token} {c a : Node} (condition : Whole c) (consequence : Whole a) :
      Whole (.ifExpr t c a .missing)
  | ifElse {t : Token} {c a b : Node} (condition : Whole c) (consequence : Whole a)
      (alternative : Whole b) : Whole (.ifExpr t c a b)
  | function {t : Token} {ps : List Node} {b : Node} (names : ∀ p ∈ ps, p.IsIdent)
      (body : Whole b) : Whole (.fnLit t ps b)
  | call {t : Token} {f : Node} {args : List Node} (function : Whole f)
      (arguments : ∀ a ∈ args, Whole a) : Whole (.call t f args)
  | array {t : Token} {es : List Node} (elements : ∀ e ∈ es, Whole e) : Whole (.arrayLit t es)
  | index {t : Token} {a i : Node} (left : Whole a) (position : Whole i) : Whole (.index t a i)
  | hash {t : Token} {ps : List (Node × Node)} (keys : ∀ p ∈ ps, Whole p.1)
      (values : ∀ p ∈ ps, Whole p.2) : Whole (.hashLit t ps)

end Node

def Phrase.Whole : Phrase → Prop
  | .program tree | .statement tree | .block tree | .expression _ tree => tree.Whole
  | .statements trees | .items _ trees | .moreItems _ trees => ∀ tree ∈ trees, tree.Whole
  | .parameters names | .moreParameters names => ∀ name ∈ names, name.IsIdent
  | .pairs trees => (∀ pair ∈ trees, pair.1.Whole) ∧ ∀ pair ∈ trees, pair.2.Whole

theorem Denotes.inRange {t : Token} {n : Int} (h : Denotes t n) : InRange n := by
  constructor
  · rw [h.eq]
    exact Int.le_trans (by decide) (Int.natCast_nonneg _)
  · exact h.le

theorem Reads.whole {p : Phrase} {ts rest : List Token} (h : Reads p ts rest) : p.Whole := by
  induction h with
  | program _ ih => exact .program ih
  | nil => exact List.forall_mem_nil _
  | cons _ _ ih ih' => exact List.forall_mem_cons.mpr ⟨ih, ih'⟩
  | letStmt _ _ _ _ _ ih => exact .letStmt trivial ih
  | returnStmt _ _ _ ih => exact .returnStmt ih
  | exprStmt _ _ ih => exact .exprStmt ih
  | block _ _ _ ih => exact .block ih
  | cutBlock _ _ ih => exact .block ih
  | ident => exact .ident
  | int ht => exact .int ht.inRange
  | str => exact .str
  | true => exact .bool
  | false => exact .bool
  | group _ _ _ ih => exact ih
  | unary _ _ _ ih => exact .unary ih
  | binary _ _ _ _ _ ih ih' => exact .binary ih ih'
  | call _ _ _ _ ih ih' => exact .call ih ih'
  | index _ _ _ _ _ ih ih' => exact .index ih ih'
  | ifThen _ _ _ _ _ _ ih ih' => exact .ifThen ih ih'
  | ifElse _ _ _ _ _ _ _ ih ih' ih'' => exact .ifElse ih ih' ih''
  | function _ _ _ _ ih ih' => exact .function ih ih'
  | array _ _ ih => exact .array ih
  | hash _ _ ih => exact .hash ih.1 ih.2
  | noItems => exact List.forall_mem_nil _
  | items _ _ ih ih' => exact List.forall_mem_cons.mpr ⟨ih, ih'⟩
  | lastItem => exact List.forall_mem_nil _
  | nextItem _ _ _ ih ih' => exact List.forall_mem_cons.mpr ⟨ih, ih'⟩
  | noParameters => exact List.forall_mem_nil _
  | parameters _ _ ih => exact List.forall_mem_cons.mpr ⟨trivial, ih⟩
  | lastParameter => exact List.forall_mem_nil _
  | nextParameter _ _ _ ih => exact List.forall_mem_cons.mpr ⟨trivial, ih⟩
  | noPairs => exact ⟨List.forall_mem_nil _, List.forall_mem_nil _⟩
  | lastPair _ _ _ _ ih ih' =>
    exact ⟨List.forall_mem_singleton.mpr ih, List.forall_mem_singleton.mpr ih'⟩
  | nextPair _ _ _ _ _ ih ih' ih'' =>
    exact ⟨List.forall_mem_cons.mpr ⟨ih, ih''.1⟩, List.forall_mem_cons.mpr ⟨ih', ih''.2⟩⟩

/-- Nothing is missing from the tree of a source without complaints. -/
theorem whole_of_parse {source : String} {tree : Node} (h : parse source = .ok (tree, [])) :
    tree.Whole :=
  (reads_of_parseTokens h (proper_tokenize _)).whole

end TreeWalk
