import Mathlib
import TreeWalk.Proofs.Canonical
import TreeWalk.Proofs.Parse.Blame

/-! The tree of a chain is told by the whole chain at once: the root is the last of the operators of
lowest level. The reader, which decides from left to right, comes to the same tree. -/
namespace TreeWalk

structure BinaryOperator where
  kind : Kind
  isBinary : kind.isBinary

namespace BinaryOperator

def token (op : BinaryOperator) : Token := op.kind.token

def rank (op : BinaryOperator) : Nat :=
  match op.kind with
  | .eq | .notEq => 2
  | .lt | .gt => 3
  | .plus | .minus => 4
  | _ => 5

theorem rank_level (op : BinaryOperator) : op.kind.level.rank = op.rank := by
  obtain ⟨k, hk⟩ := op
  cases k <;> first | rfl | cases hk

theorem rank_lt (op : BinaryOperator) : op.rank < Level.unary.rank :=
  op.rank_level ▸ Kind.rank_lt_of_isBinary op.isBinary

def node (op : BinaryOperator) (left right : Node) : Node :=
  .binary op.token op.kind.spelling left right

end BinaryOperator

structure UnaryOperator where
  kind : Kind
  isUnary : kind.isUnary

namespace UnaryOperator

def token (op : UnaryOperator) : Token := op.kind.token

def node (op : UnaryOperator) (right : Node) : Node := .unary op.token op.kind.spelling right

end UnaryOperator

/-- What operators, calls and indexes are applied to. The numerals are those of integers in range,
with any number of zeros before them. -/
inductive Atom where
  | name (w : String) (isName : IsName w)
  | bool (value : Bool)
  | numeral (w : String) (ne : w ≠ "") (digits : ∀ c ∈ w.toList, isDigit c)
      (le : (decimalValue w.toList : Int) ≤ maxInt)

namespace Atom

def token : Atom → Token
  | name w _ => ⟨.ident, w⟩
  | bool value => if value then Kind.trueWord.token else Kind.falseWord.token
  | numeral w _ _ _ => ⟨.int, w⟩

def node : Atom → Node
  | name w _ => .named w
  | bool value => .boolLit (bool value).token value
  | numeral w _ _ _ => .intLit ⟨.int, w⟩ (decimalValue w.toList)

end Atom

abbrev Links := List (BinaryOperator × Node)

/-- The last link whose operator has the lowest rank, between the links before it and behind it. -/
def cut : Links → Option (Links × (BinaryOperator × Node) × Links)
  | [] => none
  | link :: more =>
    match cut more with
    | none => some ([], link, more)
    | some (before, lowest, after) =>
      if lowest.1.rank ≤ link.1.rank then some (link :: before, lowest, after)
      else some ([], link, more)

/-- The last link of lowest rank: none before it is lower, and all behind it are higher. -/
structure Lowest (before : Links) (lowest : BinaryOperator × Node) (after : Links) : Prop where
  le : ∀ link ∈ before, lowest.1.rank ≤ link.1.rank
  lt : ∀ link ∈ after, lowest.1.rank < link.1.rank

theorem cut_eq_none {more : Links} (h : cut more = none) : more = [] := by
  cases more with
  | nil => rfl
  | cons link more =>
    rw [cut] at h
    split at h
    · cases h
    · split at h <;> cases h

theorem Lowest.of_cut {more before after : Links} {lowest : BinaryOperator × Node}
    (h : cut more = some (before, lowest, after)) :
    more = before ++ lowest :: after ∧ Lowest before lowest after := by
  induction more generalizing before lowest after with
  | nil => cases h
  | cons link more ih =>
    rw [cut] at h
    split at h
    · next hcut =>
      cases h
      obtain rfl := cut_eq_none hcut
      exact ⟨rfl, List.forall_mem_nil _, List.forall_mem_nil _⟩
    · next before' lowest' after' hcut =>
      obtain ⟨rfl, hbefore, hafter⟩ := ih hcut
      split at h
      · next hle =>
        cases h
        exact ⟨rfl, List.forall_mem_cons.mpr ⟨hle, hbefore⟩, hafter⟩
      · next hlt =>
        cases h
        have hlink := Nat.lt_of_not_le hlt
        refine ⟨rfl, List.forall_mem_nil _, List.forall_mem_append.mpr ⟨fun p hp => ?_, ?_⟩⟩
        · exact Nat.lt_of_lt_of_le hlink (hbefore p hp)
        · exact List.forall_mem_cons.mpr ⟨hlink, fun p hp => Nat.lt_trans hlink (hafter p hp)⟩

/-- There is only one such place. -/
theorem Lowest.cut_eq {before after : Links} {lowest : BinaryOperator × Node}
    (h : Lowest before lowest after) :
    cut (before ++ lowest :: after) = some (before, lowest, after) := by
  induction before with
  | nil =>
    rw [List.nil_append, cut]
    split
    · rfl
    · next hcut =>
      obtain ⟨rfl, -⟩ := Lowest.of_cut hcut
      have hlt := h.lt _ (List.mem_append_right _ List.mem_cons_self)
      rw [if_neg (Nat.not_le.mpr hlt)]
  | cons link before ih =>
    obtain ⟨hle, hbefore⟩ := List.forall_mem_cons.mp h.le
    simp only [List.cons_append, cut, ih ⟨hbefore, h.lt⟩, hle, if_true]

theorem length_of_cut {more before after : Links} {lowest : BinaryOperator × Node}
    (h : cut more = some (before, lowest, after)) :
    before.length < more.length ∧ after.length < more.length := by
  obtain ⟨rfl, -⟩ := Lowest.of_cut h
  rw [List.length_append, List.length_cons]
  omega

def nest (first : Node) (more : Links) : Node :=
  match _h : cut more with
  | none => first
  | some (before, (op, next), after) => op.node (nest first before) (nest next after)
termination_by more.length
decreasing_by
  · exact (length_of_cut _h).1
  · exact (length_of_cut _h).2

theorem nest_nil (first : Node) : nest first [] = first := by
  rw [nest]
  rfl

/-- The root is the last operator of lowest rank, over the trees of its two sides. -/
theorem nest_append (first next : Node) {op : BinaryOperator} {before after : Links}
    (h : Lowest before (op, next) after) :
    nest first (before ++ (op, next) :: after) =
      op.node (nest first before) (nest next after) := by
  rw [nest, h.cut_eq]

mutual

inductive Chain where
  | mk (first : Operand) (more : List (BinaryOperator × Operand))

/-- Signs, an atom, and the calls and indexes behind the atom. -/
inductive Operand where
  | mk (signs : List UnaryOperator) (atom : Atom) (suffixes : List Suffix)

inductive Suffix where
  | call (arguments : List Chain)
  | index (position : Chain)

end

mutual

def Chain.tree : Chain → Node
  | .mk first more => nest first.tree (linkTrees more)

def linkTrees : List (BinaryOperator × Operand) → Links
  | [] => []
  | (op, x) :: more => (op, x.tree) :: linkTrees more

def Operand.tree : Operand → Node
  | .mk signs atom suffixes => signs.foldr UnaryOperator.node (suffixTree atom.node suffixes)

def suffixTree (e : Node) : List Suffix → Node
  | [] => e
  | s :: ss => suffixTree (s.tree e) ss

def Suffix.tree (e : Node) : Suffix → Node
  | .call arguments => .call Kind.lparen.token e (chainTrees arguments)
  | .index position => .index Kind.lbracket.token e position.tree

def chainTrees : List Chain → List Node
  | [] => []
  | c :: cs => c.tree :: chainTrees cs

end

mutual

def Chain.tokens : Chain → List Token
  | .mk first more => first.tokens ++ linkTokens more

def linkTokens : List (BinaryOperator × Operand) → List Token
  | [] => []
  | (op, x) :: more => op.token :: (x.tokens ++ linkTokens more)

def Operand.tokens : Operand → List Token
  | .mk signs atom suffixes =>
    signs.map UnaryOperator.token ++ atom.token :: suffixTokens suffixes

def suffixTokens : List Suffix → List Token
  | [] => []
  | s :: ss => s.tokens ++ suffixTokens ss

def Suffix.tokens : Suffix → List Token
  | .call arguments =>
    Kind.lparen.token :: (commas (chainTokens arguments) ++ [Kind.rparen.token])
  | .index position => Kind.lbracket.token :: (position.tokens ++ [Kind.rbracket.token])

def chainTokens : List Chain → List (List Token)
  | [] => []
  | c :: cs => c.tokens :: chainTokens cs

end

theorem Atom.lexical (a : Atom) : a.token.Lexical := by
  cases a with
  | name w isName => exact isName.lexical
  | bool value => cases value <;> exact Kind.lexical_token rfl
  | numeral w ne digits => exact .numeral ne digits

mutual

theorem Chain.spellable (c : Chain) : Spellable c.tokens := by
  obtain ⟨first, more⟩ := c
  exact .append first.spellable (spellable_linkTokens more)

theorem spellable_linkTokens (more : List (BinaryOperator × Operand)) :
    Spellable (linkTokens more) := by
  match more with
  | [] => exact .nil
  | (op, x) :: more =>
    exact .fixed (Kind.isFixed_of_isBinary op.isBinary)
      (.append x.spellable (spellable_linkTokens more))

theorem Operand.spellable (x : Operand) : Spellable x.tokens := by
  obtain ⟨signs, atom, suffixes⟩ := x
  have hsigns : Spellable (signs.map UnaryOperator.token) :=
    List.forall_mem_map.mpr fun op _ => Kind.lexical_token (Kind.isFixed_of_isUnary op.isUnary)
  exact .append hsigns (.cons atom.lexical (spellable_suffixTokens suffixes))

theorem spellable_suffixTokens (ss : List Suffix) : Spellable (suffixTokens ss) := by
  match ss with
  | [] => exact .nil
  | s :: ss => exact .append s.spellable (spellable_suffixTokens ss)

theorem Suffix.spellable (s : Suffix) : Spellable s.tokens := by
  cases s with
  | call arguments =>
    exact .fixed rfl (.append (.commas (spellable_chainTokens arguments)) (.fixed rfl .nil))
  | index position => exact .fixed rfl (.append position.spellable (.fixed rfl .nil))

theorem spellable_chainTokens (cs : List Chain) : ∀ part ∈ chainTokens cs, Spellable part := by
  match cs with
  | [] => exact List.forall_mem_nil _
  | c :: cs => exact List.forall_mem_cons.mpr ⟨c.spellable, spellable_chainTokens cs⟩

end

def Short (ts : List Token) : Prop := ∀ t ∈ ts, t.isOverlong = false

namespace Short

variable {ts us : List Token}

theorem of_cons {t : Token} (h : Short (t :: ts)) : Short ts := (List.forall_mem_cons.mp h).2

theorem of_append (h : Short (ts ++ us)) : Short ts ∧ Short us := List.forall_mem_append.mp h

theorem of_commas {parts : List (List Token)} (h : Short (commas parts)) :
    ∀ part ∈ parts, Short part := by
  cases parts with
  | nil => exact List.forall_mem_nil _
  | cons part parts =>
    obtain ⟨hpart, hparts⟩ := of_append h
    refine List.forall_mem_cons.mpr ⟨hpart, fun part' hpart' t ht => ?_⟩
    exact hparts t (List.mem_flatMap.mpr ⟨part', hpart', List.mem_cons_of_mem _ ht⟩)

end Short

inductive Follows : Links → List Token → List Token → Prop
  | nil {ts : List Token} : Follows [] ts ts
  | cons {op : BinaryOperator} {next : Node} {more : Links} {ts ms rest : List Token}
      (operand : Tight Level.unary.rank next ts ms) (tail : Follows more ms rest) :
      Follows ((op, next) :: more) (op.token :: ts) rest

theorem Follows.split {before after : Links} {ts rest : List Token}
    (h : Follows (before ++ after) ts rest) :
    ∃ ms, Follows before ts ms ∧ Follows after ms rest := by
  induction before generalizing ts with
  | nil => exact ⟨ts, .nil, h⟩
  | cons link before ih =>
    cases h with
    | cons operand tail =>
      obtain ⟨ms, hbefore, hafter⟩ := ih tail
      exact ⟨ms, .cons operand hbefore, hafter⟩

theorem tight_node {op : BinaryOperator} {a b : Node} {ts ms rest : List Token}
    (left : Tight op.rank a ts (op.token :: ms)) (right : Tight (op.rank + 1) b ms rest) :
    Tight op.rank (op.node a b) ts rest := by
  rw [← op.rank_level] at left right ⊢
  exact .binary op.isBinary left right

/-- The operators in the open are those of the links, so the lowest of them can be the root. -/
theorem Follows.nest {first : Node} {more : Links} {ts ms rest : List Token}
    (h : Follows more ms rest) (hfirst : Tight Level.unary.rank first ts ms) {rank : Nat}
    (hrank : rank ≤ Level.unary.rank) (hmore : ∀ link ∈ more, rank ≤ link.1.rank) :
    Tight rank (nest first more) ts rest := by
  induction first, more using nest.induct generalizing ts ms rest rank with
  | case1 first more hcut =>
    obtain rfl := cut_eq_none hcut
    cases h
    rw [nest_nil]
    exact hfirst.mono hrank
  | case2 first more before op next after hcut ih ih' =>
    obtain ⟨rfl, hlowest⟩ := Lowest.of_cut hcut
    obtain ⟨ms', hbefore, hafter⟩ := h.split
    cases hafter with
    | cons operand tail =>
      -- On the left an operator of the same rank may stand in the open, on the right it may not.
      have hleft := ih hbefore hfirst (Nat.le_of_lt op.rank_lt) hlowest.le
      have hright := ih' tail operand op.rank_lt hlowest.lt
      rw [nest_append first next hlowest]
      exact (tight_node hleft hright).mono
        (hmore (op, next) (List.mem_append_right _ List.mem_cons_self))

theorem Atom.tight (a : Atom) (h : a.token.isOverlong = false) (rest : List Token) :
    Tight Level.call.rank a.node (a.token :: rest) rest := by
  refine ⟨none, by decide, ?_⟩
  cases a with
  | name => exact .ident rfl
  | bool value =>
    cases value with
    | true => exact .true rfl
    | false => exact .false rfl
  | numeral w _ _ le =>
    have hlength : w.toList.length ≤ maxDigits := Nat.le_of_not_lt (of_decide_eq_false h)
    exact .int ⟨rfl, hlength, rfl, le⟩

theorem tight_signs (signs : List UnaryOperator) {e : Node} {ts rest : List Token}
    (h : Tight Level.unary.rank e ts rest) :
    Tight Level.unary.rank (signs.foldr UnaryOperator.node e)
      (signs.map UnaryOperator.token ++ ts) rest := by
  induction signs with
  | nil => exact h
  | cons op signs ih => exact .unary op.isUnary ih

mutual

theorem Chain.readsAs (c : Chain) (h : Short c.tokens) : ReadsAs c.tokens c.tree := by
  obtain ⟨first, more⟩ := c
  rw [Chain.tokens] at h ⊢
  obtain ⟨hfirst, hmore⟩ := h.of_append
  have htight : ∀ rest, Tight 0 (nest first.tree (linkTrees more))
      (first.tokens ++ linkTokens more ++ rest) rest := by
    intro rest
    rw [List.append_assoc]
    exact (follows_linkTrees more hmore rest).nest (first.tight hfirst _) (Nat.zero_le _)
      fun _ _ => Nat.zero_le _
  exact .of_tight htight

theorem follows_linkTrees (more : List (BinaryOperator × Operand)) (h : Short (linkTokens more))
    (rest : List Token) : Follows (linkTrees more) (linkTokens more ++ rest) rest := by
  match more with
  | [] => exact .nil
  | (op, x) :: more =>
    rw [linkTokens] at h ⊢
    obtain ⟨hx, hmore⟩ := h.of_cons.of_append
    rw [List.cons_append, List.append_assoc]
    exact .cons (x.tight hx _) (follows_linkTrees more hmore rest)

theorem Operand.tight (x : Operand) (h : Short x.tokens) (rest : List Token) :
    Tight Level.unary.rank x.tree (x.tokens ++ rest) rest := by
  obtain ⟨signs, atom, suffixes⟩ := x
  rw [Operand.tokens] at h ⊢
  obtain ⟨-, h⟩ := h.of_append
  obtain ⟨hatom, hsuffixes⟩ := List.forall_mem_cons.mp h
  rw [List.append_assoc]
  exact tight_signs signs
    ((tight_suffixTree suffixes hsuffixes (atom.tight hatom _)).mono (by decide))

theorem tight_suffixTree (ss : List Suffix) (h : Short (suffixTokens ss)) {e : Node}
    {ts rest : List Token} (he : Tight Level.call.rank e ts (suffixTokens ss ++ rest)) :
    Tight Level.call.rank (suffixTree e ss) ts rest := by
  match ss with
  | [] => exact he
  | s :: ss =>
    rw [suffixTokens] at h he
    obtain ⟨hs, hss⟩ := h.of_append
    rw [List.append_assoc] at he
    exact tight_suffixTree ss hss (s.tight hs he)

theorem Suffix.tight (s : Suffix) (h : Short s.tokens) {e : Node} {ts rest : List Token}
    (he : Tight Level.call.rank e ts (s.tokens ++ rest)) :
    Tight Level.call.rank (s.tree e) ts rest := by
  cases s with
  | call arguments =>
    rw [Suffix.tokens] at h he
    obtain ⟨harguments, -⟩ := h.of_cons.of_append
    exact .call he (readsAs_chainTrees arguments harguments.of_commas)
  | index position =>
    rw [Suffix.tokens] at h he
    obtain ⟨hposition, -⟩ := h.of_cons.of_append
    exact .index he (position.readsAs hposition)

theorem readsAs_chainTrees (cs : List Chain) (h : ∀ part ∈ chainTokens cs, Short part) :
    List.Forall₂ ReadsAs (chainTokens cs) (chainTrees cs) := by
  match cs with
  | [] => exact .nil
  | c :: cs =>
    obtain ⟨hc, hcs⟩ := List.forall_mem_cons.mp h
    exact .cons (c.readsAs hc) (readsAs_chainTrees cs hcs)

end

/-- A chain without overlong numerals can be written, and however it is written, it is read without
complaint as one statement of the chain's tree. -/
theorem parse_chain (c : Chain) (hshort : ∀ t ∈ c.tokens, t.isOverlong = false) :
    Token.ofText (Token.spaced c.tokens) = c.tokens ∧
      ∀ source, Token.ofText source = c.tokens →
        parse source = .ok (.program [.exprStmt (front c.tokens) c.tree], []) := by
  refine ⟨Token.ofText_spaced c.spellable, fun source hsource => ?_⟩
  obtain ⟨top, hread⟩ := c.readsAs hshort [] (by decide)
  rw [List.append_nil] at hread
  unfold parse
  rw [hsource]
  exact parseTokens_of_reads (.program (.cons (.exprStmt hread (.bare (by decide) rfl)) .nil))

def Atom.operand (a : Atom) : Operand := .mk [] a []

/-- `-1 * f(1 - 2 - f)[1] == !-true < 2` -/
def mixedChain : Chain :=
  let f : Atom := .name "f" ⟨by simp, by simp [isLetter], by simp [Kind.keywords, Kind.spelling]⟩
  let one : Atom := .numeral "1" (by simp) (by simp [isDigit]) (by simp [decimalValue, maxInt])
  let two : Atom := .numeral "2" (by simp) (by simp [isDigit]) (by simp [decimalValue, maxInt])
  .mk (.mk [⟨.minus, rfl⟩] one [])
    [(⟨.asterisk, rfl⟩, .mk [] f
      [.call [.mk one.operand [(⟨.minus, rfl⟩, two.operand), (⟨.minus, rfl⟩, f.operand)]],
        .index (.mk one.operand [])]),
    (⟨.eq, rfl⟩, .mk [⟨.bang, rfl⟩, ⟨.minus, rfl⟩] (.bool true) []), (⟨.lt, rfl⟩, two.operand)]

/-- `((-1) * (f((1 - 2) - f))[1]) == ((!(-true)) < 2)` -/
def mixedTree : Node :=
  let one : Node := .intLit ⟨.int, "1"⟩ 1
  let two : Node := .intLit ⟨.int, "2"⟩ 2
  let difference : Node := .binary Kind.minus.token "-" one two
  let argument : Node := .binary Kind.minus.token "-" difference (.named "f")
  .binary Kind.eq.token "=="
    (.binary Kind.asterisk.token "*" (.unary Kind.minus.token "-" one)
      (.index Kind.lbracket.token (.call Kind.lparen.token (.named "f") [argument]) one))
    (.binary Kind.lt.token "<"
      (.unary Kind.bang.token "!"
        (.unary Kind.minus.token "-" (.boolLit Kind.trueWord.token true))) two)

theorem parse_chain_mixed :
    (∀ t ∈ mixedChain.tokens, t.isOverlong = false) ∧
      parse "-1 * f(1 - 2 - f)[1] == !-true < 2" =
        .ok (.program [.exprStmt Kind.minus.token mixedTree], []) := by
  have hshort : ∀ t ∈ mixedChain.tokens, t.isOverlong = false := by decide
  have htokens : Token.ofText "-1 * f(1 - 2 - f)[1] == !-true < 2" = mixedChain.tokens := by cbv
  have htree : mixedChain.tree = mixedTree := by cbv
  refine ⟨hshort, ?_⟩
  rw [← htree]
  exact (parse_chain mixedChain hshort).2 _ htokens

theorem decimalValue_zeros (n : Nat) : decimalValue (List.replicate n '0') = 0 := by
  induction n with
  | zero => rfl
  | succ n ih => exact ih

/-- One zero more than a numeral may have digits. -/
def longZero : String := String.ofList (List.replicate (maxDigits + 1) '0')

def longZeroChain : Chain :=
  .mk (Atom.operand (.numeral longZero (by simp [longZero]) (by simp [longZero, isDigit])
    (by simp [longZero, decimalValue_zeros, maxInt]))) []

/-- A numeral of an integer in range can still be too long. -/
theorem parse_chain_longZero :
    ¬ ∀ c : Chain, Token.ofText (Token.spaced c.tokens) = c.tokens ∧
      ∀ source, Token.ofText source = c.tokens →
        parse source = .ok (.program [.exprStmt (front c.tokens) c.tree], []) := by
  intro h
  obtain ⟨htokens, hparse⟩ := h longZeroChain
  have haudit := audit_ofText (Token.spaced longZeroChain.tokens)
  have hlong : longZeroChain.tokens.find? Token.isOverlong = some ⟨.int, longZero⟩ := by
    have hzero : Token.isOverlong ⟨.int, longZero⟩ = true := by simp [Token.isOverlong, longZero]
    exact List.find?_cons_of_pos hzero
  rw [hparse _ htokens, htokens, audit_eq_error hlong] at haudit
  cases haudit

end TreeWalk
