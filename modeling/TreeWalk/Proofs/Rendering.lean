import Mathlib
import TreeWalk.Proofs.Parse.Canonical
import TreeWalk.Proofs.Spelling
import TreeWalk.Tree.Render

/-! The text of a tree leaves out the spaces that the scanner does not need. Without strings,
conditionals and functions, and with expression statements at the end only, it is a source of the
same tree. -/
namespace TreeWalk

namespace Node

def shown (n : Node) : List Token := Token.ofText n.text

/-- The nodes that do without strings, conditionals and functions. -/
inductive Plain : Node → Prop
  | letStmt (t : Token) {name value : Node} (hname : Plain name) (hvalue : Plain value) :
      Plain (.letStmt t name value)
  | returnStmt (t : Token) {value : Node} (hvalue : Plain value) : Plain (.returnStmt t value)
  | exprStmt (t : Token) {e : Node} (he : Plain e) : Plain (.exprStmt t e)
  | ident (t : Token) (name : String) : Plain (.ident t name)
  | intLit (t : Token) (value : Int) : Plain (.intLit t value)
  | boolLit (t : Token) (value : Bool) : Plain (.boolLit t value)
  | unary (t : Token) (operator : String) {right : Node} (hright : Plain right) :
      Plain (.unary t operator right)
  | binary (t : Token) (operator : String) {left right : Node} (hleft : Plain left)
      (hright : Plain right) : Plain (.binary t operator left right)
  | call (t : Token) {function : Node} {arguments : List Node} (hfunction : Plain function)
      (harguments : ∀ a ∈ arguments, Plain a) : Plain (.call t function arguments)
  | arrayLit (t : Token) {elements : List Node} (helements : ∀ e ∈ elements, Plain e) :
      Plain (.arrayLit t elements)
  | index (t : Token) {left position : Node} (hleft : Plain left) (hposition : Plain position) :
      Plain (.index t left position)
  | hashLit (t : Token) {pairs : List (Node × Node)} (hkeys : ∀ p ∈ pairs, Plain p.1)
      (hvalues : ∀ p ∈ pairs, Plain p.2) : Plain (.hashLit t pairs)

end Node

/-- An expression whose text is read as the expression wherever it stands, even as a callee. -/
structure Legible (e : Node) : Prop where
  spells : Spells e.text e.shown
  tight : ∀ rest, Tight Level.call.rank e (e.shown ++ rest) rest

namespace Legible

variable {e : Node}

theorem of_spells {ts : List Token} (hspells : Spells e.text ts)
    (htight : ∀ rest, Tight Level.call.rank e (ts ++ rest) rest) : Legible e := by
  obtain rfl : e.shown = ts := hspells.ofText
  exact ⟨hspells, htight⟩

theorem of_token {t : Token} (ht : t.Lexical) (htext : e.text = t.spelled)
    (hreads : ∀ rest, Reads (.expression none e) (t :: rest) rest) : Legible e :=
  of_spells (htext ▸ spells_token ht) fun rest => ⟨none, by decide, hreads rest⟩

/-- What is shown in parentheses is read as what stands in them. -/
theorem of_grouped {inner : String} {ts : List Token} (htext : e.text = "(" ++ inner ++ ")")
    (hspells : Spells inner ts) (hreads : ReadsAs ts e) : Legible e :=
  of_spells (htext ▸ hspells.grouped) fun rest => ⟨none, by decide, reads_grouped hreads rest⟩

variable (h : Legible e)
include h

theorem readsAs : ReadsAs e.shown e := .of_tight h.tight

theorem shown_ne_nil : e.shown ≠ [] := by
  obtain ⟨top, -, hread⟩ := h.tight []
  intro hnil
  have hbegins := hread.beginsExpression rfl
  rw [hnil] at hbegins
  cases hbegins

theorem text_ne_empty : e.text ≠ "" := by
  intro hempty
  refine h.shown_ne_nil ?_
  rw [Node.shown, hempty]
  exact tokenize_nil

theorem head?_ne : e.text.toList.head? ≠ some '=' := by
  obtain ⟨top, -, hread⟩ := h.tight []
  have hbegins := hread.beginsExpression rfl
  rw [List.append_nil, Node.shown, Token.ofText] at hbegins
  obtain ⟨c, cs, hc⟩ := Token.exists_cons_of_ne_empty h.text_ne_empty
  rw [hc] at hbegins ⊢
  intro hequal
  cases hequal
  rw [tokenize_cons (by decide), front_cons] at hbegins
  have hstart : Lexeme.start '=' cs = Lexeme.symbol '=' cs := rfl
  rw [hstart, Lexeme.symbol] at hbegins
  split at hbegins
  · cases hbegins
  · cases hbegins

end Legible

theorem legible_each {es : List Node} (h : ∀ e ∈ es, Legible e) :
    List.Forall₂ Spells (es.map Node.text) (es.map Node.shown) ∧
      List.Forall₂ ReadsAs (es.map Node.shown) es := by
  constructor
  · rw [List.forall₂_map_left_iff, List.forall₂_map_right_iff]
    exact List.forall₂_same.mpr fun e he => (h e he).spells
  · rw [List.forall₂_map_left_iff]
    exact List.forall₂_same.mpr fun e he => (h e he).readsAs

theorem legible_pairs {ps : List (Node × Node)} (hkeys : ∀ p ∈ ps, Legible p.1)
    (hvalues : ∀ p ∈ ps, Legible p.2) :
    List.Forall₂ Spells (ps.map fun p => p.1.text ++ ":" ++ p.2.text)
        (ps.map fun p => p.1.shown ++ Kind.colon.token :: p.2.shown) ∧
      List.Forall₂ (fun part p => ReadsAs part.1 p.1 ∧ ReadsAs part.2 p.2)
        (ps.map fun p => (p.1.shown, p.2.shown)) ps := by
  constructor
  · rw [List.forall₂_map_left_iff, List.forall₂_map_right_iff]
    exact List.forall₂_same.mpr fun p hp => spells_pair (hkeys p hp).spells (hvalues p hp).spells
  · rw [List.forall₂_map_left_iff]
    exact List.forall₂_same.mpr fun p hp => ⟨(hkeys p hp).readsAs, (hvalues p hp).readsAs⟩

namespace Legible

variable {k : Kind} {a b e f i : Node} {es : List Node} {ps : List (Node × Node)}

theorem unary (operator : k.isUnary) (h : Legible e) :
    Legible (.unary k.token k.spelling e) := by
  have htext : (Node.unary k.token k.spelling e).text = "(" ++ (k.spelling ++ e.text) ++ ")" := by
    simp [Node.text, String.append_assoc]
  refine .of_grouped htext (spells_unary operator h.spells h.head?_ne) ?_
  exact .of_tight fun rest => .unary operator ((h.tight rest).mono (by decide))

theorem binary (operator : k.isBinary) (ha : Legible a) (hb : Legible b) :
    Legible (.binary k.token k.spelling a b) := by
  have htext : (Node.binary k.token k.spelling a b).text =
      "(" ++ (a.text ++ " " ++ k.spelling ++ " " ++ b.text) ++ ")" := by
    simp [Node.text, String.append_assoc]
  have hlt : k.level.rank < Level.call.rank :=
    Nat.lt_trans (Kind.rank_lt_of_isBinary operator) (by decide)
  have htight : ∀ rest, Tight k.level.rank (.binary k.token k.spelling a b)
      (a.shown ++ k.token :: b.shown ++ rest) rest := by
    intro rest
    rw [List.append_assoc]
    exact .binary operator ((ha.tight _).mono (Nat.le_of_lt hlt)) ((hb.tight rest).mono hlt)
  exact .of_grouped htext (spells_binary operator ha.spells hb.spells) (.of_tight htight)

theorem call (hf : Legible f) (hargs : ∀ a ∈ es, Legible a) :
    Legible (.call Kind.lparen.token f es) := by
  obtain ⟨hspells, hreads⟩ := legible_each hargs
  have htext : (Node.call Kind.lparen.token f es).text =
      f.text ++ ("(" ++ ", ".intercalate (es.map Node.text) ++ ")") := by
    simp [Node.text, Node.texts_eq_map, String.append_assoc]
  have henclosed := spells_enclosed (o := '(') (c := ')') hspells rfl (by decide) rfl (by decide)
  -- The callee stands without parentheses, so nothing looser than a call may be in the open.
  have hcall := hf.spells.append henclosed fun rest => by simpa using apart_cons (by decide) _
  refine .of_spells (htext ▸ hcall) fun rest => ?_
  rw [List.append_assoc]
  exact .call (hf.tight _) hreads

theorem array (helements : ∀ e ∈ es, Legible e) : Legible (.arrayLit Kind.lbracket.token es) := by
  obtain ⟨hspells, hreads⟩ := legible_each helements
  have htext : (Node.arrayLit Kind.lbracket.token es).text =
      "[" ++ ", ".intercalate (es.map Node.text) ++ "]" := by
    simp [Node.text, Node.texts_eq_map]
  have henclosed := spells_enclosed (o := '[') (c := ']') hspells rfl (by decide) rfl (by decide)
  exact .of_spells (htext ▸ henclosed) fun rest => ⟨none, by decide, reads_array hreads rest⟩

theorem index (ha : Legible a) (hi : Legible i) : Legible (.index Kind.lbracket.token a i) := by
  have htext : (Node.index Kind.lbracket.token a i).text =
      "(" ++ (a.text ++ ("[" ++ i.text ++ "]")) ++ ")" := by
    simp [Node.text, String.append_assoc]
  have henclosed := hi.spells.enclosed (o := '[') (c := ']') rfl (by decide) rfl (by decide)
  have hindex := ha.spells.append henclosed fun rest => by simpa using apart_cons (by decide) _
  have htight : ∀ rest, Tight Level.call.rank (.index Kind.lbracket.token a i)
      (a.shown ++ Kind.lbracket.token :: (i.shown ++ [Kind.rbracket.token]) ++ rest) rest := by
    intro rest
    rw [List.append_assoc]
    exact .index (ha.tight _) hi.readsAs
  exact .of_grouped htext hindex (.of_tight htight)

theorem hash (hkeys : ∀ p ∈ ps, Legible p.1) (hvalues : ∀ p ∈ ps, Legible p.2) :
    Legible (.hashLit Kind.lbrace.token ps) := by
  obtain ⟨hspells, hreads⟩ := legible_pairs hkeys hvalues
  have htext : (Node.hashLit Kind.lbrace.token ps).text =
      "\x7b" ++ ", ".intercalate (ps.map fun p => p.1.text ++ ":" ++ p.2.text) ++ "\x7d" := by
    simp [Node.text, Node.pairTexts_eq_map]
  have henclosed :=
    spells_enclosed (o := '\x7b') (c := '\x7d') hspells rfl (by decide) rfl (by decide)
  refine .of_spells (htext ▸ henclosed) fun rest => ⟨none, by decide, ?_⟩
  have hread := reads_hash hreads rest
  rw [List.map_map] at hread
  exact hread

end Legible

theorem Canonical.legible {form : Form} {e : Node} (h : Canonical form e)
    (hform : form = .expression) (hplain : e.Plain) : Legible e := by
  induction h with
  | program | letStmt | returnStmt | exprStmt | block => cases hform
  | str | ifThen | ifElse | function => cases hplain
  | ident name => exact .of_token name.lexical rfl fun _ => .ident rfl
  | int numeral =>
    exact .of_token numeral.lexical rfl fun _ => .int ⟨rfl, numeral.length_le, rfl, numeral.le⟩
  | true => exact .of_token (Kind.lexical_token (k := .trueWord) rfl) rfl fun _ => .true rfl
  | false => exact .of_token (Kind.lexical_token (k := .falseWord) rfl) rfl fun _ => .false rfl
  | unary operator _ ih =>
    cases hplain with
    | unary _ _ hright => exact .unary operator (ih rfl hright)
  | binary operator _ _ ih ih' =>
    cases hplain with
    | binary _ _ hleft hright => exact .binary operator (ih rfl hleft) (ih' rfl hright)
  | call _ _ ih ih' =>
    cases hplain with
    | call _ hfunction hargs =>
      exact .call (ih rfl hfunction) fun a ha => ih' a ha rfl (hargs a ha)
  | array _ ih =>
    cases hplain with
    | arrayLit _ helements => exact .array fun e he => ih e he rfl (helements e he)
  | index _ _ ih ih' =>
    cases hplain with
    | index _ hleft hposition => exact .index (ih rfl hleft) (ih' rfl hposition)
  | hash _ _ ih ih' =>
    cases hplain with
    | hashLit _ hkeys hvalues =>
      exact .hash (fun p hp => ih p hp rfl (hkeys p hp)) fun p hp => ih' p hp rfl (hvalues p hp)

/-- A statement that is shown with its end, so that anything may follow its text. -/
structure SelfEnding (s : Node) : Prop where
  tokenize_text : ∀ more, tokenize (s.text.toList ++ more) = s.shown ++ tokenize more
  reads : ∀ rest, Reads (.statement s) (s.shown ++ rest) rest

theorem SelfEnding.of_tokenize {s : Node} {ts : List Token}
    (htext : ∀ more, tokenize (s.text.toList ++ more) = ts ++ tokenize more)
    (hreads : ∀ rest, Reads (.statement s) (ts ++ rest) rest) : SelfEnding s := by
  have hshown := htext []
  rw [tokenize_nil, List.append_nil, List.append_nil] at hshown
  obtain rfl : s.shown = ts := hshown
  exact ⟨htext, hreads⟩

theorem Legible.tokenize_semicolon {e : Node} (h : Legible e) (more : List Char) :
    tokenize (e.text.toList ++ ';' :: more) =
      e.shown ++ Kind.semicolon.token :: tokenize more := by
  rw [h.spells _ (apart_cons (by decide) _), Kind.tokenize_sign rfl (by decide)]

theorem selfEnding_letStmt {w : String} {e : Node} (hname : IsName w) (h : Legible e) :
    SelfEnding (.letStmt Kind.letWord.token (.named w) e) := by
  have htext : ∀ more,
      tokenize ((Node.letStmt Kind.letWord.token (.named w) e).text.toList ++ more) =
        (Kind.letWord.token :: ⟨.ident, w⟩ :: Kind.assign.token ::
          (e.shown ++ [Kind.semicolon.token])) ++ tokenize more := by
    intro more
    have hlist : (Node.letStmt Kind.letWord.token (.named w) e).text.toList ++ more =
        Kind.letWord.spelling.toList ++ ' ' :: (w.toList ++ ' ' ::
          (Kind.assign.spelling.toList ++ ' ' :: (e.text.toList ++ ';' :: more))) := by
      simp [Node.text, Node.named, Kind.token, Kind.spelling]
    have hw : Spells w [⟨.ident, w⟩] := spells_token hname.lexical
    rw [hlist, Kind.tokenize_spaced rfl, hw _ (apart_cons (by decide) _), tokenize_gap (by decide),
      Kind.tokenize_spaced rfl, h.tokenize_semicolon]
    simp
  exact .of_tokenize htext (reads_letStmt h.readsAs)

theorem selfEnding_returnStmt {e : Node} (h : Legible e) :
    SelfEnding (.returnStmt Kind.returnWord.token e) := by
  have htext : ∀ more, tokenize ((Node.returnStmt Kind.returnWord.token e).text.toList ++ more) =
      (Kind.returnWord.token :: (e.shown ++ [Kind.semicolon.token])) ++ tokenize more := by
    intro more
    have hlist : (Node.returnStmt Kind.returnWord.token e).text.toList ++ more =
        Kind.returnWord.spelling.toList ++ ' ' :: (e.text.toList ++ ';' :: more) := by
      simp [Node.text, Kind.token, Kind.spelling]
    rw [hlist, Kind.tokenize_spaced rfl, h.tokenize_semicolon]
    simp
  exact .of_tokenize htext (reads_returnStmt h.readsAs)

namespace Node

def endsItself : Node → Bool
  | letStmt .. | returnStmt .. => true
  | _ => false

/-- The programs of plain statements of which only the last can be an expression. -/
inductive Linear : Node → Prop
  | program {statements : List Node} (plain : ∀ s ∈ statements, Plain s)
      (closed : ∀ s ∈ statements.dropLast, s.endsItself) : Linear (.program statements)

theorem text_exprStmt (t : Token) {e : Node} (h : e.isMissing = false) :
    (exprStmt t e).text = e.text := by
  cases e <;> first | rfl | cases h

end Node

theorem Canonical.selfEnding {s : Node} (h : Canonical .statement s) (hplain : s.Plain)
    (hends : s.endsItself) : SelfEnding s := by
  cases h with
  | letStmt name value =>
    cases hplain with
    | letStmt _ _ hvalue => exact selfEnding_letStmt name (value.legible rfl hvalue)
  | returnStmt value =>
    cases hplain with
    | returnStmt _ hvalue => exact selfEnding_returnStmt (value.legible rfl hvalue)
  | exprStmt => cases hends

/-- The last statement, with the token that its text begins with if it is an expression. -/
theorem Canonical.reads_last {s : Node} (h : Canonical .statement s) (hplain : s.Plain) :
    ∃ s', Reads (.statement s') s.shown [] ∧ s'.unmarked = s.unmarked ∧ s'.text = s.text := by
  cases hends : s.endsItself with
  | true =>
    have hread := (h.selfEnding hplain hends).reads []
    rw [List.append_nil] at hread
    exact ⟨s, hread, rfl, rfl⟩
  | false =>
    cases h with
    | letStmt | returnStmt => cases hends
    | @exprStmt e t value =>
      cases hplain with
      | exprStmt _ he =>
        obtain ⟨top, -, hread⟩ := (value.legible rfl he).tight []
        have htext := fun t => Node.text_exprStmt t value.isMissing
        have hshown : (Node.exprStmt t e).shown = e.shown := congrArg Token.ofText (htext t)
        rw [List.append_nil] at hread
        rw [hshown]
        exact ⟨.exprStmt (front e.shown) e, .exprStmt hread (.bare (by decide) rfl), rfl,
          (htext _).trans (htext t).symm⟩

theorem reads_texts {ss : List Node} (h : ∀ s ∈ ss, Canonical .statement s)
    (hplain : ∀ s ∈ ss, s.Plain) (hclosed : ∀ s ∈ ss.dropLast, s.endsItself) :
    ∃ ss', Reads (.statements ss') (tokenize (String.join (Node.texts ss)).toList) [] ∧
      Node.markedEach (fun _ => .eof) ss' = Node.markedEach (fun _ => .eof) ss ∧
      Node.texts ss' = Node.texts ss := by
  induction ss with
  | nil => exact ⟨[], tokenize_nil ▸ .nil, rfl, rfl⟩
  | cons s ss ih =>
    obtain ⟨hs, hss⟩ := List.forall_mem_cons.mp h
    obtain ⟨hsplain, hssplain⟩ := List.forall_mem_cons.mp hplain
    have hlist : (String.join (Node.texts (s :: ss))).toList =
        s.text.toList ++ (String.join (Node.texts ss)).toList := by
      simp [Node.texts]
    cases ss with
    | nil =>
      obtain ⟨s', hread, hunmarked, htext⟩ := hs.reads_last hsplain
      have hone : String.join (Node.texts [s]) = s.text := by simp [Node.texts]
      exact ⟨[s'], .cons (hone ▸ hread) .nil, congrArg (· :: []) hunmarked,
        congrArg (· :: []) htext⟩
    | cons s' ss =>
      rw [List.dropLast_cons_cons] at hclosed
      obtain ⟨hsclosed, hssclosed⟩ := List.forall_mem_cons.mp hclosed
      obtain ⟨ss', hread, hunmarked, htext⟩ := ih hss hssplain hssclosed
      have hself := hs.selfEnding hsplain hsclosed
      rw [hlist, hself.tokenize_text]
      exact ⟨s :: ss', .cons (hself.reads _) hread, congrArg (s.unmarked :: ·) hunmarked,
        congrArg (s.text :: ·) htext⟩

theorem Canonical.reads_back {tree : Node} (h : Canonical .program tree) (hlinear : tree.Linear) :
    ∃ tree', parse tree.text = .ok (tree', []) ∧ tree'.unmarked = tree.unmarked ∧
      tree'.text = tree.text := by
  cases hlinear with
  | @program ss hplain hclosed =>
    cases h with
    | program statements =>
      obtain ⟨ss', hread, hunmarked, htext⟩ := reads_texts statements hplain hclosed
      refine ⟨.program ss', ?_, congrArg Node.program hunmarked, congrArg String.join htext⟩
      unfold parse Token.ofText
      exact parseTokens_of_reads (.program hread)

/-- What a source without complaints shows is a source of the same tree, but for the tokens on its
expression statements, and shows the same. -/
theorem parse_text {source : String} {tree : Node} (h : parse source = .ok (tree, []))
    (hlinear : tree.Linear) :
    ∃ tree', parse tree.text = .ok (tree', []) ∧ tree'.unmarked = tree.unmarked ∧
      tree'.text = tree.text :=
  (canonical_of_parse h).reads_back hlinear

/-- `let a = -007 {true: a}[a == [](a)];` -/
def lookupTree : Node :=
  .program
    [.letStmt Kind.letWord.token (.named "a")
      (.unary Kind.minus.token "-" (.intLit ⟨.int, "007"⟩ 7)),
      .exprStmt Kind.lbrace.token (.index Kind.lbracket.token
        (.hashLit Kind.lbrace.token [(.boolLit Kind.trueWord.token true, .named "a")])
        (.binary Kind.eq.token "==" (.named "a")
          (.call Kind.lparen.token (.arrayLit Kind.lbracket.token []) [.named "a"])))]

theorem parse_text_lookupTree :
    parse "let a = -007 \x7btrue: a\x7d[a == [](a)];" = .ok (lookupTree, []) ∧
      lookupTree.Linear ∧ ∃ tree', parse lookupTree.text = .ok (tree', []) ∧
        tree'.unmarked = lookupTree.unmarked ∧ tree'.text = lookupTree.text := by
  have hparse : parse "let a = -007 \x7btrue: a\x7d[a == [](a)];" = .ok (lookupTree, []) := by cbv
  have hname : (Node.named "a").Plain := .ident _ _
  have hentry : (Node.hashLit Kind.lbrace.token
      [(.boolLit Kind.trueWord.token true, .named "a")]).Plain :=
    .hashLit _ (List.forall_mem_singleton.mpr (.boolLit _ _)) (List.forall_mem_singleton.mpr hname)
  have hcall :
      (Node.call Kind.lparen.token (.arrayLit Kind.lbracket.token []) [.named "a"]).Plain :=
    .call _ (.arrayLit _ (List.forall_mem_nil _)) (List.forall_mem_singleton.mpr hname)
  have hlinear : lookupTree.Linear :=
    .program (List.forall_mem_cons.mpr ⟨.letStmt _ hname (.unary _ _ (.intLit _ _)),
      List.forall_mem_singleton.mpr
        (.exprStmt _ (.index _ hentry (.binary _ _ hname hcall)))⟩) (by simp [Node.endsItself])
  exact ⟨hparse, hlinear, parse_text hparse hlinear⟩

namespace Node

mutual

def shape : Node → Node
  | missing => missing
  | bare form _ => bare form .eof
  | program statements => program (shapes statements)
  | letStmt _ name value => letStmt .eof name.shape value.shape
  | returnStmt _ value => returnStmt .eof value.shape
  | exprStmt _ e => exprStmt .eof e.shape
  | block _ statements => block .eof (shapes statements)
  | ident _ name => ident .eof name
  | intLit _ value => intLit .eof value
  | boolLit _ value => boolLit .eof value
  | strLit _ value => strLit .eof value
  | unary _ operator right => unary .eof operator right.shape
  | binary _ operator left right => binary .eof operator left.shape right.shape
  | ifExpr _ condition consequence alternative =>
    ifExpr .eof condition.shape consequence.shape alternative.shape
  | fnLit _ parameters body => fnLit .eof (shapes parameters) body.shape
  | call _ function arguments => call .eof function.shape (shapes arguments)
  | arrayLit _ elements => arrayLit .eof (shapes elements)
  | index _ left position => index .eof left.shape position.shape
  | hashLit _ pairs => hashLit .eof (pairShapes pairs)

def shapes : List Node → List Node
  | [] => []
  | n :: ns => n.shape :: shapes ns

def pairShapes : List (Node × Node) → List (Node × Node)
  | [] => []
  | (k, v) :: ps => (k.shape, v.shape) :: pairShapes ps

end

mutual

theorem shape_marked (mark : Node → Token) (n : Node) : (n.marked mark).shape = n.shape := by
  cases n with
  | missing | bare | ident | intLit | boolLit | strLit => rfl
  | program ss | block _ ss => simp only [marked, shape, shapes_markedEach mark ss]
  | letStmt _ a b | binary _ _ a b | index _ a b =>
    simp only [marked, shape, shape_marked mark a, shape_marked mark b]
  | returnStmt _ a | exprStmt _ a | unary _ _ a =>
    simp only [marked, shape, shape_marked mark a]
  | ifExpr _ a b c =>
    simp only [marked, shape, shape_marked mark a, shape_marked mark b, shape_marked mark c]
  | fnLit _ ns a | call _ a ns =>
    simp only [marked, shape, shape_marked mark a, shapes_markedEach mark ns]
  | arrayLit _ ns => simp only [marked, shape, shapes_markedEach mark ns]
  | hashLit _ ps => simp only [marked, shape, pairShapes_markedPairs mark ps]

theorem shapes_markedEach (mark : Node → Token) (ns : List Node) :
    shapes (markedEach mark ns) = shapes ns := by
  cases ns with
  | nil => rfl
  | cons n ns => simp only [markedEach, shapes, shape_marked mark n, shapes_markedEach mark ns]

theorem pairShapes_markedPairs (mark : Node → Token) (ps : List (Node × Node)) :
    pairShapes (markedPairs mark ps) = pairShapes ps := by
  cases ps with
  | nil => rfl
  | cons p ps =>
    obtain ⟨k, v⟩ := p
    simp only [markedPairs, pairShapes, shape_marked mark k, shape_marked mark v,
      pairShapes_markedPairs mark ps]

end

end Node

/-- Plain statements of which only the last is an expression can be told by their text. -/
theorem shape_eq_of_text_eq {source source' : String} {tree tree' : Node}
    (h : parse source = .ok (tree, [])) (h' : parse source' = .ok (tree', []))
    (hlinear : tree.Linear) (hlinear' : tree'.Linear) (htext : tree.text = tree'.text) :
    tree.shape = tree'.shape := by
  obtain ⟨back, hback, hsame, -⟩ := (canonical_of_parse h).reads_back hlinear
  obtain ⟨back', hback', hsame', -⟩ := (canonical_of_parse h').reads_back hlinear'
  rw [htext, hback'] at hback
  cases hback
  have hunmarked : tree.unmarked = tree'.unmarked := hsame.symm.trans hsame'
  calc tree.shape = tree.unmarked.shape := (Node.shape_marked _ tree).symm
    _ = tree'.unmarked.shape := by rw [hunmarked]
    _ = tree'.shape := Node.shape_marked _ tree'

def negation (t : Token) : Node :=
  .program [.exprStmt t (.unary Kind.minus.token "-" (.named "a"))]

theorem shape_eq_of_text_eq_negation :
    parse "-a" = .ok (negation Kind.minus.token, []) ∧
      parse "(-(a));" = .ok (negation Kind.lparen.token, []) ∧ (∀ t, (negation t).Linear) ∧
      (negation Kind.minus.token).text = (negation Kind.lparen.token).text ∧
      (negation Kind.minus.token).shape = (negation Kind.lparen.token).shape := by
  have hparse : parse "-a" = .ok (negation Kind.minus.token, []) := by cbv
  have hparse' : parse "(-(a));" = .ok (negation Kind.lparen.token, []) := by cbv
  have hlinear : ∀ t, (negation t).Linear := fun t =>
    .program (List.forall_mem_singleton.mpr (.exprStmt _ (.unary _ _ (.ident _ _)))) (by simp)
  exact ⟨hparse, hparse', hlinear, rfl,
    shape_eq_of_text_eq hparse hparse' (hlinear _) (hlinear _) rfl⟩

/-- The sources are read without complaint and show the same, and their trees differ in more than
their tokens. -/
def Collide (source source' : String) : Prop :=
  ∃ tree tree', parse source = .ok (tree, []) ∧ parse source' = .ok (tree', []) ∧
    tree.text = tree'.text ∧ tree.shape ≠ tree'.shape

/-- A name and a string of the same letters show the same. So do two expressions in a row and one,
and texts behind the head of a conditional or of a function do not tell where it ends. -/
theorem text_not_injective :
    (¬ ∀ (source source' : String) (tree tree' : Node), parse source = .ok (tree, []) →
      parse source' = .ok (tree', []) → tree.text = tree'.text → tree.shape = tree'.shape) ∧
    Collide "a" "\"a\"" ∧ Collide "a; b" "ab" ∧
    Collide "if (a) \x7b if (belse) \x7b c \x7d \x7d" "if (a) \x7b ifb \x7d else \x7b c \x7d" ∧
    Collide "fn() \x7b a \x7d(b)" "fn() \x7b a(b) \x7d" := by
  have hstring : Collide "a" "\"a\"" :=
    ⟨.program [.exprStmt ⟨.ident, "a"⟩ (.named "a")],
      .program [.exprStmt ⟨.string, "a"⟩ (.strLit ⟨.string, "a"⟩ "a")], by cbv, by cbv, rfl,
      by simp [Node.shape, Node.shapes, Node.named]⟩
  refine ⟨fun h => ?_, hstring, ?_, ?_, ?_⟩
  · obtain ⟨tree, tree', hparse, hparse', htext, hshape⟩ := hstring
    exact hshape (h _ _ _ _ hparse hparse' htext)
  · exact ⟨.program [.exprStmt ⟨.ident, "a"⟩ (.named "a"), .exprStmt ⟨.ident, "b"⟩ (.named "b")],
      .program [.exprStmt ⟨.ident, "ab"⟩ (.named "ab")], by cbv, by cbv, rfl,
      by simp [Node.shape, Node.shapes]⟩
  · let block (e : Node) (t : Token) : Node := .block Kind.lbrace.token [.exprStmt t e]
    let cond (test : String) (a b : Node) : Node :=
      .ifExpr Kind.ifWord.token (.named test) a b
    exact ⟨.program [.exprStmt Kind.ifWord.token (cond "a" (block (cond "belse"
        (block (.named "c") ⟨.ident, "c"⟩) .missing) Kind.ifWord.token) .missing)],
      .program [.exprStmt Kind.ifWord.token (cond "a" (block (.named "ifb") ⟨.ident, "ifb"⟩)
        (block (.named "c") ⟨.ident, "c"⟩))], by cbv, by cbv, rfl,
      by simp [Node.shape, Node.shapes, Node.named, block, cond]⟩
  · let function (t : Token) (e : Node) : Node :=
      .fnLit Kind.fnWord.token [] (.block Kind.lbrace.token [.exprStmt t e])
    let call (f : Node) : Node := .call Kind.lparen.token f [.named "b"]
    exact ⟨.program [.exprStmt Kind.fnWord.token (call (function ⟨.ident, "a"⟩ (.named "a")))],
      .program [.exprStmt Kind.fnWord.token (function ⟨.ident, "a"⟩ (call (.named "a")))],
      by cbv, by cbv, rfl, by simp [Node.shape, Node.shapes, Node.named, function, call]⟩

end TreeWalk
