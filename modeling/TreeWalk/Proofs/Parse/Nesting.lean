import Mathlib
import TreeWalk.Proofs.Brackets
import TreeWalk.Proofs.Parse.Allowance
import TreeWalk.Proofs.Parse.Soundness

/-! The parser never looks for matching brackets, yet a source that it reads without complaint has
them. Where the end of input closes a block nothing is left to read, so no bracket around it is
closed either. -/
namespace TreeWalk

/-- What a token of the kind makes of the open brackets, the latest first. A token that closes a
bracket fails where another bracket was opened last, or none is open. -/
def Kind.stacked : Kind → List Kind → Option (List Kind)
  | lparen, stack => some (lparen :: stack)
  | lbracket, stack => some (lbracket :: stack)
  | lbrace, stack => some (lbrace :: stack)
  | rparen, lparen :: stack => some stack
  | rbracket, lbracket :: stack => some stack
  | rbrace, lbrace :: stack => some stack
  | rparen, _ | rbracket, _ | rbrace, _ => none
  | _, stack => some stack

def leftOpen : List Token → List Kind → Option (List Kind)
  | [], stack => some stack
  | t :: ts, stack => (t.kind.stacked stack).bind (leftOpen ts)

theorem Kind.weight_of_stacked {k : Kind} {stack stack' : List Kind}
    (h : k.stacked stack = some stack') : k.weight = stack'.length - stack.length := by
  unfold stacked at h
  split at h
  all_goals
    cases h
  all_goals
    simp only [weight, List.length_cons]
    omega

theorem balance_of_leftOpen {ts : List Token} {stack stack' : List Kind}
    (h : leftOpen ts stack = some stack') : balance ts = stack'.length - stack.length := by
  induction ts generalizing stack with
  | nil =>
    cases h
    simp
  | cons t ts ih =>
    obtain ⟨next, hnext, hrest⟩ := Option.bind_eq_some_iff.mp h
    have hweight := Kind.weight_of_stacked hnext
    have hbalance := ih hrest
    rw [balance_cons]
    omega

namespace Kind

/-- A token of the kind turns some open brackets into others, whatever is open around them. -/
structure Turns (k : Kind) (op op' : List Kind) : Prop where
  ne_eof : k ≠ .eof
  stacked : ∀ stack, k.stacked (op ++ stack) = some (op' ++ stack)

def isPlain (k : Kind) : Bool := k.weight == 0 && k != .eof

def opens : Kind → List Kind
  | lparen => [.lparen]
  | lbracket => [.lbracket]
  | _ => []

def partner : Kind → List Kind
  | rparen => [.lparen]
  | rbracket => [.lbracket]
  | _ => []

namespace Turns

theorem plain {k : Kind} (h : k.isPlain) (op : List Kind) : k.Turns op op := by
  cases k with
  | eof | lparen | lbracket | lbrace | rparen | rbracket | rbrace => cases h
  | _ => exact ⟨nofun, fun _ => rfl⟩

theorem lparen (op : List Kind) : Kind.lparen.Turns op (.lparen :: op) := ⟨nofun, fun _ => rfl⟩

theorem lbracket (op : List Kind) : Kind.lbracket.Turns op (.lbracket :: op) :=
  ⟨nofun, fun _ => rfl⟩

theorem lbrace (op : List Kind) : Kind.lbrace.Turns op (.lbrace :: op) := ⟨nofun, fun _ => rfl⟩

theorem rbrace : Kind.rbrace.Turns [.lbrace] [] := ⟨nofun, fun _ => rfl⟩

theorem operator {k : Kind} (h : k.level ≠ .lowest) : k.Turns [] k.opens := by
  cases k with
  | eq | notEq | lt | gt | plus | minus | slash | asterisk | lparen | lbracket =>
    exact ⟨nofun, fun _ => rfl⟩
  | _ => exact absurd rfl h

theorem close {k : Kind} (h : k.closesItems) : k.Turns k.partner [] := by
  cases k with
  | rparen | rbracket => exact ⟨nofun, fun _ => rfl⟩
  | _ => cases h

end Turns

end Kind

/-- The tokens before `rest` close the brackets `op`, and leave a number of braces open that only
the end of input closes. -/
structure Nested (op : List Kind) (count : Nat) (ts rest : List Token) : Prop where
  suffix : rest <:+ ts
  ended : count = 0 ∨ rest = []
  leftOpen : ∀ stack,
    leftOpen ts (op ++ stack) = leftOpen rest (List.replicate count .lbrace ++ stack)

namespace Nested

variable {op op' : List Kind} {count count' : Nat} {ts ms rest : List Token}

theorem refl (ts : List Token) : Nested [] 0 ts ts where
  suffix := List.suffix_refl ts
  ended := .inl rfl
  leftOpen _ := rfl

theorem cons {t : Token} (turns : t.kind.Turns op op') (h : Nested op' count ts rest) :
    Nested op count (t :: ts) rest where
  suffix := h.suffix.trans (List.suffix_cons t ts)
  ended := h.ended
  leftOpen stack := by
    rw [TreeWalk.leftOpen, turns.stacked stack, Option.bind_some, h.leftOpen]

theorem cut : Nested [.lbrace] 1 [] [] where
  suffix := List.suffix_refl []
  ended := .inr rfl
  leftOpen _ := rfl

theorem append (h : Nested op count ts ms) (h' : Nested op' count' ms rest) :
    Nested (op ++ op') (count + count') ts rest where
  suffix := h'.suffix.trans h.suffix
  ended := by
    rcases h.ended with rfl | rfl
    · rw [Nat.zero_add]
      exact h'.ended
    · exact .inr (List.suffix_nil.mp h'.suffix)
  leftOpen stack := by
    rw [List.append_assoc, h.leftOpen]
    rcases h.ended with rfl | rfl
    · rw [Nat.zero_add]
      exact h'.leftOpen stack
    · -- Nothing is left that could close a bracket: the braces are all that stays open.
      have hnil : rest = [] := List.suffix_nil.mp h'.suffix
      have hopen := h'.leftOpen stack
      rw [hnil] at hopen ⊢
      have hstack : op' ++ stack = List.replicate count' .lbrace ++ stack := Option.some.inj hopen
      rw [hstack, ← List.append_assoc, List.replicate_append_replicate]

end Nested

namespace Parse

variable {α β : Type}

/-- The call reads a block, and stands at the end of input when it is done. -/
def Call.isCut (n : Nat) (c : Call) : Bool :=
  match c.job, c.job.outcome n c.state with
  | .block, .ok m => m.current.kind == .eof
  | _, _ => false

/-- The number of blocks that the end of input closes, in a call and those that it leads to. -/
def Call.cuts : Nat → Call → Nat
  | 0, _ => 0
  | n + 1, c =>
    (if c.isCut (n + 1) then 1 else 0) + (c.calls n).foldr (fun d count => cuts n d + count) 0

def cutsOf (n : Nat) (cs : List Call) : Nat := cs.foldr (fun d count => d.cuts n + count) 0

theorem cutsOf_singleton (n : Nat) (c : Call) : cutsOf n [c] = c.cuts n := rfl

theorem cutsOf_append (n : Nat) (cs ds : List Call) :
    cutsOf n (cs ++ ds) = cutsOf n cs + cutsOf n ds := by
  induction cs with
  | nil => exact (Nat.zero_add _).symm
  | cons c cs ih =>
    simp only [cutsOf, List.cons_append, List.foldr_cons] at ih ⊢
    omega

theorem Call.cuts_succ (n : Nat) (c : Call) :
    c.cuts (n + 1) = (if c.isCut (n + 1) then 1 else 0) + cutsOf n (c.calls n) := rfl

/-- What a run without complaints, which makes these calls, does to the open brackets. The tokens
`ts` are what it finds of its phrase; it ends on the last token of that. -/
def Nests (n : Nat) (op : List Kind) (ts : List Token) (p : Parse α) (s : State) (cs : List Call) :
    Prop :=
  ∀ a m, p.run s = .ok (a, m) → m.complaints = [] → s.complaints = [] ∧
    (Proper ts → Nested op (cutsOf n cs) ts m.tokens.tail)

namespace Nests

variable {n : Nat} {s : State} {op op' : List Kind} {ts : List Token} {cs ds : List Call}

theorem pure (a : α) : Nests n [] s.tokens.tail (pure a : Parse α) s [] := by
  intro b m h hc
  cases h
  exact ⟨hc, fun _ => .refl _⟩

theorem current {f : Token → Parse α} (h : Nests n op ts (f s.current) s cs) :
    Nests n op ts (current >>= f) s cs := h

theorem ahead {f : Token → Parse α} (h : Nests n op ts (f s.ahead) s cs) :
    Nests n op ts (ahead >>= f) s cs := h

theorem name {f : Node → Parse α}
    (h : Nests n op ts (f (.ident s.current s.current.literal)) s cs) :
    Nests n op ts (name >>= f) s cs := h

theorem advance {f : Unit → Parse α} (h : Nests n op ts (f ()) s.next cs) :
    Nests n op ts (advance >>= f) s cs := h

theorem ite {c : Prop} [Decidable c] {x y : Parse α} (hx : c → Nests n op ts x s cs)
    (hy : ¬c → Nests n op ts y s ds) :
    Nests n op ts (if c then x else y) s (if c then cs else ds) := by
  split
  · next h => exact hx h
  · next h => exact hy h

theorem take {p : Parse α} {k : Kind} (hk : (front ts).kind = k) (turns : k.Turns op op')
    (h : Nests n op' ts.tail p s cs) : Nests n op ts p s cs := by
  intro a m hrun hc
  obtain ⟨hs, hnested⟩ := h a m hrun hc
  refine ⟨hs, fun hp => ?_⟩
  have hrest := hnested hp.tail
  rw [eq_front_cons ts hk turns.ne_eof]
  exact .cons (hk.symm ▸ turns) hrest

theorem complain (c : Complaint) (a : α) :
    Nests n op ts (Parse.complain c >>= fun _ => Pure.pure a) s cs := by
  intro b m hrun hc
  rw [run_complain_bind] at hrun
  cases hrun
  cases hc

theorem expect {k : Kind} {f : Bool → Parse α} {a : α} (turns : k.Turns op op')
    (h : Nests n op' s.next.tokens.tail (f true) s.next cs) (hf : f false = Pure.pure a) :
    Nests n op s.tokens.tail (expect k >>= f) s (onlyIf (s.ahead.kind = k) cs) := by
  intro b m hrun hc
  rw [run_expect_bind] at hrun
  split at hrun
  · next hk =>
    rw [onlyIf, if_pos hk]
    exact take hk turns h b m hrun hc
  · rw [hf] at hrun
    cases hrun
    cases hc

theorem close {k : Kind} {g : Bool → α} (turns : k.Turns op []) :
    Nests n op s.tokens.tail (Parse.expect k >>= fun found => Pure.pure (g found)) s [] := by
  intro b m hrun hc
  have h := expect (f := fun found => Pure.pure (g found)) turns (pure (n := n) (g true)) rfl
    b m hrun hc
  rwa [onlyIf, ite_self] at h

theorem endStatement (a : α) :
    Nests n [] s.tokens.tail (endStatement >>= fun _ => Pure.pure a) s [] := by
  intro b m hrun hc
  rw [run_endStatement_bind] at hrun
  split at hrun
  · next hk =>
    have hend : Nests n [] s.tokens.tail (Parse.advance >>= fun _ => Pure.pure a) s [] :=
      take hk (.plain rfl _) (advance (pure a))
    exact hend b m hrun hc
  · exact pure a b m hrun hc

theorem integer (f : Node → α) :
    Nests n [] s.tokens.tail (integer >>= fun e => Pure.pure (f e)) s [] := by
  intro b m hrun hc
  obtain ⟨e, m', he, hrun⟩ := exists_of_run_bind hrun
  cases hrun
  rw [run_integer] at he
  split at he
  · cases he
  · split at he
    · cases he
      cases hc
    · cases he
      exact ⟨hc, fun _ => .refl _⟩

theorem append {x : Parse α} {f : α → Parse β} {g : α → State → List Call}
    (hx : Nests n op ts x s cs) (h : ∀ a m, Nests n op' m.tokens.tail (f a) m (g a m)) :
    Nests n (op ++ op') ts (x >>= f) s (cs ++ follow x s g) := by
  intro b m' hrun hc
  obtain ⟨a, m, ha, hrun⟩ := exists_of_run_bind hrun
  obtain ⟨hm, hnested'⟩ := h a m b m' hrun hc
  obtain ⟨hs, hnested⟩ := hx a m ha hm
  refine ⟨hs, fun hp => ?_⟩
  have hfirst := hnested hp
  rw [cutsOf_append, follow, ha]
  exact hfirst.append (hnested' (hp.of_suffix hfirst.suffix))

theorem call {x : Parse α} {f : α → Parse β} {c : Call} {g : α → State → List Call}
    (hx : Nests n op ts x s [c]) (h : ∀ a m, Nests n op' m.tokens.tail (f a) m (g a m)) :
    Nests n (op ++ op') ts (x >>= f) s (c :: follow x s g) :=
  append hx h

theorem last {x : Parse α} {f : α → Parse β} {c : Call} (hx : Nests n op ts x s [c])
    (h : ∀ a m, Nests n op' m.tokens.tail (f a) m []) :
    Nests n (op ++ op') ts (x >>= f) s [c] := by
  have hcall := call (g := fun _ _ => []) hx h
  rwa [follow_nil] at hcall

theorem finish {x : Parse α} {f : α → β} {c : Call} (hx : Nests n op ts x s [c]) :
    Nests n op ts (x >>= fun a => Pure.pure (f a)) s [c] := by
  have hlast := last hx fun a _ => pure (f a)
  rwa [List.append_nil] at hlast

/-- A call does what the calls do that it makes, unless it reads a block. -/
theorem step {p : Parse α} {c : Call} (h : Nests n op ts p s (c.calls n))
    (hcut : c.isCut (n + 1) = false) : Nests (n + 1) op ts p s [c] := by
  have hcuts : cutsOf (n + 1) [c] = cutsOf n (c.calls n) := by
    rw [cutsOf_singleton, Call.cuts_succ, hcut]
    exact Nat.zero_add _
  intro a m hrun hc
  rw [hcuts]
  exact h a m hrun hc

end Nests

/-- What the functions of the parser do to the open brackets, given so many steps. Some begin on the
first token of their phrase, the others behind that. -/
structure Nesting (n : Nat) : Prop where
  statements : ∀ {inBlock s ss m}, (statements n inBlock).run s = .ok (ss, m) →
    m.complaints = [] → s.complaints = [] ∧ (Proper s.tokens →
      Nested [] (Call.cuts n ⟨.statements inBlock, s⟩) s.tokens m.tokens)
  statement : ∀ {s}, Nests n [] s.tokens (statement n) s [⟨.statement, s⟩]
  block : ∀ {s}, Nests n [.lbrace] s.tokens.tail (block n) s [⟨.block, s⟩]
  expression : ∀ {level s}, Nests n [] s.tokens (expression n level) s [⟨.expression level, s⟩]
  operand : ∀ {s}, Nests n [] s.tokens (operand n) s [⟨.operand, s⟩]
  extend : ∀ {level left s},
    Nests n [] s.tokens.tail (extend n level left) s [⟨.extend level left, s⟩]
  extension : ∀ {t left s},
    Nests n t.kind.opens s.tokens.tail (extension n t left) s [⟨.extension t left, s⟩]
  conditional : ∀ {s}, Nests n [] s.tokens.tail (conditional n) s [⟨.conditional, s⟩]
  function : ∀ {s}, Nests n [] s.tokens.tail (function n) s [⟨.function, s⟩]
  moreParameters : ∀ {s},
    Nests n [.lparen] s.tokens.tail (moreParameters n) s [⟨.moreParameters, s⟩]
  expressions : ∀ {close s}, close.closesItems →
    Nests n close.partner s.tokens.tail (expressions n close) s [⟨.expressions close, s⟩]
  moreExpressions : ∀ {close s}, close.closesItems →
    Nests n close.partner s.tokens.tail (moreExpressions n close) s [⟨.moreExpressions close, s⟩]
  pairs : ∀ {s}, Nests n [.lbrace] s.tokens.tail (pairs n) s [⟨.pairs, s⟩]

theorem nesting_zero : Nesting 0 where
  statements h := nomatch h
  statement _ _ h := nomatch h
  block _ _ h := nomatch h
  expression _ _ h := nomatch h
  operand _ _ h := nomatch h
  extend _ _ h := nomatch h
  extension _ _ h := nomatch h
  conditional _ _ h := nomatch h
  function _ _ h := nomatch h
  moreParameters _ _ h := nomatch h
  expressions _ _ _ h := nomatch h
  moreExpressions _ _ _ h := nomatch h
  pairs _ _ h := nomatch h

section Step

variable {n : Nat} {s : State} (ih : Nesting n)
include ih

theorem nests_statement : Nests n [] s.tokens (statement (n + 1)) s (Job.statement.calls n s) := by
  refine .current ?_
  rw [Job.calls]
  cases hk : s.current.kind with
  | letWord =>
    refine .take hk (.plain rfl _) (.expect (.plain rfl _) (.name ?_) rfl)
    refine .expect (.plain rfl _) (.advance ?_) rfl
    exact .last ih.expression fun _ _ => .endStatement _
  | returnWord =>
    refine .take hk (.plain rfl _) (.advance ?_)
    exact .last ih.expression fun _ _ => .endStatement _
  | _ => exact .last ih.expression fun _ _ => .endStatement _

theorem nests_expression (level : Level) :
    Nests n [] s.tokens (expression (n + 1) level) s ((Job.expression level).calls n s) := by
  refine .call ih.operand fun o m => ?_
  cases o with
  | none => exact .pure _
  | some left => exact ih.extend

theorem nests_operand : Nests n [] s.tokens (operand (n + 1)) s (Job.operand.calls n s) := by
  refine .current ?_
  rw [Job.calls]
  cases hk : s.current.kind with
  | ident | string | trueWord | falseWord => exact .take hk (.plain rfl _) (.pure _)
  | int => exact .take hk (.plain rfl _) (.integer _)
  | bang | minus => exact .take hk (.plain rfl _) (.advance (.finish ih.expression))
  | lparen =>
    refine .take hk (.lparen _) (.advance ?_)
    exact .last ih.expression fun _ _ => .close (.close rfl)
  | ifWord => exact .take hk (.plain rfl _) (.finish ih.conditional)
  | fnWord => exact .take hk (.plain rfl _) (.finish ih.function)
  | lbracket => exact .take hk (.lbracket _) (.finish (ih.expressions rfl))
  | lbrace => exact .take hk (.lbrace _) (.finish ih.pairs)
  | _ => exact .complain _ _

theorem nests_extend (level : Level) (left : Node) : Nests n [] s.tokens.tail
    (extend (n + 1) level left) s ((Job.extend level left).calls n s) := by
  refine .ahead (.ite (fun hlt => ?_) fun _ => .pure _)
  have hturns : s.ahead.kind.Turns [] (s.ahead.kind.opens ++ []) := by
    rw [List.append_nil]
    exact .operator (Level.ne_lowest_of_rank_lt hlt)
  refine .take rfl hturns (.advance ?_)
  exact .call ih.extension fun e m => ih.extend

theorem nests_extension (t : Token) (left : Node) : Nests n t.kind.opens s.tokens.tail
    (extension (n + 1) t left) s ((Job.extension t left).calls n s) := by
  rw [extension, Job.calls]
  cases t.kind with
  | lparen => exact .finish (ih.expressions rfl)
  | lbracket =>
    refine .advance (.last ih.expression fun _ _ => ?_)
    exact .close (.close rfl)
  | _ => exact .advance (.finish ih.expression)

theorem nests_conditional :
    Nests n [] s.tokens.tail (conditional (n + 1)) s (Job.conditional.calls n s) := by
  refine .current (.expect (.lparen _) (.advance ?_) rfl)
  refine .call ih.expression fun c m => ?_
  refine .expect (.close rfl) (.expect (.lbrace _) ?_ rfl) rfl
  refine .call ih.block fun a m' => .ahead (.ite (fun hother => ?_) fun _ => .pure _)
  refine .take hother (.plain rfl _) (.advance (.expect (.lbrace _) ?_ rfl))
  exact .finish ih.block

theorem nests_moreParameters :
    Nests n [.lparen] s.tokens.tail (moreParameters (n + 1)) s (Job.moreParameters.calls n s) := by
  refine .ahead (.ite (fun hcomma => ?_) fun _ => .close (.close rfl))
  refine .take hcomma (.plain rfl _) (.advance (.expect (.plain rfl _) (.name ?_) rfl))
  exact .finish ih.moreParameters

theorem nests_parameters :
    Nests n [.lparen] s.tokens.tail (parameters n) s (parameterCalls s) := by
  refine .ahead (.ite (fun hclosing => ?_) fun _ => .expect (.plain rfl _) (.name ?_) rfl)
  · exact .take hclosing (.close rfl) (.advance (.pure _))
  · exact .finish ih.moreParameters

theorem nests_function :
    Nests n [] s.tokens.tail (function (n + 1)) s (Job.function.calls n s) := by
  refine .current (.expect (.lparen _) (.append (nests_parameters ih) fun ps m => ?_) rfl)
  cases ps with
  | none => exact .pure _
  | some ps => exact .expect (.lbrace _) (.finish ih.block) rfl

theorem nests_expressions {close : Kind} (hclose : close.closesItems) :
    Nests n close.partner s.tokens.tail (expressions (n + 1) close) s
      ((Job.expressions close).calls n s) := by
  refine .ahead (.ite (fun hclosing => ?_) fun _ => .advance ?_)
  · exact .take hclosing (.close hclose) (.advance (.pure _))
  · exact .call ih.expression fun e m => .finish (ih.moreExpressions hclose)

theorem nests_moreExpressions {close : Kind} (hclose : close.closesItems) :
    Nests n close.partner s.tokens.tail (moreExpressions (n + 1) close) s
      ((Job.moreExpressions close).calls n s) := by
  refine .ahead (.ite (fun hcomma => ?_) fun _ => .close (.close hclose))
  refine .take hcomma (.plain rfl _) (.advance (.advance ?_))
  exact .call ih.expression fun e m => .finish (ih.moreExpressions hclose)

theorem nests_pairs : Nests n [.lbrace] s.tokens.tail (pairs (n + 1)) s (Job.pairs.calls n s) := by
  refine .ahead (.ite (fun hclosing => ?_) fun _ => .advance ?_)
  · exact .take hclosing .rbrace (.advance (.pure _))
  · refine .call ih.expression fun k m => .expect (.plain rfl _) (.advance ?_) rfl
    refine .call ih.expression fun v m' => .ahead (.ite (fun _ => ?_) fun _ => ?_)
    · exact .finish ih.pairs
    · exact .expect (.plain rfl _) (.finish ih.pairs) rfl

/-- A block ends with its closing brace, or is one more that the end of input closes. -/
theorem nests_block : Nests (n + 1) [.lbrace] s.tokens.tail (block (n + 1)) s [⟨.block, s⟩] := by
  intro e m hrun hc
  have houtcome : Job.block.outcome (n + 1) s = .ok m := outcome_of_run hrun
  simp only [block, run_current_bind, run_advance_bind] at hrun
  obtain ⟨ss, m', hss, hrun⟩ := exists_of_run_bind hrun
  cases hrun
  obtain ⟨hs, hnested⟩ := ih.statements hss hc
  refine ⟨hs, fun hp => ?_⟩
  have hbody : Nested [] (Call.cuts n ⟨.statements true, s.next⟩) s.tokens.tail m.tokens :=
    hnested hp
  have hcuts : cutsOf (n + 1) [⟨.block, s⟩] =
      Call.cuts n ⟨.statements true, s.next⟩ + if m.current.kind = .eof then 1 else 0 := by
    have hcut : Call.isCut (n + 1) ⟨.block, s⟩ = (m.current.kind == .eof) := by
      simp only [Call.isCut, houtcome]
    have hcalls :
        cutsOf n (Call.calls n ⟨.block, s⟩) = Call.cuts n ⟨.statements true, s.next⟩ := rfl
    rw [cutsOf_singleton, Call.cuts_succ, hcut, hcalls, Nat.add_comm]
    simp
  rw [hcuts]
  rcases kind_of_statements hss with heof | ⟨-, hbrace⟩
  · have hnil : m.tokens = [] := (hp.of_suffix hbody.suffix).eq_nil heof
    rw [hnil] at hbody
    rw [if_pos heof, hnil]
    exact hbody.append .cut
  · rw [if_neg (by simp [hbrace])]
    have hclosing : Nested [.lbrace] 0 m.tokens m.tokens.tail := by
      rw [eq_front_cons m.tokens hbrace (by decide)]
      exact .cons (hbrace.symm ▸ .rbrace) (.refl _)
    exact hbody.append hclosing

theorem nests_statements {inBlock : Bool} {ss : List Node} {m : State}
    (h : (statements (n + 1) inBlock).run s = .ok (ss, m)) (hc : m.complaints = []) :
    s.complaints = [] ∧ (Proper s.tokens →
      Nested [] (Call.cuts (n + 1) ⟨.statements inBlock, s⟩) s.tokens m.tokens) := by
  have hcuts : Call.cuts (n + 1) ⟨.statements inBlock, s⟩ =
      cutsOf n ((Job.statements inBlock).calls n s) := by
    rw [Call.cuts_succ]
    exact Nat.zero_add _
  rw [hcuts, Job.calls]
  simp only [statements, run_current_bind, run_ite] at h
  split at h
  · next hend =>
    cases h
    rw [if_pos hend]
    exact ⟨hc, fun _ => .refl _⟩
  · next hend =>
    obtain ⟨e, m', he, h⟩ := exists_of_run_bind h
    simp only [run_advance_bind] at h
    obtain ⟨es, m'', hes, h⟩ := exists_of_run_bind h
    cases h
    obtain ⟨hm', hmore⟩ := ih.statements hes hc
    obtain ⟨hs, hfirst⟩ := ih.statement e m' he hm'
    refine ⟨hs, fun hp => ?_⟩
    have hhead := hfirst hp
    have htail := hmore (hp.of_suffix hhead.suffix)
    rw [if_neg hend, follow, he]
    exact hhead.append htail

end Step

/-- Without complaints every function closes the brackets that it opens, but for the blocks that are
cut. -/
theorem nesting (n : Nat) : Nesting n := by
  induction n with
  | zero => exact nesting_zero
  | succ n ih =>
    exact {
      statements := nests_statements ih
      statement := .step (nests_statement ih) rfl
      block := nests_block ih
      expression := .step (nests_expression ih _) rfl
      operand := .step (nests_operand ih) rfl
      extend := .step (nests_extend ih _ _) rfl
      extension := .step (nests_extension ih _ _) rfl
      conditional := .step (nests_conditional ih) rfl
      function := .step (nests_function ih) rfl
      moreParameters := .step (nests_moreParameters ih) rfl
      expressions := fun hclose => .step (nests_expressions ih hclose) rfl
      moreExpressions := fun hclose => .step (nests_moreExpressions ih hclose) rfl
      pairs := .step (nests_pairs ih) rfl }

end Parse

open Parse

def openBlocks (source : String) : Nat :=
  Call.cuts (allowance (Token.ofText source).length) ⟨.statements false, ⟨Token.ofText source, []⟩⟩

theorem leftOpen_of_parse {source : String} {tree : Node} (h : parse source = .ok (tree, [])) :
    leftOpen (Token.ofText source) [] = some (List.replicate (openBlocks source) .lbrace) := by
  have hproper : Proper (Token.ofText source) := proper_tokenize _
  obtain ⟨ss, -, hrun⟩ := run_statements_of_parseTokens h hproper
  obtain ⟨-, hnested⟩ := (nesting _).statements hrun rfl
  have hbody : Nested [] (openBlocks source) (Token.ofText source) [] := hnested hproper
  rw [← List.append_nil (List.replicate _ _)]
  exact hbody.leftOpen []

/-- A source that is read without complaint has its brackets matched, but for the braces of the
blocks that the end of input closes. The open brackets counted in it are these blocks, so that more
lines are waited for exactly if there is one. -/
theorem accepted_brackets {source : String} {tree : Node} (h : parse source = .ok (tree, [])) :
    leftOpen (Token.ofText source) [] = some (List.replicate (openBlocks source) .lbrace) ∧
    openBrackets source = openBlocks source ∧
    (openBrackets source = 0 ↔ leftOpen (Token.ofText source) [] = some []) ∧
    ∀ line pending, (joinLine line pending).1 = source →
      ((joinLine line pending).2 = true ↔ 0 < openBlocks source) := by
  have hopen := leftOpen_of_parse h
  have hcount : openBrackets source = openBlocks source := by
    rw [openBrackets_eq_balance, balance_of_leftOpen hopen]
    simp
  refine ⟨hopen, hcount, ?_, fun line pending hjoin => ?_⟩
  · rw [hopen, hcount]
    simp
  · have hmore : (joinLine line pending).2 = decide (0 < openBrackets source) := by
      rw [← hjoin]
      rfl
    rw [hmore, hcount]
    simp

theorem accepted_brackets_twoCut :
    leftOpen (Token.ofText "if (a) \x7b\nfn(x) \x7b [x]") [] = some [.lbrace, .lbrace] ∧
      openBlocks "if (a) \x7b\nfn(x) \x7b [x]" = 2 ∧
      (joinLine "fn(x) \x7b [x]" "if (a) \x7b").2 = true := by
  have hparse : ∃ tree, parse "if (a) \x7b\nfn(x) \x7b [x]" = .ok (tree, []) := ⟨_, by cbv⟩
  obtain ⟨tree, hparse⟩ := hparse
  obtain ⟨hopen, hcount, -, hjoin⟩ := accepted_brackets hparse
  have htwo : openBrackets "if (a) \x7b\nfn(x) \x7b [x]" = 2 := by decide
  have hblocks : openBlocks "if (a) \x7b\nfn(x) \x7b [x]" = 2 := by omega
  have hmore := (hjoin "fn(x) \x7b [x]" "if (a) \x7b" (by decide)).mpr (by omega)
  rw [hblocks] at hopen
  exact ⟨hopen, hblocks, hmore⟩

end TreeWalk
