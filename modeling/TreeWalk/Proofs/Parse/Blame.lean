import TreeWalk.Fault
import TreeWalk.Proofs.Parse.Allowance
import TreeWalk.Proofs.Parse.Soundness

/-! A numeral out of range and a character without a meaning are wrong in any place, and each is met
once, however malformed the source around it. -/
namespace TreeWalk

namespace Kind

def isBlameless : Kind → Bool
  | int | illegal => false
  | _ => true

theorem isBlameless_of_level {k : Kind} (h : k.level ≠ .lowest) : k.isBlameless := by
  cases k <;> simp_all [level, isBlameless]

theorem eq_illegal_of_name {k : Kind} (h : k.name = illegal.name) : k = .illegal := by
  revert h
  cases k <;> simp [name]

theorem isBlameless_of_closesItems {k : Kind} (h : k.closesItems) : k.isBlameless := by
  cases k <;> simp_all [closesItems, isBlameless]

end Kind

namespace Token

def isOverlong (t : Token) : Bool := t.kind == .int && decide (maxDigits < t.literal.toList.length)

/-- The complaint that a token calls for wherever it stands. -/
def complaint? (t : Token) : Option Complaint :=
  match t.kind with
  | .int =>
    if maxInt < (decimalValue t.literal.toList : Int) then some (.outOfRange t.literal) else none
  | .illegal => some (.noOperand .illegal)
  | _ => none

theorem isOverlong_of_isBlameless {t : Token} (h : t.kind.isBlameless) : t.isOverlong = false := by
  have hne : t.kind ≠ .int := by
    intro heq
    rw [heq] at h
    cases h
  simp [isOverlong, hne]

theorem complaint?_of_isBlameless {t : Token} (h : t.kind.isBlameless) : t.complaint? = none := by
  unfold complaint?
  split
  · next hk =>
    rw [hk] at h
    cases h
  · next hk =>
    rw [hk] at h
    cases h
  · rfl

end Token

namespace Complaint

def isAboutToken : Complaint → Bool
  | outOfRange _ | noOperand .illegal => true
  | _ => false

def isTokenMessage (m : String) : Bool :=
  m == (noOperand .illegal).message || "could not parse ".toList.isPrefixOf m.toList

theorem toList_message_expected (want got : Kind) :
    ∃ rest, (expected want got).message.toList = 'e' :: rest := by
  have h : (expected want got).message =
    "expected next token to be " ++ want.name ++ ", got " ++ got.name ++ " instead" := rfl
  rw [h]
  simp

theorem toList_message_noOperand (k : Kind) : (noOperand k).message.toList =
    "no prefix parse function for ".toList ++ (k.name.toList ++ " found".toList) := by
  have h : (noOperand k).message = "no prefix parse function for " ++ k.name ++ " found" := rfl
  rw [h, String.toList_append, String.toList_append, List.append_assoc]

theorem toList_message_outOfRange (literal : String) : (outOfRange literal).message.toList =
    "could not parse ".toList ++ (literal.toList ++ " as integer".toList) := by
  have h : (outOfRange literal).message = "could not parse " ++ literal ++ " as integer" := rfl
  rw [h, String.toList_append, String.toList_append, List.append_assoc]

theorem message_noOperand_eq_iff (k : Kind) :
    (noOperand k).message = (noOperand .illegal).message ↔ k = .illegal := by
  refine ⟨fun h => Kind.eq_illegal_of_name ?_, fun h => h ▸ rfl⟩
  have hlist := congrArg String.toList h
  rw [toList_message_noOperand, toList_message_noOperand] at hlist
  exact String.toList_inj.mp (List.append_cancel_right (List.append_cancel_left hlist))

theorem isTokenMessage_message (c : Complaint) : isTokenMessage c.message = c.isAboutToken := by
  cases c with
  | expected want got =>
    obtain ⟨rest, h⟩ := toList_message_expected want got
    have hne : (expected want got).message ≠ (noOperand .illegal).message := by
      intro heq
      have hlist := congrArg String.toList heq
      rw [h, toList_message_noOperand] at hlist
      simp at hlist
    have hprefix : "could not parse ".toList.isPrefixOf ('e' :: rest) = false := by
      simp [List.isPrefixOf]
    rw [isTokenMessage, h, beq_false_of_ne hne, hprefix]
    rfl
  | noOperand k =>
    have hprefix : "could not parse ".toList.isPrefixOf (noOperand k).message.toList = false := by
      rw [toList_message_noOperand]
      simp [List.isPrefixOf]
    rw [isTokenMessage, hprefix, Bool.or_false]
    by_cases hk : k = .illegal
    · subst hk
      exact beq_self_eq_true _
    · rw [beq_false_of_ne (mt (message_noOperand_eq_iff k).mp hk)]
      cases k <;> first | rfl | contradiction
  | outOfRange literal =>
    have hprefix : "could not parse ".toList.isPrefixOf (outOfRange literal).message.toList := by
      rw [toList_message_outOfRange, List.isPrefixOf_iff_prefix]
      exact List.prefix_append _ _
    rw [isTokenMessage, hprefix, Bool.or_true]
    rfl

end Complaint

/-- What reading has to make of the tokens by themselves. -/
def audit : List Token → Except Abort (List Complaint)
  | [] => .ok []
  | t :: ts =>
    if t.isOverlong then .error (.overlong t.literal.toList.length)
    else (audit ts).map (t.complaint?.toList ++ ·)

theorem audit_eq_error {ts : List Token} {t : Token} (h : ts.find? Token.isOverlong = some t) :
    audit ts = .error (.overlong t.literal.toList.length) := by
  induction ts with
  | nil => cases h
  | cons u us ih =>
    by_cases hu : u.isOverlong
    · simp only [List.find?_cons, hu, Option.some.injEq] at h
      rw [audit, if_pos hu, h]
    · simp only [List.find?_cons, hu] at h
      simp [audit, hu, ih h, Except.map]

theorem audit_eq_ok {ts : List Token} (h : ts.find? Token.isOverlong = none) :
    audit ts = .ok (ts.filterMap Token.complaint?) := by
  induction ts with
  | nil => rfl
  | cons u us ih =>
    by_cases hu : u.isOverlong
    · simp [hu] at h
    · simp only [List.find?_cons, hu] at h
      cases hc : u.complaint? <;> simp [audit, hu, ih h, Except.map, hc]

namespace Parse

variable {α β : Type}

namespace State

def blamed (s : State) : List Complaint := (s.complaints.filter Complaint.isAboutToken).reverse

/-- The account of a state whose current token is still to be judged: the complaints that were made
and those to come. -/
def account (s : State) : Except Abort (List Complaint) := (audit s.tokens).map (s.blamed ++ ·)

theorem account_of_complaint?_eq_none {s : State} (hlong : s.current.isOverlong = false)
    (hc : s.current.complaint? = none) : s.account = s.next.account := by
  obtain ⟨ts, cs⟩ := s
  cases ts with
  | nil => rfl
  | cons t ts =>
    have hlong' : t.isOverlong = false := hlong
    have hc' : t.complaint? = none := hc
    simp only [account, audit, next_mk, List.tail_cons, hlong', hc', Option.toList,
      List.nil_append, Bool.false_eq_true, if_false]
    cases audit ts <;> rfl

/-- The account goes on unchanged behind a token that is not wrong. -/
theorem account_of_isBlameless {s : State} (h : s.current.kind.isBlameless) :
    s.account = s.next.account :=
  account_of_complaint?_eq_none (Token.isOverlong_of_isBlameless h)
    (Token.complaint?_of_isBlameless h)

theorem account_note {s : State} {c : Complaint} (h : c.isAboutToken = false) :
    (s.note c).account = s.account := by
  simp [account, blamed, note, h]

/-- A complaint that the current token calls for is entered once. -/
theorem account_of_complaint {s : State} {c : Complaint} (hlong : s.current.isOverlong = false)
    (hc : s.current.complaint? = some c) (habout : c.isAboutToken) :
    s.account = (s.note c).next.account := by
  obtain ⟨ts, cs⟩ := s
  cases ts with
  | nil => cases hc
  | cons t ts =>
    have hlong' : t.isOverlong = false := hlong
    have hc' : t.complaint? = some c := hc
    simp only [account, audit, next, note, blamed, List.tail_cons, hlong', hc', habout,
      Option.toList, List.filter_cons_of_pos, List.reverse_cons, Bool.false_eq_true, if_false]
    cases audit ts <;> simp [Except.map]

theorem account_of_isOverlong {s : State} (h : s.current.isOverlong) :
    s.account = .error (.overlong s.current.literal.toList.length) := by
  obtain ⟨ts, cs⟩ := s
  cases ts with
  | nil => cases h
  | cons t ts =>
    have ht : t.isOverlong := h
    simp [account, audit, ht, current_mk, Except.map]

end State

/-- A run that ends with the account `owed`, its current token judged, or ends as `owed` says. -/
def Settles (p : Parse α) (s : State) (owed : Except Abort (List Complaint)) : Prop :=
  match p.run s with
  | .ok r => r.2.next.account = owed
  | .error a => a = .exhausted ∨ owed = .error a

/-- `p` is run on a token that was judged. -/
def Settled (p : Parse α) : Prop := ∀ s, Settles p s s.next.account

/-- `p` is run on a token that is still to be judged. -/
def Judges (p : Parse α) : Prop := ∀ s, Settles p s s.account

theorem Settles.bind {x : Parse α} {f : α → Parse β} {s : State}
    {owed : Except Abort (List Complaint)} (hx : Settles x s owed) (hf : ∀ a, Settled (f a)) :
    Settles (x >>= f) s owed := by
  unfold Settles at hx ⊢
  rw [run_bind]
  cases hr : x.run s with
  | error e =>
    rw [hr] at hx
    exact hx
  | ok r =>
    rw [hr] at hx
    rw [← hx]
    exact hf r.1 r.2

namespace Settled

theorem pure (a : α) : Settled (pure a : Parse α) := fun _ => rfl

theorem exhausted : Settled (throw .exhausted : Parse α) := fun _ => .inl rfl

theorem bind {x : Parse α} {f : α → Parse β} (hx : Settled x) (hf : ∀ a, Settled (f a)) :
    Settled (x >>= f) := fun s => (hx s).bind hf

theorem ite {c : Prop} [Decidable c] {x y : Parse α} (hx : Settled x) (hy : Settled y) :
    Settled (if c then x else y) := by
  split
  · exact hx
  · exact hy

theorem current : Settled current := fun _ => rfl

theorem ahead : Settled ahead := fun _ => rfl

theorem name : Settled name := fun _ => rfl

theorem advance {f : Unit → Parse α} (h : Judges (f ())) : Settled (advance >>= f) :=
  fun s => h s.next

theorem advanceIf {c : Token → Prop} [DecidablePred c] (hc : ∀ t, c t → t.kind.isBlameless)
    {f : Token → Unit → Parse α} {g : Token → Parse α} (hf : ∀ t, Settled (f t ()))
    (hg : ∀ t, Settled (g t)) :
    Settled (Parse.ahead >>= fun t => if c t then Parse.advance >>= f t else g t) := by
  intro s
  change Settles (if c s.ahead then Parse.advance >>= f s.ahead else g s.ahead) s _
  split
  · next h =>
    rw [State.account_of_isBlameless (s := s.next) (hc _ h)]
    exact hf _ s.next
  · exact hg _ s

theorem complain {c : Complaint} (h : c.isAboutToken = false) : Settled (complain c) := fun s =>
  State.account_note (s := s.next) h

theorem expect {k : Kind} (hk : k.isBlameless) : Settled (expect k) :=
  advanceIf (c := fun t => t.kind = k) (fun _ h => h ▸ hk) (fun _ => .pure true)
    fun _ => .bind (complain rfl) fun _ => .pure false

theorem endStatement : Settled endStatement :=
  advanceIf (c := fun t => t.kind = .semicolon) (f := fun _ => Pure.pure) (fun _ h => h ▸ rfl)
    (fun _ => .pure ()) fun _ => .pure ()

end Settled

namespace Judges

theorem exhausted : Judges (throw .exhausted : Parse α) := fun _ => .inl rfl

theorem bind {x : Parse α} {f : α → Parse β} (hx : Judges x) (hf : ∀ a, Settled (f a)) :
    Judges (x >>= f) := fun s => (hx s).bind hf

theorem current {f : Token → Parse α} (h : ∀ s, Settles (f s.current) s s.account) :
    Judges (current >>= f) := h

end Judges

theorem Settled.settles {p : Parse α} (h : Settled p) {s : State}
    (hs : s.current.kind.isBlameless) : Settles p s s.account := by
  rw [State.account_of_isBlameless hs]
  exact h s

theorem settles_integer {f : Node → Parse α} (hf : ∀ e, Settled (f e)) {s : State}
    (hs : s.current.kind = .int) : Settles (integer >>= f) s s.account := by
  refine Settles.bind ?_ hf
  have hrun := run_integer s
  unfold Settles
  by_cases hlong : maxDigits < s.current.literal.toList.length
  · rw [hrun, if_pos hlong]
    exact .inr (State.account_of_isOverlong (by simp [Token.isOverlong, hs, hlong]))
  · have hlong' : s.current.isOverlong = false := by simp [Token.isOverlong, hlong]
    rw [if_neg hlong] at hrun
    by_cases hgreat : maxInt < (decimalValue s.current.literal.toList : Int)
    · rw [hrun, if_pos hgreat]
      exact (State.account_of_complaint hlong' (by simp [Token.complaint?, hs, hgreat]) rfl).symm
    · rw [hrun, if_neg hgreat]
      exact (State.account_of_complaint?_eq_none hlong'
        (by simp [Token.complaint?, hs, hgreat])).symm

theorem settles_noOperand {f : Unit → Parse α} (hf : Settled (f ())) {s : State}
    (hs : s.current.kind ≠ .int) :
    Settles (complain (.noOperand s.current.kind) >>= f) s s.account := by
  refine Settles.bind ?_ fun _ => hf
  by_cases hk : s.current.kind = .illegal
  · rw [hk]
    exact (State.account_of_complaint (by simp [Token.isOverlong, hs])
      (by simp [Token.complaint?, hk]) rfl).symm
  · have hblameless : s.current.kind.isBlameless := by
      cases hkind : s.current.kind <;> simp_all [Kind.isBlameless]
    refine Settled.settles (.complain ?_) hblameless
    cases hkind : s.current.kind <;> simp_all [Complaint.isAboutToken]

theorem settled_moreParameters : ∀ n, Settled (moreParameters n)
  | 0 => .exhausted
  | n + 1 => .advanceIf (c := fun t => t.kind = .comma) (fun _ h => h ▸ rfl)
    (fun _ => .bind (.expect rfl) fun _ =>
      .ite (.bind .name fun _ => .bind (settled_moreParameters n) fun _ => .pure _) (.pure _))
    fun _ => .bind (.expect rfl) fun _ => .pure _

theorem settled_parameters (n : Nat) : Settled (parameters n) :=
  .advanceIf (c := fun t => t.kind = .rparen) (fun _ h => h ▸ rfl) (fun _ => .pure _)
    fun _ => .bind (.expect rfl) fun _ =>
      .ite (.bind .name fun _ => .bind (settled_moreParameters n) fun _ => .pure _) (.pure _)

structure Accounting (n : Nat) : Prop where
  statements : ∀ inBlock, Judges (statements n inBlock)
  statement : Judges (statement n)
  block : Settled (block n)
  expression : ∀ level, Judges (expression n level)
  operand : Judges (operand n)
  extend : ∀ level left, Settled (extend n level left)
  extension : ∀ t left, Settled (extension n t left)
  conditional : Settled (conditional n)
  function : Settled (function n)
  expressions : ∀ close, close.closesItems → Settled (expressions n close)
  moreExpressions : ∀ close, close.closesItems → Settled (moreExpressions n close)
  pairs : Settled (pairs n)

theorem accounting_zero : Accounting 0 where
  statements _ := .exhausted
  statement := .exhausted
  block := .exhausted
  expression _ := .exhausted
  operand := .exhausted
  extend _ _ := .exhausted
  extension _ _ := .exhausted
  conditional := .exhausted
  function := .exhausted
  expressions _ _ := .exhausted
  moreExpressions _ _ := .exhausted
  pairs := .exhausted

section Step

variable {n : Nat} (ih : Accounting n)
include ih

theorem judges_statements_succ (inBlock : Bool) : Judges (statements (n + 1) inBlock) := by
  refine .current fun s => ?_
  dsimp only
  split
  · next hend =>
    refine Settled.settles (.pure _) ?_
    rcases hend with hk | ⟨-, hk⟩
    · rw [hk]
      rfl
    · rw [hk]
      rfl
  · exact (ih.statement s).bind fun _ => .advance (.bind (ih.statements _) fun _ => .pure _)

theorem judges_statement_succ : Judges (statement (n + 1)) := by
  refine .current fun s => ?_
  have hvalue : ∀ make : Node → Node, Judges (expression n .lowest >>= fun v =>
      endStatement >>= fun _ => pure (make v)) := fun make =>
    .bind (ih.expression _) fun _ => .bind .endStatement fun _ => .pure _
  split
  · next hk =>
    refine Settled.settles ?_ (by rw [hk]; rfl)
    exact .bind (.expect rfl) fun _ => .ite
      (.bind .name fun _ => .bind (.expect rfl) fun _ => .ite (.advance (hvalue _)) (.pure _))
      (.pure _)
  · next hk => exact Settled.settles (.advance (hvalue _)) (by rw [hk]; rfl)
  · exact hvalue _ s

theorem settled_block_succ : Settled (block (n + 1)) :=
  .bind .current fun _ => .advance (.bind (ih.statements _) fun _ => .pure _)

theorem judges_expression_succ (level : Level) : Judges (expression (n + 1) level) := by
  refine .bind ih.operand fun o => ?_
  cases o with
  | none => exact .pure _
  | some left => exact ih.extend _ _

theorem judges_operand_succ : Judges (operand (n + 1)) := by
  refine .current fun s => ?_
  have hright : ∀ level (make : Node → Option Node), Settled (advance >>= fun _ =>
      expression n level >>= fun e => pure (make e)) := fun level make =>
    .advance (.bind (ih.expression level) fun _ => .pure _)
  split
  · next hk => exact Settled.settles (.pure _) (by rw [hk]; rfl)
  · next hk => exact settles_integer (fun _ => .pure _) hk
  · next hk => exact Settled.settles (.pure _) (by rw [hk]; rfl)
  · next hk => exact Settled.settles (.pure _) (by rw [hk]; rfl)
  · next hk => exact Settled.settles (.pure _) (by rw [hk]; rfl)
  · next hk => exact Settled.settles (hright _ _) (by rw [hk]; rfl)
  · next hk => exact Settled.settles (hright _ _) (by rw [hk]; rfl)
  · next hk =>
    refine Settled.settles ?_ (by rw [hk]; rfl)
    exact .advance (.bind (ih.expression _) fun _ => .bind (.expect rfl) fun _ => .pure _)
  · next hk => exact Settled.settles (.bind ih.conditional fun _ => .pure _) (by rw [hk]; rfl)
  · next hk => exact Settled.settles (.bind ih.function fun _ => .pure _) (by rw [hk]; rfl)
  · next hk =>
    exact Settled.settles (.bind (ih.expressions _ rfl) fun _ => .pure _) (by rw [hk]; rfl)
  · next hk => exact Settled.settles (.bind ih.pairs fun _ => .pure _) (by rw [hk]; rfl)
  · next hk => exact settles_noOperand (.pure _) (by assumption)

theorem settled_extend_succ (level : Level) (left : Node) :
    Settled (extend (n + 1) level left) := by
  refine .advanceIf (c := fun t => level.rank < t.kind.level.rank) (fun t h => ?_)
    (fun t => .bind (ih.extension t left) fun _ => ih.extend _ _) fun _ => .pure _
  refine Kind.isBlameless_of_level fun heq => ?_
  rw [heq] at h
  exact absurd h (Nat.not_lt.mpr level.lowest_rank_le)

theorem settled_extension_succ (t : Token) (left : Node) : Settled (extension (n + 1) t left) := by
  rw [extension]
  split
  · exact .bind (ih.expressions _ rfl) fun _ => .pure _
  · exact .advance (.bind (ih.expression _) fun _ => .bind (.expect rfl) fun _ => .pure _)
  · exact .advance (.bind (ih.expression _) fun _ => .pure _)

theorem settled_conditional_succ : Settled (conditional (n + 1)) := by
  have halternative : ∀ t c a, Settled (ahead >>= fun u => if u.kind = .elseWord then
      advance >>= fun _ => expect .lbrace >>= fun b =>
        if b then block n >>= fun other => pure (.ifExpr t c a other) else pure .missing
      else pure (Node.ifExpr t c a .missing)) := fun t c a =>
    .advanceIf (c := fun u => u.kind = .elseWord) (fun _ h => h ▸ rfl)
      (fun _ => .bind (.expect rfl) fun _ => .ite (.bind ih.block fun _ => .pure _) (.pure _))
      fun _ => .pure _
  exact .bind .current fun _ => .bind (.expect rfl) fun _ => .ite
    (.advance (.bind (ih.expression _) fun _ => .bind (.expect rfl) fun _ => .ite
      (.bind (.expect rfl) fun _ => .ite (.bind ih.block fun _ => halternative _ _ _) (.pure _))
      (.pure _)))
    (.pure _)

theorem settled_function_succ : Settled (function (n + 1)) := by
  refine .bind .current fun _ => .bind (.expect rfl) fun _ =>
    .ite (.bind (settled_parameters n) fun ps => ?_) (.pure _)
  cases ps with
  | none => exact .pure _
  | some ps => exact .bind (.expect rfl) fun _ => .ite (.bind ih.block fun _ => .pure _) (.pure _)

theorem settled_expressions_succ {close : Kind} (hclose : close.closesItems) :
    Settled (expressions (n + 1) close) :=
  .advanceIf (c := fun t => t.kind = close)
    (fun _ h => h ▸ Kind.isBlameless_of_closesItems hclose) (fun _ => .pure _)
    fun _ => .advance (.bind (ih.expression _) fun _ =>
      .bind (ih.moreExpressions _ hclose) fun _ => .pure _)

theorem settled_moreExpressions_succ {close : Kind} (hclose : close.closesItems) :
    Settled (moreExpressions (n + 1) close) :=
  .advanceIf (c := fun t => t.kind = .comma) (fun _ h => h ▸ rfl)
    (fun _ => .advance (.bind (ih.expression _) fun _ =>
      .bind (ih.moreExpressions _ hclose) fun _ => .pure _))
    fun _ => .bind (.expect (Kind.isBlameless_of_closesItems hclose)) fun _ => .pure _

theorem settled_pairs_succ : Settled (pairs (n + 1)) := by
  have hmore : ∀ p : Node × Node, Settled (pairs n >>= fun ps => pure (ps.map (p :: ·))) :=
    fun _ => .bind ih.pairs fun _ => .pure _
  exact .advanceIf (c := fun t => t.kind = .rbrace) (fun _ h => h ▸ rfl) (fun _ => .pure _)
    fun _ => .advance (.bind (ih.expression _) fun _ => .bind (.expect rfl) fun _ => .ite
      (.advance (.bind (ih.expression _) fun _ => .bind .ahead fun _ => .ite (hmore _)
        (.bind (.expect rfl) fun _ => .ite (hmore _) (.pure _))))
      (.pure _))

end Step

theorem accounting (n : Nat) : Accounting n := by
  induction n with
  | zero => exact accounting_zero
  | succ n ih =>
    exact {
      statements := judges_statements_succ ih
      statement := judges_statement_succ ih
      block := settled_block_succ ih
      expression := judges_expression_succ ih
      operand := judges_operand_succ ih
      extend := settled_extend_succ ih
      extension := settled_extension_succ ih
      conditional := settled_conditional_succ ih
      function := settled_function_succ ih
      expressions := fun _ => settled_expressions_succ ih
      moreExpressions := fun _ => settled_moreExpressions_succ ih
      pairs := settled_pairs_succ ih }

end Parse

open Parse

/-- Of all complaints about a source, those about tokens are the ones that its tokens call for. -/
theorem audit_ofText (source : String) : audit (Token.ofText source) =
    (parse source).map fun r => r.2.filter Complaint.isAboutToken := by
  have hproper : Proper (Token.ofText source) := proper_tokenize _
  have hfinishes := finishes_statements_allowance (Token.ofText source)
  have hsettles := (accounting (allowance (Token.ofText source).length)).statements false
    ⟨Token.ofText source, []⟩
  have hstart : State.account ⟨Token.ofText source, []⟩ = audit (Token.ofText source) := by
    change (audit (Token.ofText source)).map id = _
    simp
  unfold parse parseTokens
  unfold Finishes at hfinishes
  unfold Settles at hsettles
  cases hr : (statements (allowance (Token.ofText source).length) false).run
      ⟨Token.ofText source, []⟩ with
  | error a =>
    rw [hr] at hsettles hfinishes
    rcases hsettles with rfl | howed
    · exact absurd rfl hfinishes
    · exact hstart.symm.trans howed
  | ok r =>
    obtain ⟨ss, s⟩ := r
    rw [hr] at hsettles
    have hsuffix := (keeping kept_suffix _).statements _ _ _ _ hr
    have hnil := (hproper.of_suffix hsuffix).eq_nil (kind_eq_eof_of_statements hr)
    have hend : s.next.account = .ok s.blamed := by
      change (audit s.tokens.tail).map (s.blamed ++ ·) = _
      simp [hnil, audit, Except.map]
    rw [← hstart, ← hsettles, hend]
    simp [State.blamed, bind, Except.bind, pure, Except.pure, Except.map]

/-- Reading a source fails exactly if a numeral somewhere in it is too long, and tells how long the
first such numeral is. If it does not fail, each numeral out of range and each character without a
meaning is complained of exactly once, in the order of the source. -/
theorem tokens_judged_once (source : String) :
    ((∃ a, parse source = .error a) ↔ ∃ t ∈ Token.ofText source, t.isOverlong) ∧
    (∀ a, parse source = .error a → ∃ t, (Token.ofText source).find? Token.isOverlong = some t ∧
      Defect.ofAbort a = .overlong t.literal.toList.length) ∧
    ∀ tree complaints, parse source = .ok (tree, complaints) →
      (complaints.map Complaint.message).filter Complaint.isTokenMessage =
        ((Token.ofText source).filterMap Token.complaint?).map Complaint.message := by
  have haudit := audit_ofText source
  cases hfind : (Token.ofText source).find? Token.isOverlong with
  | some t =>
    have hlong : ∃ t ∈ Token.ofText source, t.isOverlong :=
      ⟨t, List.mem_of_find?_eq_some hfind, List.find?_some hfind⟩
    rw [audit_eq_error hfind] at haudit
    cases hparse : parse source with
    | ok r =>
      rw [hparse] at haudit
      cases haudit
    | error a =>
      rw [hparse] at haudit
      cases haudit
      refine ⟨⟨fun _ => hlong, fun _ => ⟨_, rfl⟩⟩, fun a ha => ⟨t, rfl, ?_⟩, nofun⟩
      cases ha
      rfl
  | none =>
    rw [audit_eq_ok hfind] at haudit
    cases hparse : parse source with
    | error a =>
      rw [hparse] at haudit
      cases haudit
    | ok r =>
      rw [hparse] at haudit
      refine ⟨⟨nofun, fun ⟨t, ht, hlong⟩ => ?_⟩, nofun, fun tree complaints heq => ?_⟩
      · exact absurd hlong (List.find?_eq_none.mp hfind t ht)
      · cases heq
        have hfilter := Except.ok.inj haudit
        rw [hfilter, List.filter_map]
        congr 1
        exact List.filter_congr fun c _ => Complaint.isTokenMessage_message c

end TreeWalk
