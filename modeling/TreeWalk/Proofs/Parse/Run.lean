import TreeWalk.Proofs.Grammar

/-! Reading consists of moving on and complaining, so it keeps every preorder on states that these
two keep. -/
namespace TreeWalk.Parse

variable {α β : Type}

namespace State

def next (s : State) : State := { s with tokens := s.tokens.tail }

def note (s : State) (c : Complaint) : State := { s with complaints := c :: s.complaints }

@[simp] theorem tokens_next (s : State) : s.next.tokens = s.tokens.tail := rfl

@[simp] theorem complaints_next (s : State) : s.next.complaints = s.complaints := rfl

@[simp] theorem tokens_note (s : State) (c : Complaint) : (s.note c).tokens = s.tokens := rfl

@[simp] theorem complaints_note (s : State) (c : Complaint) :
    (s.note c).complaints = c :: s.complaints := rfl

theorem next_mk (ts : List Token) (cs : List Complaint) : next ⟨ts, cs⟩ = ⟨ts.tail, cs⟩ := rfl

theorem current_mk (ts : List Token) (cs : List Complaint) : current ⟨ts, cs⟩ = front ts := rfl

theorem ahead_mk (ts : List Token) (cs : List Complaint) : ahead ⟨ts, cs⟩ = front ts.tail := rfl

end State

theorem run_bind (x : Parse α) (f : α → Parse β) (s : State) :
    (x >>= f).run s = x.run s >>= fun r => (f r.1).run r.2 := rfl

theorem run_bind_of_ok {x : Parse α} {s s' : State} {a : α} (h : x.run s = .ok (a, s'))
    (f : α → Parse β) : (x >>= f).run s = (f a).run s' := by
  rw [run_bind, h]
  rfl

theorem exists_of_run_bind {x : Parse α} {f : α → Parse β} {s : State} {r : β × State}
    (h : (x >>= f).run s = .ok r) :
    ∃ a s', x.run s = .ok (a, s') ∧ (f a).run s' = .ok r := by
  rw [run_bind] at h
  cases hx : x.run s with
  | error e =>
    rw [hx] at h
    cases h
  | ok p =>
    rw [hx] at h
    exact ⟨p.1, p.2, rfl, h⟩

@[simp] theorem run_pure (a : α) (s : State) : (pure a : Parse α).run s = .ok (a, s) := rfl

@[simp] theorem run_throw (e : Abort) (s : State) : (throw e : Parse α).run s = .error e := rfl

@[simp] theorem run_throw_bind (e : Abort) (f : α → Parse β) (s : State) :
    (throw e >>= f).run s = .error e := rfl

@[simp] theorem run_current_bind (f : Token → Parse α) (s : State) :
    (current >>= f).run s = (f s.current).run s := rfl

@[simp] theorem run_ahead_bind (f : Token → Parse α) (s : State) :
    (ahead >>= f).run s = (f s.ahead).run s := rfl

@[simp] theorem run_advance_bind (f : Unit → Parse α) (s : State) :
    (advance >>= f).run s = (f ()).run s.next := rfl

@[simp] theorem run_advance (s : State) : advance.run s = .ok ((), s.next) := rfl

@[simp] theorem run_complain_bind (c : Complaint) (f : Unit → Parse α) (s : State) :
    (complain c >>= f).run s = (f ()).run (s.note c) := rfl

@[simp] theorem run_name_bind (f : Node → Parse α) (s : State) :
    (name >>= f).run s = (f (.ident s.current s.current.literal)).run s := rfl

theorem run_ite (c : Prop) [Decidable c] (x y : Parse α) (s : State) :
    (if c then x else y).run s = if c then x.run s else y.run s := by
  split <;> rfl

@[simp] theorem run_expect_bind (k : Kind) (f : Bool → Parse α) (s : State) :
    (expect k >>= f).run s =
      if s.ahead.kind = k then (f true).run s.next
      else (f false).run (s.note (.expected k s.ahead.kind)) := by
  simp only [expect, bind_assoc, run_ahead_bind]
  split <;> rfl

@[simp] theorem run_endStatement_bind (f : Unit → Parse α) (s : State) :
    (endStatement >>= f).run s =
      if s.ahead.kind = .semicolon then (f ()).run s.next else (f ()).run s := by
  simp only [endStatement, bind_assoc, run_ahead_bind]
  split <;> rfl

theorem run_integer (s : State) :
    integer.run s =
      if maxDigits < s.current.literal.toList.length then
        .error (.overlong s.current.literal.toList.length)
      else if maxInt < (decimalValue s.current.literal.toList : Int) then
        .ok (.missing, s.note (.outOfRange s.current.literal))
      else .ok (.intLit s.current (decimalValue s.current.literal.toList), s) := by
  simp only [integer, run_current_bind, run_ite, run_throw_bind]
  split
  · rfl
  · split <;> rfl

/-- Every successful run of `p` relates its first state to its last. -/
def Keeps (R : State → State → Prop) (p : Parse α) : Prop :=
  ∀ s a s', p.run s = .ok (a, s') → R s s'

/-- A preorder that moving on and complaining keep. -/
structure Kept (R : State → State → Prop) : Prop where
  refl : ∀ s, R s s
  trans : ∀ {a b c}, R a b → R b c → R a c
  next : ∀ s, R s s.next
  note : ∀ s c, R s (s.note c)

section Keeps

variable {R : State → State → Prop}

theorem Keeps.pure (hR : Kept R) (a : α) : Keeps R (pure a : Parse α) := by
  intro s b s' h
  cases h
  exact hR.refl s

theorem Keeps.throw (e : Abort) : Keeps R (throw e : Parse α) := fun _ _ _ h => nomatch h

theorem Keeps.bind (hR : Kept R) {x : Parse α} {f : α → Parse β} (hx : Keeps R x)
    (hf : ∀ a, Keeps R (f a)) : Keeps R (x >>= f) := by
  intro s b s' h
  obtain ⟨a, m, hxm, hfm⟩ := exists_of_run_bind h
  exact hR.trans (hx s a m hxm) (hf a m b s' hfm)

theorem Keeps.ite {c : Prop} [Decidable c] {x y : Parse α} (hx : Keeps R x) (hy : Keeps R y) :
    Keeps R (if c then x else y) := by
  split
  · exact hx
  · exact hy

theorem keeps_current (hR : Kept R) : Keeps R current := by
  intro s a s' h
  cases h
  exact hR.refl s

theorem keeps_ahead (hR : Kept R) : Keeps R ahead := by
  intro s a s' h
  cases h
  exact hR.refl s

theorem keeps_name (hR : Kept R) : Keeps R name := by
  intro s a s' h
  cases h
  exact hR.refl s

theorem keeps_advance (hR : Kept R) : Keeps R advance := by
  intro s a s' h
  cases h
  exact hR.next s

theorem keeps_complain (hR : Kept R) (c : Complaint) : Keeps R (complain c) := by
  intro s a s' h
  cases h
  exact hR.note s c

theorem keeps_expect (hR : Kept R) (k : Kind) : Keeps R (expect k) :=
  .bind hR (keeps_ahead hR) fun _ =>
    .ite (.bind hR (keeps_advance hR) fun _ => .pure hR true)
      (.bind hR (keeps_complain hR _) fun _ => .pure hR false)

theorem keeps_endStatement (hR : Kept R) : Keeps R endStatement :=
  .bind hR (keeps_ahead hR) fun _ => .ite (keeps_advance hR) (.pure hR ())

theorem keeps_integer (hR : Kept R) : Keeps R integer := by
  intro s a s' h
  rw [run_integer] at h
  split at h
  · cases h
  · split at h
    · cases h
      exact hR.note s _
    · cases h
      exact hR.refl s

theorem keeps_moreParameters (hR : Kept R) : ∀ n, Keeps R (moreParameters n)
  | 0 => .throw _
  | n + 1 => .bind hR (keeps_ahead hR) fun _ =>
    .ite
      (.bind hR (keeps_advance hR) fun _ => .bind hR (keeps_expect hR _) fun _ =>
        .ite (.bind hR (keeps_name hR) fun _ =>
          .bind hR (keeps_moreParameters hR n) fun _ => .pure hR _) (.pure hR _))
      (.bind hR (keeps_expect hR _) fun _ => .pure hR _)

theorem keeps_parameters (hR : Kept R) (n : Nat) : Keeps R (parameters n) :=
  .bind hR (keeps_ahead hR) fun _ =>
    .ite (.bind hR (keeps_advance hR) fun _ => .pure hR _)
      (.bind hR (keeps_expect hR _) fun _ =>
        .ite (.bind hR (keeps_name hR) fun _ =>
          .bind hR (keeps_moreParameters hR n) fun _ => .pure hR _) (.pure hR _))

structure Keeping (R : State → State → Prop) (n : Nat) : Prop where
  statements : ∀ inBlock, Keeps R (statements n inBlock)
  statement : Keeps R (statement n)
  block : Keeps R (block n)
  expression : ∀ level, Keeps R (expression n level)
  operand : Keeps R (operand n)
  extend : ∀ level left, Keeps R (extend n level left)
  extension : ∀ t left, Keeps R (extension n t left)
  conditional : Keeps R (conditional n)
  function : Keeps R (function n)
  expressions : ∀ close, Keeps R (expressions n close)
  moreExpressions : ∀ close, Keeps R (moreExpressions n close)
  pairs : Keeps R (pairs n)

theorem keeping_zero : Keeping R 0 where
  statements _ := .throw _
  statement := .throw _
  block := .throw _
  expression _ := .throw _
  operand := .throw _
  extend _ _ := .throw _
  extension _ _ := .throw _
  conditional := .throw _
  function := .throw _
  expressions _ := .throw _
  moreExpressions _ := .throw _
  pairs := .throw _

section Step

variable {n : Nat} (hR : Kept R) (ih : Keeping R n)
include hR ih

theorem keeps_statements_succ (inBlock : Bool) : Keeps R (statements (n + 1) inBlock) :=
  .bind hR (keeps_current hR) fun _ =>
    .ite (.pure hR _) (.bind hR ih.statement fun _ => .bind hR (keeps_advance hR) fun _ =>
      .bind hR (ih.statements _) fun _ => .pure hR _)

theorem keeps_statement_succ : Keeps R (statement (n + 1)) := by
  refine .bind hR (keeps_current hR) fun t => ?_
  split
  · exact .bind hR (keeps_expect hR _) fun _ =>
      .ite
        (.bind hR (keeps_name hR) fun _ => .bind hR (keeps_expect hR _) fun _ =>
          .ite
            (.bind hR (keeps_advance hR) fun _ => .bind hR (ih.expression _) fun _ =>
              .bind hR (keeps_endStatement hR) fun _ => .pure hR _)
            (.pure hR _))
        (.pure hR _)
  · exact .bind hR (keeps_advance hR) fun _ => .bind hR (ih.expression _) fun _ =>
      .bind hR (keeps_endStatement hR) fun _ => .pure hR _
  · exact .bind hR (ih.expression _) fun _ => .bind hR (keeps_endStatement hR) fun _ => .pure hR _

theorem keeps_block_succ : Keeps R (block (n + 1)) :=
  .bind hR (keeps_current hR) fun _ => .bind hR (keeps_advance hR) fun _ =>
    .bind hR (ih.statements _) fun _ => .pure hR _

theorem keeps_expression_succ (level : Level) : Keeps R (expression (n + 1) level) := by
  refine .bind hR ih.operand fun o => ?_
  split
  · exact ih.extend _ _
  · exact .pure hR _

theorem keeps_operand_succ : Keeps R (operand (n + 1)) := by
  refine .bind hR (keeps_current hR) fun t => ?_
  split
  · exact .pure hR _
  · exact .bind hR (keeps_integer hR) fun _ => .pure hR _
  · exact .pure hR _
  · exact .pure hR _
  · exact .pure hR _
  · exact .bind hR (keeps_advance hR) fun _ => .bind hR (ih.expression _) fun _ => .pure hR _
  · exact .bind hR (keeps_advance hR) fun _ => .bind hR (ih.expression _) fun _ => .pure hR _
  · exact .bind hR (keeps_advance hR) fun _ => .bind hR (ih.expression _) fun _ =>
      .bind hR (keeps_expect hR _) fun _ => .pure hR _
  · exact .bind hR ih.conditional fun _ => .pure hR _
  · exact .bind hR ih.function fun _ => .pure hR _
  · exact .bind hR (ih.expressions _) fun _ => .pure hR _
  · exact .bind hR ih.pairs fun _ => .pure hR _
  · exact .bind hR (keeps_complain hR _) fun _ => .pure hR _

theorem keeps_extend_succ (level : Level) (left : Node) : Keeps R (extend (n + 1) level left) :=
  .bind hR (keeps_ahead hR) fun _ =>
    .ite (.bind hR (keeps_advance hR) fun _ => .bind hR (ih.extension _ _) fun _ => ih.extend _ _)
      (.pure hR _)

theorem keeps_extension_succ (t : Token) (left : Node) : Keeps R (extension (n + 1) t left) := by
  rw [extension]
  split
  · exact .bind hR (ih.expressions _) fun _ => .pure hR _
  · exact .bind hR (keeps_advance hR) fun _ => .bind hR (ih.expression _) fun _ =>
      .bind hR (keeps_expect hR _) fun _ => .pure hR _
  · exact .bind hR (keeps_advance hR) fun _ => .bind hR (ih.expression _) fun _ => .pure hR _

theorem keeps_conditional_succ : Keeps R (conditional (n + 1)) :=
  .bind hR (keeps_current hR) fun _ => .bind hR (keeps_expect hR _) fun _ =>
    .ite
      (.bind hR (keeps_advance hR) fun _ => .bind hR (ih.expression _) fun _ =>
        .bind hR (keeps_expect hR _) fun _ =>
          .ite
            (.bind hR (keeps_expect hR _) fun _ =>
              .ite
                (.bind hR ih.block fun _ => .bind hR (keeps_ahead hR) fun _ =>
                  .ite
                    (.bind hR (keeps_advance hR) fun _ => .bind hR (keeps_expect hR _) fun _ =>
                      .ite (.bind hR ih.block fun _ => .pure hR _) (.pure hR _))
                    (.pure hR _))
                (.pure hR _))
            (.pure hR _))
      (.pure hR _)

theorem keeps_function_succ : Keeps R (function (n + 1)) := by
  refine .bind hR (keeps_current hR) fun _ => .bind hR (keeps_expect hR _) fun _ =>
    .ite (.bind hR (keeps_parameters hR n) fun ps => ?_) (.pure hR _)
  split
  · exact .bind hR (keeps_expect hR _) fun _ =>
      .ite (.bind hR ih.block fun _ => .pure hR _) (.pure hR _)
  · exact .pure hR _

theorem keeps_expressions_succ (close : Kind) : Keeps R (expressions (n + 1) close) :=
  .bind hR (keeps_ahead hR) fun _ =>
    .ite (.bind hR (keeps_advance hR) fun _ => .pure hR _)
      (.bind hR (keeps_advance hR) fun _ => .bind hR (ih.expression _) fun _ =>
        .bind hR (ih.moreExpressions _) fun _ => .pure hR _)

theorem keeps_moreExpressions_succ (close : Kind) : Keeps R (moreExpressions (n + 1) close) :=
  .bind hR (keeps_ahead hR) fun _ =>
    .ite
      (.bind hR (keeps_advance hR) fun _ => .bind hR (keeps_advance hR) fun _ =>
        .bind hR (ih.expression _) fun _ => .bind hR (ih.moreExpressions _) fun _ => .pure hR _)
      (.bind hR (keeps_expect hR _) fun _ => .pure hR _)

theorem keeps_pairs_succ : Keeps R (pairs (n + 1)) :=
  .bind hR (keeps_ahead hR) fun _ =>
    .ite (.bind hR (keeps_advance hR) fun _ => .pure hR _)
      (.bind hR (keeps_advance hR) fun _ => .bind hR (ih.expression _) fun _ =>
        .bind hR (keeps_expect hR _) fun _ =>
          .ite
            (.bind hR (keeps_advance hR) fun _ => .bind hR (ih.expression _) fun _ =>
              .bind hR (keeps_ahead hR) fun _ =>
                .ite (.bind hR ih.pairs fun _ => .pure hR _)
                  (.bind hR (keeps_expect hR _) fun _ =>
                    .ite (.bind hR ih.pairs fun _ => .pure hR _) (.pure hR _)))
            (.pure hR _))

end Step

/-- Reading keeps whatever moving on and complaining keep. -/
theorem keeping (hR : Kept R) (n : Nat) : Keeping R n := by
  induction n with
  | zero => exact keeping_zero
  | succ n ih =>
    exact {
      statements := keeps_statements_succ hR ih
      statement := keeps_statement_succ hR ih
      block := keeps_block_succ hR ih
      expression := keeps_expression_succ hR ih
      operand := keeps_operand_succ hR ih
      extend := keeps_extend_succ hR ih
      extension := keeps_extension_succ hR ih
      conditional := keeps_conditional_succ hR ih
      function := keeps_function_succ hR ih
      expressions := keeps_expressions_succ hR ih
      moreExpressions := keeps_moreExpressions_succ hR ih
      pairs := keeps_pairs_succ hR ih }

end Keeps

/-- Tokens are only taken off the front. -/
theorem kept_suffix : Kept fun s s' => s'.tokens <:+ s.tokens where
  refl s := List.suffix_refl s.tokens
  trans h h' := h'.trans h
  next s := List.tail_suffix s.tokens
  note s _ := List.suffix_refl s.tokens

theorem kept_complaints : Kept fun s s' => s'.complaints = [] → s.complaints = [] where
  refl _ h := h
  trans h h' hc := h (h' hc)
  next _ h := h
  note _ _ h := nomatch h

/-- Statements are read up to the end of input or, inside a block, to its closing brace. -/
theorem kind_of_statements {n : Nat} {inBlock : Bool} {s s' : State} {ss : List Node}
    (h : (statements n inBlock).run s = .ok (ss, s')) :
    s'.current.kind = .eof ∨ inBlock = true ∧ s'.current.kind = .rbrace := by
  induction n generalizing s ss with
  | zero => cases h
  | succ n ih =>
    simp only [statements, run_current_bind, run_ite] at h
    split at h
    · next hend =>
      cases h
      exact hend
    · obtain ⟨e, m, -, h⟩ := exists_of_run_bind h
      rw [run_advance_bind] at h
      obtain ⟨es, m', hes, h⟩ := exists_of_run_bind h
      cases h
      exact ih hes

theorem kind_eq_eof_of_statements {n : Nat} {s s' : State} {ss : List Node}
    (h : (statements n false).run s = .ok (ss, s')) : s'.current.kind = .eof :=
  (kind_of_statements h).resolve_right fun hblock => Bool.false_ne_true hblock.1

end TreeWalk.Parse
