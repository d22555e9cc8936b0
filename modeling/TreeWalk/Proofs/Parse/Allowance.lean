import TreeWalk.Proofs.Parse.Calls

namespace TreeWalk.Parse

variable {α β : Type}

/-- Unless `p` runs out of steps, `q` does the same. -/
def Refines (p q : Parse α) : Prop := ∀ s, p.run s ≠ .error .exhausted → q.run s = p.run s

namespace Refines

theorem refl (p : Parse α) : Refines p p := fun _ _ => rfl

theorem trans {p q r : Parse α} (h : Refines p q) (h' : Refines q r) : Refines p r := by
  intro s hs
  have hq := h s hs
  rw [← hq] at hs
  rw [h' s hs, hq]

theorem exhausted (q : Parse α) : Refines (throw .exhausted) q := fun _ h => absurd rfl h

theorem bind {x y : Parse α} {f g : α → Parse β} (h : Refines x y) (hf : ∀ a, Refines (f a) (g a)) :
    Refines (x >>= f) (y >>= g) := by
  intro s hs
  simp only [run_bind] at hs ⊢
  have hx : x.run s ≠ .error .exhausted := by
    intro heq
    rw [heq] at hs
    exact hs rfl
  rw [h s hx]
  cases hr : x.run s with
  | error e => rfl
  | ok r =>
    rw [hr] at hs
    exact hf r.1 r.2 hs

theorem ite {c : Prop} [Decidable c] {x y x' y' : Parse α} (h : Refines x x') (h' : Refines y y') :
    Refines (if c then x else y) (if c then x' else y') := by
  split
  · exact h
  · exact h'

end Refines

theorem refines_moreParameters : ∀ n, Refines (moreParameters n) (moreParameters (n + 1))
  | 0 => .exhausted _
  | n + 1 => .bind (.refl _) fun _ =>
    .ite (.bind (.refl _) fun _ => .bind (.refl _) fun _ =>
      .ite (.bind (.refl _) fun _ => .bind (refines_moreParameters n) fun _ => .refl _) (.refl _))
    (.refl _)

theorem refines_parameters (n : Nat) : Refines (parameters n) (parameters (n + 1)) :=
  .bind (.refl _) fun _ => .ite (.refl _) (.bind (.refl _) fun _ =>
    .ite (.bind (.refl _) fun _ => .bind (refines_moreParameters n) fun _ => .refl _) (.refl _))

/-- One step more changes nothing. -/
structure Stable (n : Nat) : Prop where
  statements : ∀ inBlock, Refines (statements n inBlock) (statements (n + 1) inBlock)
  statement : Refines (statement n) (statement (n + 1))
  block : Refines (block n) (block (n + 1))
  expression : ∀ level, Refines (expression n level) (expression (n + 1) level)
  operand : Refines (operand n) (operand (n + 1))
  extend : ∀ level left, Refines (extend n level left) (extend (n + 1) level left)
  extension : ∀ t left, Refines (extension n t left) (extension (n + 1) t left)
  conditional : Refines (conditional n) (conditional (n + 1))
  function : Refines (function n) (function (n + 1))
  expressions : ∀ close, Refines (expressions n close) (expressions (n + 1) close)
  moreExpressions : ∀ close, Refines (moreExpressions n close) (moreExpressions (n + 1) close)
  pairs : Refines (pairs n) (pairs (n + 1))

theorem stable_zero : Stable 0 where
  statements _ := .exhausted _
  statement := .exhausted _
  block := .exhausted _
  expression _ := .exhausted _
  operand := .exhausted _
  extend _ _ := .exhausted _
  extension _ _ := .exhausted _
  conditional := .exhausted _
  function := .exhausted _
  expressions _ := .exhausted _
  moreExpressions _ := .exhausted _
  pairs := .exhausted _

theorem stable_succ {n : Nat} (ih : Stable n) : Stable (n + 1) where
  statements inBlock :=
    .bind (.refl _) fun _ => .ite (.refl _) (.bind ih.statement fun _ =>
      .bind (.refl _) fun _ => .bind (ih.statements inBlock) fun _ => .refl _)
  statement := by
    refine .bind (.refl _) fun t => ?_
    split
    · exact .bind (.refl _) fun _ => .ite
        (.bind (.refl _) fun _ => .bind (.refl _) fun _ => .ite
          (.bind (.refl _) fun _ => .bind (ih.expression _) fun _ => .refl _) (.refl _)) (.refl _)
    · exact .bind (.refl _) fun _ => .bind (ih.expression _) fun _ => .refl _
    · exact .bind (ih.expression _) fun _ => .refl _
  block :=
    .bind (.refl _) fun _ => .bind (.refl _) fun _ => .bind (ih.statements _) fun _ => .refl _
  expression level := by
    refine .bind ih.operand fun o => ?_
    split
    · exact ih.extend _ _
    · exact .refl _
  operand := by
    refine .bind (.refl _) fun t => ?_
    split
    · exact .refl _
    · exact .refl _
    · exact .refl _
    · exact .refl _
    · exact .refl _
    · exact .bind (.refl _) fun _ => .bind (ih.expression _) fun _ => .refl _
    · exact .bind (.refl _) fun _ => .bind (ih.expression _) fun _ => .refl _
    · exact .bind (.refl _) fun _ => .bind (ih.expression _) fun _ => .refl _
    · exact .bind ih.conditional fun _ => .refl _
    · exact .bind ih.function fun _ => .refl _
    · exact .bind (ih.expressions _) fun _ => .refl _
    · exact .bind ih.pairs fun _ => .refl _
    · exact .refl _
  extend level left :=
    .bind (.refl _) fun _ => .ite
      (.bind (.refl _) fun _ => .bind (ih.extension _ _) fun _ => ih.extend _ _) (.refl _)
  extension t left := by
    rw [extension, extension]
    split
    · exact .bind (ih.expressions _) fun _ => .refl _
    · exact .bind (.refl _) fun _ => .bind (ih.expression _) fun _ => .refl _
    · exact .bind (.refl _) fun _ => .bind (ih.expression _) fun _ => .refl _
  conditional :=
    .bind (.refl _) fun _ => .bind (.refl _) fun _ => .ite
      (.bind (.refl _) fun _ => .bind (ih.expression _) fun _ => .bind (.refl _) fun _ => .ite
        (.bind (.refl _) fun _ => .ite
          (.bind ih.block fun _ => .bind (.refl _) fun _ => .ite
            (.bind (.refl _) fun _ => .bind (.refl _) fun _ => .ite
              (.bind ih.block fun _ => .refl _) (.refl _))
            (.refl _))
          (.refl _))
        (.refl _))
      (.refl _)
  function := by
    refine .bind (.refl _) fun _ => .bind (.refl _) fun _ =>
      .ite (.bind (refines_parameters n) fun ps => ?_) (.refl _)
    split
    · exact .bind (.refl _) fun _ => .ite (.bind ih.block fun _ => .refl _) (.refl _)
    · exact .refl _
  expressions close :=
    .bind (.refl _) fun _ => .ite (.refl _) (.bind (.refl _) fun _ =>
      .bind (ih.expression _) fun _ => .bind (ih.moreExpressions _) fun _ => .refl _)
  moreExpressions close :=
    .bind (.refl _) fun _ => .ite
      (.bind (.refl _) fun _ => .bind (.refl _) fun _ =>
        .bind (ih.expression _) fun _ => .bind (ih.moreExpressions _) fun _ => .refl _)
      (.refl _)
  pairs :=
    .bind (.refl _) fun _ => .ite (.refl _) (.bind (.refl _) fun _ =>
      .bind (ih.expression _) fun _ => .bind (.refl _) fun _ => .ite
        (.bind (.refl _) fun _ => .bind (ih.expression _) fun _ => .bind (.refl _) fun _ => .ite
          (.bind ih.pairs fun _ => .refl _)
          (.bind (.refl _) fun _ => .ite (.bind ih.pairs fun _ => .refl _) (.refl _)))
        (.refl _))

theorem stable (n : Nat) : Stable n := by
  induction n with
  | zero => exact stable_zero
  | succ n ih => exact stable_succ ih

theorem refines_statements {n m : Nat} (h : n ≤ m) (inBlock : Bool) :
    Refines (statements n inBlock) (statements m inBlock) := by
  induction h with
  | refl => exact .refl _
  | @step m _ ih => exact ih.trans ((stable m).statements inBlock)

/-- Steps linear in the number of tokens are enough. -/
theorem finishes_statements_allowance (ts : List Token) :
    Finishes (statements (allowance ts.length) false) ⟨ts, []⟩ := by
  rw [← outcome_ne_exhausted]
  apply Call.finishes_of_weight_lt (c := ⟨.statements false, ⟨ts, []⟩⟩)
  simp only [Call.weight, Call.left, Job.rank, allowance]
  omega

/-- The allowance of a token list gives the result of any greater number of steps. -/
theorem run_statements_allowance {ts : List Token} {n : Nat} (h : allowance ts.length ≤ n) :
    (statements (allowance ts.length) false).run ⟨ts, []⟩ = (statements n false).run ⟨ts, []⟩ :=
  (refines_statements h false ⟨ts, []⟩ (finishes_statements_allowance ts)).symm

end TreeWalk.Parse

namespace TreeWalk

open Parse

/-- Reading a source never runs out of steps. -/
theorem parse_ne_exhausted (source : String) : parse source ≠ .error .exhausted := by
  have hfinishes := finishes_statements_allowance (Token.ofText source)
  unfold Finishes at hfinishes
  unfold parse parseTokens
  intro h
  rcases hrun : (statements (allowance (Token.ofText source).length) false).run
    ⟨Token.ofText source, []⟩ with a | r
  · rw [hrun] at h hfinishes
    cases h
    exact hfinishes rfl
  · rw [hrun] at h
    cases h

end TreeWalk
