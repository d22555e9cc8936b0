import TreeWalk.Proofs.Eval.Matching
import TreeWalk.Proofs.Session.Sources
import TreeWalk.Proofs.Value.Literal

namespace TreeWalk

namespace Action

/-- The action comes to this value from any state, prints nothing and leaves the store alone. -/
def Silent (act : Action Value) (v : Value) : Prop :=
  ∀ s, ∃ s', act.run s = (.ok v, s') ∧ s'.store = s.store ∧ s'.lines = s.lines

variable {act : Action Value} {v w : Value}

theorem silent_pure (v : Value) : Silent (pure v) v := fun s => ⟨s, rfl, rfl, rfl⟩

theorem Silent.observed (h : act.Silent v) (n : Node) (scope : ScopeId) :
    (act.observed n scope).Silent v := by
  intro s
  obtain ⟨s', hrun, hstore, hlines⟩ := h ⟨s.store, .entered n scope :: s.journal⟩
  refine ⟨⟨s'.store, .completed n v :: s'.journal⟩, ?_, hstore, ?_⟩
  · unfold Action.observed
    simp only [run_bind, run_record, hrun, run_pure]
  · rw [State.lines_cons, hlines, State.lines_cons]
    simp [Event.line?]

theorem Silent.unlessError (h : act.Silent v) (hv : v.isError = false) {k : Value → Action Value}
    (hk : (k v).Silent w) : (act.unlessError k).Silent w := by
  intro s
  obtain ⟨s₁, hrun, hstore, hlines⟩ := h s
  obtain ⟨s₂, hrun', hstore', hlines'⟩ := hk s₁
  refine ⟨s₂, ?_, hstore'.trans hstore, hlines'.trans hlines⟩
  unfold Action.unlessError
  simp only [run_bind, hrun, hv, Bool.false_eq_true, if_false, hrun']

end Action

open TreeWalk.Action

section

variable {call : Value → List Value → Action Value} {scope : ScopeId}

theorem silent_evalAll {nodes : List Node} {vs : List Value}
    (h : List.Forall₂ (fun n v => (eval call n scope).Silent v ∧ v.isError = false) nodes vs)
    {k : List Value → Action Value} {w : Value} (hk : (k vs).Silent w) :
    (evalAll call scope nodes k).Silent w := by
  induction h generalizing k with
  | nil =>
    rw [evalAll_nil]
    exact hk
  | cons hv _ ih =>
    rw [evalAll_cons]
    exact hv.1.unlessError hv.2 (ih hk)

theorem silent_evalPairs {ps : List (Node × Node)} {es : List (HashKey × Value × Value)}
    (h : List.Forall₂ (fun p e => (eval call p.1 scope).Silent e.2.1 ∧ e.2.1.hashKey? = some e.1 ∧
      (eval call p.2 scope).Silent e.2.2 ∧ e.2.2.isError = false) ps es)
    (entries : Ordered HashKey (Value × Value)) :
    (evalPairs call ps entries scope).Silent
      (.hash (es.foldl (fun entries e => Ordered.put entries e.1 e.2) entries)) := by
  induction h generalizing entries with
  | nil =>
    rw [evalPairs]
    exact silent_pure _
  | @cons p e ps es hpair _ ih =>
    obtain ⟨hkey, hhash, hvalue, herror⟩ := hpair
    have hkeyError : e.2.1.isError = false := by
      cases hk : e.2.1 with
      | error message =>
        rw [hk] at hhash
        cases hhash
      | _ => rfl
    rw [evalPairs_cons]
    refine hkey.unlessError hkeyError ?_
    rw [hhash]
    exact hvalue.unlessError herror (ih _)

end

namespace Value

variable {v : Value}

theorem HasLiteral.isError (h : v.HasLiteral) : v.isError = false := by
  cases h <;> rfl

theorem HasLiteral.unwrapped (h : v.HasLiteral) : v.unwrapped = v := by
  cases h <;> rfl

theorem unary_minus (n : Nat) : unary "-" (.int (n + 1)) = .int (.negSucc n) := by
  have hle : ¬ maxInt < -((n : Int) + 1) := by
    unfold maxInt
    omega
  have hnegate : unary "-" (.int (n + 1)) = negate (.int (n + 1)) := rfl
  rw [hnegate, negate, if_neg hle]
  rfl

/-- Every literal comes to the value that it stands for. -/
theorem HasLiteral.silent_literal (h : v.HasLiteral) (call : Value → List Value → Action Value)
    (scope : ScopeId) : (eval call v.literal scope).Silent v ∧ v.isError = false := by
  refine HasLiteral.induct (fun n _ _ => ⟨?_, rfl⟩) (fun b => ⟨?_, rfl⟩) (fun vs ih => ⟨?_, rfl⟩)
    (fun es hkeyed ih ih' => ⟨?_, rfl⟩) h
  · cases n with
    | ofNat n =>
      rw [literal, eval]
      exact (silent_pure _).observed _ scope
    | negSucc n =>
      have hnumeral : (eval call (.intLit (.numeral (n + 1)) (n + 1)) scope).Silent
          (.int (n + 1)) := by
        rw [eval]
        exact (silent_pure _).observed _ scope
      have hnegated := unary_minus n ▸ silent_pure (unary "-" (.int (n + 1)))
      rw [literal, eval_unary]
      exact (hnumeral.unlessError rfl hnegated).observed _ scope
  · rw [literal, eval]
    exact (silent_pure _).observed _ scope
  · rw [literal, eval_arrayLit, literalEach_eq_map]
    refine (silent_evalAll ?_ (silent_pure (.array vs))).observed _ scope
    rw [List.forall₂_map_left_iff]
    exact List.forall₂_same.mpr ih
  · -- The keys are distinct, so putting the entries in again makes the same list of them.
    have hentries : es.foldl (fun entries e => Ordered.put entries e.1 e.2) [] = es :=
      Ordered.foldl_put (m := []) hkeyed.distinct
    have hpairs : (evalPairs call (literalEntries es) [] scope).Silent (.hash
        (es.foldl (fun entries e => Ordered.put entries e.1 e.2) [])) := by
      refine silent_evalPairs ?_ []
      rw [literalEntries_eq_map, List.forall₂_map_left_iff]
      exact List.forall₂_same.mpr fun e he =>
        ⟨(ih e he).1, hkeyed.stored e he, (ih' e he).1, (ih' e he).2⟩
    rw [hentries] at hpairs
    rw [literal, eval]
    exact hpairs.observed _ scope

theorem HasLiteral.silent_program (h : v.HasLiteral) (t : Token)
    (call : Value → List Value → Action Value) (scope : ScopeId) :
    (eval call (.program [.exprStmt t v.literal]) scope).Silent v := by
  have hstatement : (eval call (.exprStmt t v.literal) scope).Silent v := by
    rw [eval_exprStmt]
    exact (h.silent_literal call scope).1.observed _ scope
  have hstatements : (evalStatements call [.exprStmt t v.literal] .null scope).Silent v := by
    rw [evalStatements_cons]
    refine hstatement.unlessError h.isError ?_
    cases h <;> exact silent_pure _
  have hunwrapped : (pure v.unwrapped : Action Value).Silent v := by
    rw [h.unwrapped]
    exact silent_pure v
  rw [eval_program]
  exact (hstatements.unlessError h.isError hunwrapped).observed _ scope

end Value

/-- The text of a value that has a literal is read without complaint. Running it in any scope of any
store, so also in a fresh one, comes to the very value, with the same elements and entries in the
same order; it prints nothing and leaves every binding as it is. -/
theorem runSource_inspect {v : Value} (h : v.HasLiteral) (style : Style) (limit : Nat)
    (scope : ScopeId) (store : Store) :
    (∃ program, parse v.inspect = .ok (program, [])) ∧
      (runSource style limit v.inspect scope).run store = ⟨"", store, .ok (.ok v)⟩ := by
  have hparse := h.parse_inspect
  obtain ⟨s, hrun, hstore, hlines⟩ :=
    h.silent_program (front v.tokens) (applyWithin limit) scope ⟨store, []⟩
  refine ⟨⟨_, hparse⟩, ?_⟩
  have hevaluate :
    (evaluateWithin limit (.program [.exprStmt (front v.tokens) v.literal]) scope).run
      ⟨store, []⟩ = (.ok v, s) := hrun
  have hnone : s.lines = [] := hlines
  rw [runSource_of_parse style limit hparse, hevaluate]
  simp [hnone, hstore, linesText, Except.mapError, Except.map]

/-- An array of the negative of seven and of a hash in which a key was stored twice. -/
def nestedLiteral : Value :=
  .array [.int (-7), .hash (Value.entriesOf
    [(.int (-1), .bool true), (.bool false, .array []), (.int (-1), .int maxInt)])]

theorem runSource_inspect_nested :
    nestedLiteral.HasLiteral ∧
      nestedLiteral.inspect = "[-7, \x7b-1: 9223372036854775807, false: []\x7d]" ∧
      (runSource .plain 10 nestedLiteral.inspect fresh.1).run fresh.2 =
        ⟨"", fresh.2, .ok (.ok nestedLiteral)⟩ := by
  have hint {n : Int} (h : minInt < n ∧ n ≤ maxInt) : (Value.int n).HasLiteral := .int h.1 h.2
  have hempty : (Value.array []).HasLiteral := .array nofun
  have hhash : (Value.hash (Value.entriesOf [(.int (-1), .bool true), (.bool false, .array []),
      (.int (-1), .int maxInt)])).HasLiteral := by
    refine .hash (by decide) ?_ ?_
    · simp only [List.forall_mem_cons]
      exact ⟨hint (by decide), .bool false, hint (by decide), nofun⟩
    · simp only [List.forall_mem_cons]
      exact ⟨.bool true, hempty, hint (by decide), nofun⟩
  have hliteral : nestedLiteral.HasLiteral := by
    refine .array (List.forall_mem_cons.mpr ⟨hint (by decide), ?_⟩)
    exact List.forall_mem_singleton.mpr hhash
  exact ⟨hliteral, by cbv, (runSource_inspect hliteral .plain 10 fresh.1 fresh.2).2⟩

end TreeWalk
