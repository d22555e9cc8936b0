import TreeWalk.Proofs.Eval.Journal
import TreeWalk.Proofs.Parse.Join
import TreeWalk.Proofs.Session.Sources

namespace TreeWalk

open TreeWalk.Action

theorem parseTokens_append {ss : List Node} {ts : List Token} (h : Reads (.statements ss) ts [])
    (hbalance : balance ts = 0) (hclosed : Closed ts) (us : List Token) :
    parseTokens (ts ++ us) =
      (parseTokens us).map fun r => (.program (ss ++ Session.statementsOf r.1), r.2) := by
  obtain ⟨least, hrun⟩ :=
    Parse.run_statements_of_reads (h.statements_append hbalance hclosed us) rfl
  let steps := least + Parse.allowance (ts ++ us).length + Parse.allowance us.length
  have htogether : Parse.allowance (ts ++ us).length ≤ steps + ss.length := by omega
  have halone : Parse.allowance us.length ≤ steps := by omega
  unfold parseTokens
  rw [Parse.run_statements_allowance htogether, Parse.run_statements_allowance halone,
    hrun steps (by omega)]
  cases (Parse.statements steps false).run ⟨us, []⟩ <;> rfl

theorem ofText_append {source : String}
    (hlast : ∀ t ∈ (Token.ofText source).getLast?, t.kind ≠ .string) (other : String) :
    Token.ofText (source ++ "\n" ++ other) = Token.ofText source ++ Token.ofText other := by
  unfold Token.ofText at hlast ⊢
  rw [← tokenize_append hlast (c := '\n') rfl]
  simp

theorem reads_of_parse {source : String} {ss : List Node}
    (h : parse source = .ok (.program ss, [])) :
    Reads (.statements ss) (Token.ofText source) [] := by
  have hreads : Reads (.program (.program ss)) (Token.ofText source) [] :=
    reads_of_parseTokens h (proper_tokenize _)
  cases hreads with
  | program body => exact body

/-- Reading goes on behind such a source as if nothing were before. -/
theorem parse_append {source : String} {ss : List Node}
    (hparse : parse source = .ok (.program ss, []))
    (hlast : (Token.ofText source).getLast?.map Token.kind = some .semicolon)
    (hopen : openBrackets source = 0) (other : String) :
    parse (source ++ "\n" ++ other) =
      (parse other).map fun r => (.program (ss ++ Session.statementsOf r.1), r.2) := by
  have hkind : ∀ t ∈ (Token.ofText source).getLast?, t.kind = .semicolon := by
    intro t ht
    rw [Option.mem_def.mp ht] at hlast
    exact Option.some.inj hlast
  have hstring : ∀ t ∈ (Token.ofText source).getLast?, t.kind ≠ .string := by
    intro t ht
    rw [hkind t ht]
    decide
  unfold parse
  rw [ofText_append hstring, parseTokens_append (reads_of_parse hparse)
    (openBrackets_eq_balance source ▸ hopen) (closed_of_getLast? hkind)]

theorem linesText_append (lines lines' : List String) :
    linesText (lines ++ lines') = linesText lines ++ linesText lines' := by
  simp [linesText]

/-- A program does what its statements do. -/
theorem runSource_of_statements (style : Style) (limit : Nat) {source : String} {ss : List Node}
    (h : parse source = .ok (.program ss, [])) (scope : ScopeId) (store : Store) :
    (runSource style limit source scope).run store =
      let r := (evalStatements (applyWithin limit) ss .null scope).run ⟨store, []⟩
      ⟨linesText r.2.lines, r.2.store,
        (r.1.mapError (Fault.ofHalt style)).map fun v => .ok v.unwrapped⟩ := by
  have hblind : (evalStatements (applyWithin limit) ss .null scope).Blind :=
    blind_evalStatements (fun s _ => blind_eval (blind_applyWithin limit) s) .null
  rw [runSource_of_parse style limit h, evaluateWithin, eval_program, unlessError_unwrapped,
    Action.observed]
  simp only [run_bind, run_record]
  rw [hblind.run_eq ⟨store, _⟩]
  rcases (evalStatements (applyWithin limit) ss .null scope).run ⟨store, []⟩ with ⟨_ | v, s⟩
  · simp [State.lines, State.after, Except.mapError, Except.map]
  · simp [State.lines, State.after, Except.mapError, Except.map, run_pure]

/-- Statements in one go print, bind and come to what they do in two, where no statement of the
first part ends them all. -/
theorem runSource_append (style : Style) (limit : Nat) {source other joined : String}
    {ss ss' : List Node} (hparse : parse source = .ok (.program ss, []))
    (hother : parse other = .ok (.program ss', []))
    (hjoined : parse joined = .ok (.program (ss ++ ss'), [])) (scope : ScopeId) {store : Store}
    (h : RunsThrough limit scope ss store) :
    let together := (runSource style limit joined scope).run store
    let apart := (do
      let _ ← runSource style limit source scope
      runSource style limit other scope).run store
    together.printed = apart.printed ∧ together.state = apart.state ∧
      (ss' ≠ [] → together.outcome = apart.outcome) := by
  have hblind (v : Value) : (evalStatements (applyWithin limit) ss' v scope).Blind :=
    blind_evalStatements (fun s _ => blind_eval (blind_applyWithin limit) s) v
  have hrun := evalStatements_append (s := ⟨store, []⟩) h ss' .null
  have hapart : (do
      let _ ← runSource style limit source scope
      runSource style limit other scope).run store =
        Effect.andThen (runSource style limit source scope)
          (fun _ => runSource style limit other scope) store :=
    rfl
  have hfirst := runSource_of_statements style limit hparse scope store
  rw [Effect.run] at hfirst
  rw [runSource_of_statements style limit hjoined, hrun, hapart, Effect.andThen, hfirst, run_bind]
  rcases (evalStatements (applyWithin limit) ss .null scope).run ⟨store, []⟩ with ⟨_ | v, s⟩
  · exact ⟨rfl, rfl, fun _ => rfl⟩
  · have hsecond := runSource_of_statements style limit hother scope s.store
    rw [Effect.run] at hsecond
    have hstate := state_evalStatements (applyWithin limit) ss' scope v .null ⟨s.store, []⟩
    simp only [Except.mapError, Except.map, hsecond]
    rw [(hblind v).run_eq s]
    refine ⟨?_, ?_, fun hne => ?_⟩
    · rw [State.lines_after, linesText_append, hstate]
      rfl
    · rw [State.store_after, hstate]
    · rw [evalStatements_last _ hne scope v .null]

/-- Line by line comes to the same as all at once. -/
theorem join_lines {source : String} {ss : List Node}
    (hparse : parse source = .ok (.program ss, []))
    (hlast : (Token.ofText source).getLast?.map Token.kind = some .semicolon)
    (hopen : openBrackets source = 0) (other : String) :
    parse (source ++ "\n" ++ other) =
      (parse other).map (fun r => (.program (ss ++ Session.statementsOf r.1), r.2)) ∧
    ∀ ss', parse other = .ok (.program ss', []) → ∀ style limit scope store,
      RunsThrough limit scope ss store →
      let together := (runSource style limit (source ++ "\n" ++ other) scope).run store
      let apart := (do
        let _ ← runSource style limit source scope
        runSource style limit other scope).run store
      together.printed = apart.printed ∧ together.state = apart.state ∧
        (ss' ≠ [] → together.outcome = apart.outcome) := by
  have hreads := parse_append hparse hlast hopen other
  refine ⟨hreads, fun ss' hother style limit scope store h => ?_⟩
  rw [hother] at hreads
  exact runSource_append style limit hparse hother hreads scope h

def printer : Node :=
  .letStmt ⟨.letWord, "let"⟩ (.ident ⟨.ident, "f"⟩ "f")
    (.fnLit ⟨.fnWord, "fn"⟩ [.ident ⟨.ident, "x"⟩ "x"]
      (.block ⟨.lbrace, "\x7b"⟩ [.exprStmt ⟨.ident, "puts"⟩
        (.call ⟨.lparen, "("⟩ (.ident ⟨.ident, "puts"⟩ "puts") [.ident ⟨.ident, "x"⟩ "x"])]))

/-- A function is bound on one line and called on the next. -/
theorem join_lines_printer :
    let source := "let f = fn(x) \x7b puts(x); \x7d;"
    let other := "f(1)"
    let together := (runSource .plain 10 (source ++ "\n" ++ other) fresh.1).run fresh.2
    let apart := (do
      let _ ← runSource .plain 10 source fresh.1
      runSource .plain 10 other fresh.1).run fresh.2
    parse (source ++ "\n" ++ other) =
      (parse other).map (fun r => (.program (printer :: Session.statementsOf r.1), r.2)) ∧
    together.printed = apart.printed ∧ together.state = apart.state ∧
      together.outcome = apart.outcome := by
  have hparse : parse "let f = fn(x) \x7b puts(x); \x7d;" = .ok (.program [printer], []) := by
    cbv
  have hother : parse "f(1)" = .ok (.program [.exprStmt ⟨.ident, "f"⟩
      (.call ⟨.lparen, "("⟩ (.ident ⟨.ident, "f"⟩ "f") [.intLit ⟨.int, "1"⟩ 1])], []) := by
    cbv
  have hlast : (Token.ofText "let f = fn(x) \x7b puts(x); \x7d;").getLast?.map Token.kind =
      some .semicolon := by
    cbv
  have hopen : openBrackets "let f = fn(x) \x7b puts(x); \x7d;" = 0 := by cbv
  have hvalue : ((evaluateWithin 10 printer fresh.1).run ⟨fresh.2, []⟩).1 =
      .ok (.function [.ident ⟨.ident, "x"⟩ "x"]
        (.block ⟨.lbrace, "\x7b"⟩ [.exprStmt ⟨.ident, "puts"⟩
          (.call ⟨.lparen, "("⟩ (.ident ⟨.ident, "puts"⟩ "puts") [.ident ⟨.ident, "x"⟩ "x"])])
        fresh.1) := by
    rfl
  have hruns : RunsThrough 10 fresh.1 [printer] fresh.2 := by
    intro v hv
    rw [hvalue] at hv
    cases hv
    exact ⟨rfl, fun _ h => Value.noConfusion h, trivial⟩
  obtain ⟨hreads, hjoin⟩ := join_lines hparse hlast hopen "f(1)"
  obtain ⟨hprinted, hstate, houtcome⟩ := hjoin _ hother .plain 10 fresh.1 fresh.2 hruns
  exact ⟨hreads, hprinted, hstate, houtcome (List.cons_ne_nil _ _)⟩

end TreeWalk
