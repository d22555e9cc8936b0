import TreeWalk.Proofs.Eval.Rules

namespace TreeWalk

/-- The nodes entered and not completed, the innermost first, `stack` being so before the events. -/
def pendingFrom : List Node → List Event → List Node
  | stack, [] => stack
  | stack, .entered n _ :: es => pendingFrom (n :: stack) es
  | stack, .completed .. :: es => pendingFrom stack.tail es
  | stack, .bound .. :: es => pendingFrom stack es
  | stack, .printed _ :: es => pendingFrom stack es

def pending (es : List Event) : List Node := pendingFrom [] es

theorem pendingFrom_append (stack : List Node) (es fs : List Event) :
    pendingFrom stack (es ++ fs) = pendingFrom (pendingFrom stack es) fs := by
  induction es generalizing stack with
  | nil => rfl
  | cons e es ih => cases e <;> exact ih _

/-- Completing the innermost nodes in turn leaves the others. -/
theorem pendingFrom_completed (first stack : List Node) (v : Value) :
    pendingFrom (first ++ stack) (first.map (.completed · v)) = stack := by
  induction first with
  | nil => rfl
  | cons n first ih => exact ih

def Event.isFailure : Event → Bool
  | .completed _ v => v.isError
  | _ => false

/-- Events without a failure that leave the nodes `opened` to be completed. -/
structure Clean (es : List Event) (opened : List Node) : Prop where
  noFailure : ∀ e ∈ es, e.isFailure = false
  opens : ∀ stack, pendingFrom stack es = opened ++ stack

namespace Clean

theorem nil : Clean [] [] := ⟨List.forall_mem_nil _, fun _ => rfl⟩

theorem append {es fs : List Event} {opened opened' : List Node} (h : Clean es opened)
    (h' : Clean fs opened') : Clean (es ++ fs) (opened' ++ opened) := by
  refine ⟨List.forall_mem_append.mpr ⟨h.noFailure, h'.noFailure⟩, fun stack => ?_⟩
  rw [pendingFrom_append, h.opens, h'.opens, List.append_assoc]

theorem entered (n : Node) (scope : ScopeId) : Clean [.entered n scope] [n] :=
  ⟨List.forall_mem_singleton.mpr rfl, fun _ => rfl⟩

theorem bound (scope : ScopeId) (name : String) (v : Value) : Clean [.bound scope name v] [] :=
  ⟨List.forall_mem_singleton.mpr rfl, fun _ => rfl⟩

theorem printed (line : String) : Clean [.printed line] [] :=
  ⟨List.forall_mem_singleton.mpr rfl, fun _ => rfl⟩

theorem completed {es : List Event} {n : Node} (h : Clean es [n]) {v : Value}
    (hv : v.isError = false) : Clean (es ++ [.completed n v]) [] := by
  refine ⟨List.forall_mem_append.mpr ⟨h.noFailure, ?_⟩, fun stack => ?_⟩
  · exact List.forall_mem_singleton.mpr hv
  · rw [pendingFrom_append, h.opens]
    rfl

end Clean

/-- How the events of a run go with what it comes to. An error is followed by the completions of
all that was under way, and by nothing else. -/
inductive FailStop : Except Halt Value → List Event → Prop
  | value {v : Value} {es : List Event} (hv : v.isError = false) (h : Clean es []) :
      FailStop (.ok v) es
  | failure {v : Value} {es : List Event} {opened : List Node} (hv : v.isError)
      (h : Clean es opened) : FailStop (.ok v) (es ++ opened.map (.completed · v))
  | halt {why : Halt} {es : List Event} {opened : List Node} (h : Clean es opened) :
      FailStop (.error why) es

theorem FailStop.pure (v : Value) : FailStop (.ok v) [] := by
  cases hv : v.isError with
  | true => exact .failure hv .nil
  | false => exact .value hv .nil

theorem FailStop.append {r : Except Halt Value} {es fs : List Event} (h : Clean es [])
    (h' : FailStop r fs) : FailStop r (es ++ fs) := by
  cases h' with
  | value hv hclean => exact .value hv (h.append hclean)
  | @failure v fs opened hv hclean =>
    have happend := h.append hclean
    rw [List.append_nil] at happend
    rw [← List.append_assoc]
    exact .failure hv happend
  | halt hclean => exact .halt (h.append hclean)

def Adds (s : State) (es : List Event) (s' : State) : Prop :=
  s'.journal = es.reverse ++ s.journal

theorem Adds.trans {s s' s'' : State} {es fs : List Event} (h : Adds s es s')
    (h' : Adds s' fs s'') : Adds s (es ++ fs) s'' := by
  unfold Adds at h h' ⊢
  rw [h', h, List.reverse_append, List.append_assoc]

namespace Action

variable {α β : Type}

def Quiet (act : Action α) : Prop := ∀ s : State, ∃ es, Adds s es (act.run s).2 ∧ Clean es []

/-- An error that arises in the action is the last thing in it. -/
def FailStops (act : Action Value) : Prop :=
  ∀ s : State, ∃ es, Adds s es (act.run s).2 ∧ FailStop (act.run s).1 es

theorem quiet_pure (a : α) : (pure a : Action α).Quiet := fun _ => ⟨[], rfl, .nil⟩

theorem quiet_throw (h : Halt) : (throw h : Action α).Quiet := fun _ => ⟨[], rfl, .nil⟩

theorem Quiet.bind {act : Action α} {k : α → Action β} (h : act.Quiet) (hk : ∀ a, (k a).Quiet) :
    (act >>= k).Quiet := by
  intro s
  obtain ⟨es, hes, hclean⟩ := h s
  rw [run_bind]
  rcases hrun : act.run s with ⟨_ | a, s'⟩
  · rw [hrun] at hes
    exact ⟨es, hes, hclean⟩
  · rw [hrun] at hes
    obtain ⟨fs, hfs, hclean'⟩ := hk a s'
    exact ⟨es ++ fs, hes.trans hfs, hclean.append hclean'⟩

theorem quiet_bindName (scope : ScopeId) (name : String) (v : Value) :
    (Action.bind scope name v).Quiet := fun _ => ⟨[.bound scope name v], rfl, .bound scope name v⟩

theorem quiet_printed (line : String) : (record (.printed line)).Quiet :=
  fun _ => ⟨[.printed line], rfl, .printed line⟩

theorem quiet_enclose (scope : ScopeId) : (enclose scope).Quiet := fun _ => ⟨[], rfl, .nil⟩

theorem failStops_pure (v : Value) : (pure v : Action Value).FailStops :=
  fun _ => ⟨[], rfl, .pure v⟩

theorem failStops_throw (h : Halt) : (throw h : Action Value).FailStops :=
  fun _ => ⟨[], rfl, .halt .nil⟩

theorem FailStops.of_quiet {act : Action α} {k : α → Action Value} (h : act.Quiet)
    (hk : ∀ a, (k a).FailStops) : (act >>= k).FailStops := by
  intro s
  obtain ⟨es, hes, hclean⟩ := h s
  rw [run_bind]
  rcases hrun : act.run s with ⟨_ | a, s'⟩
  · rw [hrun] at hes
    exact ⟨es, hes, .halt hclean⟩
  · rw [hrun] at hes
    obtain ⟨fs, hfs, hstop⟩ := hk a s'
    exact ⟨es ++ fs, hes.trans hfs, hstop.append hclean⟩

theorem FailStops.unlessError {act : Action Value} {k : Value → Action Value} (h : act.FailStops)
    (hk : ∀ v, (k v).FailStops) : (act.unlessError k).FailStops := by
  intro s
  obtain ⟨es, hes, hstop⟩ := h s
  rw [Action.unlessError, run_bind]
  generalize act.run s = r at hes hstop
  rcases r with ⟨r, s'⟩
  cases hstop with
  | halt hclean => exact ⟨es, hes, .halt hclean⟩
  | failure hv hclean =>
    simp only [hv, if_true, run_pure]
    exact ⟨_, hes, .failure hv hclean⟩
  | @value v _ hv hclean =>
    simp only [hv, Bool.false_eq_true, if_false]
    obtain ⟨fs, hfs, hstop'⟩ := hk v s'
    exact ⟨es ++ fs, hes.trans hfs, hstop'.append hclean⟩

/-- An evaluation under way is itself completed with the error that arises in it. -/
theorem FailStops.observed {act : Action Value} (h : act.FailStops) (n : Node) (scope : ScopeId) :
    (act.observed n scope).FailStops := by
  intro s
  obtain ⟨es, hes, hstop⟩ := h { s with journal := .entered n scope :: s.journal }
  rw [Action.observed, run_bind, run_record]
  simp only [run_bind, run_record, run_pure]
  generalize act.run _ = r at hes hstop
  rcases r with ⟨r, s'⟩
  have hentered : Adds s [.entered n scope] ⟨s.store, .entered n scope :: s.journal⟩ := rfl
  have hopened := hentered.trans hes
  have hcompleted (v : Value) : Adds s' [.completed n v] ⟨s'.store, .completed n v :: s'.journal⟩ :=
    rfl
  cases hstop with
  | halt hclean => exact ⟨_, hopened, .halt ((Clean.entered n scope).append hclean)⟩
  | @failure v es' opened hv hclean =>
    -- The node is the outermost of those left open, so its completion comes last.
    have hstop := FailStop.failure hv ((Clean.entered n scope).append hclean)
    refine ⟨_, ?_, hstop⟩
    have hall := hopened.trans (hcompleted v)
    simpa using hall
  | @value v _ hv hclean =>
    have hopen : Clean (.entered n scope :: es) [n] := (Clean.entered n scope).append hclean
    exact ⟨_, hopened.trans (hcompleted v), .value hv (hopen.completed hv)⟩

end Action

open TreeWalk.Action

theorem failStops_lookup (scope : ScopeId) (name : String) : (lookup scope name).FailStops := by
  intro s
  rw [run_lookup]
  exact ⟨[], rfl, .pure _⟩

theorem quiet_bindTo (scope : ScopeId) (target : Node) (v : Value) :
    (bindTo scope target v).Quiet := by
  unfold bindTo
  split
  · exact quiet_bindName scope _ v
  · split
    · exact quiet_pure ()
    · exact quiet_throw _

theorem quiet_bindAll (scope : ScopeId) (ps : List (Node × Value)) : (bindAll scope ps).Quiet := by
  induction ps with
  | nil => exact quiet_pure ()
  | cons p ps ih => exact (quiet_bindTo scope p.1 p.2).bind fun _ => ih

theorem failStops_runBuiltin (b : Builtin) (args : List Value) : (runBuiltin b args).FailStops := by
  have hlines (lines : List String) :
      (lines.forM fun line => Action.record (.printed line)).Quiet := by
    induction lines with
    | nil => exact quiet_pure ()
    | cons line lines ih => exact (quiet_printed line).bind fun _ => ih
  exact .of_quiet (hlines _) fun _ => failStops_pure _

section

variable {call : Value → List Value → Action Value} {scope : ScopeId}

theorem failStops_evalStatements {ss : List Node} (h : ∀ s ∈ ss, (eval call s scope).FailStops)
    (last : Value) : (evalStatements call ss last scope).FailStops := by
  induction ss generalizing last with
  | nil =>
    rw [evalStatements]
    exact failStops_pure last
  | cons s ss ih =>
    obtain ⟨hs, hss⟩ := List.forall_mem_cons.mp h
    rw [evalStatements_cons]
    refine hs.unlessError fun v => ?_
    split
    · exact failStops_pure _
    · exact ih hss v

theorem failStops_evalAll {es : List Node} (h : ∀ e ∈ es, (eval call e scope).FailStops)
    {k : List Value → Action Value} (hk : ∀ vs, (k vs).FailStops) :
    (evalAll call scope es k).FailStops := by
  induction es generalizing k with
  | nil =>
    rw [evalAll_nil]
    exact hk []
  | cons e es ih =>
    obtain ⟨he, hes⟩ := List.forall_mem_cons.mp h
    rw [evalAll_cons]
    exact he.unlessError fun v => ih hes fun vs => hk (v :: vs)

theorem failStops_evalPairs {ps : List (Node × Node)}
    (hkeys : ∀ p ∈ ps, (eval call p.1 scope).FailStops)
    (hvalues : ∀ p ∈ ps, (eval call p.2 scope).FailStops)
    (entries : Ordered HashKey (Value × Value)) :
    (evalPairs call ps entries scope).FailStops := by
  induction ps generalizing entries with
  | nil =>
    rw [evalPairs]
    exact failStops_pure _
  | cons p ps ih =>
    obtain ⟨hkey, hkeys⟩ := List.forall_mem_cons.mp hkeys
    obtain ⟨hvalue, hvalues⟩ := List.forall_mem_cons.mp hvalues
    rw [evalPairs_cons]
    refine hkey.unlessError fun key => ?_
    split
    · exact failStops_pure _
    · exact hvalue.unlessError fun v => ih hkeys hvalues _

theorem failStops_eval (hcall : ∀ f args, (call f args).FailStops) (n : Node) :
    (eval call n scope).FailStops := by
  induction n with
  | missing | bare =>
    rw [eval]
    exact (failStops_throw _).observed _ _
  | program ss ih =>
    rw [eval_program]
    exact ((failStops_evalStatements ih _).unlessError fun v => failStops_pure _).observed _ _
  | letStmt t name value _ ih =>
    rw [eval_letStmt]
    refine (ih.unlessError fun v => ?_).observed _ _
    exact .of_quiet (quiet_bindTo scope name v) fun _ => failStops_pure v
  | returnStmt t value ih =>
    rw [eval_returnStmt]
    exact (ih.unlessError fun v => failStops_pure _).observed _ _
  | exprStmt t e ih =>
    rw [eval]
    exact ih.observed _ _
  | block t ss ih =>
    rw [eval]
    exact (failStops_evalStatements ih _).observed _ _
  | ident t name =>
    rw [eval]
    exact (failStops_lookup scope name).observed _ _
  | intLit | boolLit | strLit | fnLit =>
    rw [eval]
    exact (failStops_pure _).observed _ _
  | unary t op right ih =>
    rw [eval_unary]
    exact (ih.unlessError fun v => failStops_pure _).observed _ _
  | binary t op left right ih ih' =>
    rw [eval_binary]
    exact (ih.unlessError fun l => ih'.unlessError fun r => failStops_pure _).observed _ _
  | ifExpr t c a b ih ih' ih'' =>
    rw [eval_ifExpr]
    refine (ih.unlessError fun v => ?_).observed _ _
    split
    · exact ih'
    · split
      · exact failStops_pure _
      · exact ih''
  | call t f args ih ih' =>
    rw [eval_call]
    exact (ih.unlessError fun v => failStops_evalAll ih' (hcall v)).observed _ _
  | arrayLit t es ih =>
    rw [eval_arrayLit]
    exact (failStops_evalAll ih fun vs => failStops_pure _).observed _ _
  | index t left position ih ih' =>
    rw [eval_index]
    exact (ih.unlessError fun l => ih'.unlessError fun p => failStops_pure _).observed _ _
  | hashLit t ps ih ih' =>
    rw [eval]
    exact (failStops_evalPairs ih ih' []).observed _ _

end

theorem failStops_applyWithin (limit : Nat) (f : Value) (args : List Value) :
    (applyWithin limit f args).FailStops := by
  induction limit generalizing f args with
  | zero =>
    cases f with
    | function ps body scope =>
      rw [applyWithin]
      split
      · exact failStops_pure _
      · exact failStops_throw _
    | builtin b => exact failStops_runBuiltin b args
    | _ => exact failStops_pure _
  | succ limit ih =>
    cases f with
    | function ps body scope =>
      by_cases hlength : args.length = ps.length
      · rw [applyWithin_function limit hlength]
        refine .of_quiet (quiet_enclose scope) fun inner => ?_
        refine .of_quiet (quiet_bindAll inner _) fun _ => ?_
        exact (failStops_eval ih body).unlessError fun v => failStops_pure _
      · rw [applyWithin, if_pos hlength]
        exact failStops_pure _
    | builtin b => exact failStops_runBuiltin b args
    | _ => exact failStops_pure _

theorem failStops_evaluateWithin (limit : Nat) (node : Node) (scope : ScopeId) :
    (evaluateWithin limit node scope).FailStops :=
  failStops_eval (failStops_applyWithin limit) node

theorem Clean.not_mem_failure {es : List Event} {opened : List Node} (h : Clean es opened)
    {v : Value} (hv : v.isError) (n : Node) : Event.completed n v ∉ es := by
  intro hmem
  have hfalse : v.isError = false := h.noFailure _ hmem
  rw [hv] at hfalse
  cases hfalse

/-- A failure behind clean events is one of the completions that follow them. -/
theorem Clean.exists_of_failure {es before after : List Event} {opened : List Node} {n : Node}
    {v w : Value} (hclean : Clean es opened) (hv : v.isError)
    (h : es ++ opened.map (.completed · w) = before ++ .completed n v :: after) :
    ∃ inner outer, opened = inner ++ n :: outer ∧ before = es ++ inner.map (.completed · w) ∧
      after = outer.map (.completed · w) ∧ v = w := by
  rcases List.append_eq_append_iff.mp h with ⟨fs, hbefore, hopened⟩ | ⟨fs, hsplit, hafter⟩
  · obtain ⟨inner, rest, hinner, hfs, hrest⟩ := List.map_eq_append_iff.mp hopened
    obtain ⟨m, outer, rfl, hm, houter⟩ := List.map_eq_cons_iff.mp hrest
    cases hm
    exact ⟨inner, outer, hinner, hbefore.trans (by rw [hfs]), houter.symm, rfl⟩
  · cases fs with
    | nil =>
      obtain ⟨m, outer, rfl, hm, houter⟩ := List.map_eq_cons_iff.mp hafter.symm
      cases hm
      refine ⟨[], outer, rfl, ?_, houter.symm, rfl⟩
      simpa using hsplit.symm
    | cons e fs =>
      cases hafter
      refine absurd ?_ (hclean.not_mem_failure hv n)
      rw [hsplit]
      exact List.mem_append_right _ List.mem_cons_self

theorem FailStop.after_failure {r : Except Halt Value} {es before after : List Event} {n : Node}
    {v : Value} (h : FailStop r es) (hes : es = before ++ .completed n v :: after)
    (hv : v.isError) :
    r = .ok v ∧ ∃ outer, pending before = n :: outer ∧ after = outer.map (.completed · v) := by
  have hmem : Event.completed n v ∈ es := by
    rw [hes]
    exact List.mem_append_right _ List.mem_cons_self
  cases h with
  | value _ hclean => exact absurd hmem (hclean.not_mem_failure hv n)
  | halt hclean => exact absurd hmem (hclean.not_mem_failure hv n)
  | failure _ hclean =>
    obtain ⟨inner, outer, rfl, rfl, rfl, rfl⟩ := hclean.exists_of_failure hv hes
    refine ⟨rfl, outer, ?_, rfl⟩
    rw [pending, pendingFrom_append, hclean.opens, List.append_nil, pendingFrom_completed]

/-- Where some part of a run comes to an error, that is what the run comes to, and nothing follows
but the completion with it of each evaluation that was under way, from the inside out. -/
theorem events_after_failure {limit : Nat} {node : Node} {scope : ScopeId} {store : Store}
    {before after : List Event} {n : Node} {v : Value}
    (h : ((evaluateWithin limit node scope).run ⟨store, []⟩).2.journal.reverse =
      before ++ .completed n v :: after) (hv : v.isError) :
    ((evaluateWithin limit node scope).run ⟨store, []⟩).1 = .ok v ∧
      ∃ outer, pending before = n :: outer ∧ after = outer.map (.completed · v) := by
  obtain ⟨es, hes, hstop⟩ := failStops_evaluateWithin limit node scope ⟨store, []⟩
  unfold Adds at hes
  rw [hes, List.append_nil, List.reverse_reverse] at h
  exact hstop.after_failure h hv

def negatedTruth : Node := .unary ⟨.minus, "-"⟩ "-" (.boolLit ⟨.trueWord, "true"⟩ true)

/-- The expression `fn() { -true }() + puts(1)`. -/
def failingSum : Node :=
  .binary ⟨.plus, "+"⟩ "+"
    (.call ⟨.lparen, "("⟩
      (.fnLit ⟨.fnWord, "fn"⟩ []
        (.block ⟨.lbrace, "\x7b"⟩ [.exprStmt ⟨.minus, "-"⟩ negatedTruth])) [])
    (.call ⟨.lparen, "("⟩ (.ident ⟨.ident, "puts"⟩ "puts") [.intLit ⟨.int, "1"⟩ 1])

/-- The error in the body ends the call and the sum, and nothing is printed. -/
theorem events_after_failure_failingSum :
    ∃ before after, ∃ v : Value, v.isError ∧
      ((evaluateWithin 1 failingSum 0).run ⟨Store.empty, []⟩).2.journal.reverse =
        before ++ .completed negatedTruth v :: after ∧
      ((evaluateWithin 1 failingSum 0).run ⟨Store.empty, []⟩).1 = .ok v ∧
      ∃ outer, pending before = negatedTruth :: outer ∧ after = outer.map (.completed · v) := by
  have hrun : ((evaluateWithin 1 failingSum 0).run ⟨Store.empty, []⟩).2.journal.reverse =
      (((evaluateWithin 1 failingSum 0).run ⟨Store.empty, []⟩).2.journal.reverse.take 9) ++
        .completed negatedTruth (Failure.unknownUnary "-" .boolean).value ::
          (((evaluateWithin 1 failingSum 0).run ⟨Store.empty, []⟩).2.journal.reverse.drop 10) := by
    rfl
  exact ⟨_, _, _, rfl, hrun, events_after_failure hrun rfl⟩

end TreeWalk
