import TreeWalk.Proofs.Eval.Rules

/-! Evaluation never looks at its journal, so statements can be evaluated one by one, each with a
journal of its own. -/
namespace TreeWalk

def State.after (s : State) (earlier : List Event) : State := ⟨s.store, s.journal ++ earlier⟩

@[simp] theorem State.store_after (s : State) (earlier : List Event) :
    (s.after earlier).store = s.store := rfl

theorem State.lines_after (s : State) (earlier : List Event) :
    (s.after earlier).lines = (⟨s.store, earlier⟩ : State).lines ++ s.lines := by
  simp [State.lines, State.after]

namespace Action

variable {α β : Type}

/-- The action does the same whatever was in the journal before. -/
def Blind (act : Action α) : Prop :=
  ∀ (s : State) (earlier : List Event),
    act.run (s.after earlier) = ((act.run s).1, (act.run s).2.after earlier)

theorem Blind.run_eq {act : Action α} (h : act.Blind) (s : State) :
    act.run s =
      ((act.run ⟨s.store, []⟩).1, (act.run ⟨s.store, []⟩).2.after s.journal) :=
  h ⟨s.store, []⟩ s.journal

theorem blind_pure (a : α) : (pure a : Action α).Blind := fun _ _ => rfl

theorem blind_throw (h : Halt) : (throw h : Action α).Blind := fun _ _ => rfl

theorem blind_record (e : Event) : (record e).Blind := fun _ _ => rfl

theorem blind_bindName (scope : ScopeId) (name : String) (v : Value) :
    (Action.bind scope name v).Blind := fun _ _ => rfl

theorem blind_enclose (scope : ScopeId) : (enclose scope).Blind := fun _ _ => rfl

theorem Blind.bind {act : Action α} {k : α → Action β} (h : act.Blind) (hk : ∀ a, (k a).Blind) :
    (act >>= k).Blind := by
  intro s earlier
  rw [run_bind, run_bind, h s earlier]
  rcases act.run s with ⟨_ | a, s'⟩
  · rfl
  · exact hk a s' earlier

theorem Blind.unlessError {act : Action Value} {k : Value → Action Value} (h : act.Blind)
    (hk : ∀ v, (k v).Blind) : (act.unlessError k).Blind := by
  refine h.bind fun v => ?_
  split
  · exact blind_pure v
  · exact hk v

theorem Blind.observed {act : Action Value} (h : act.Blind) (n : Node) (scope : ScopeId) :
    (act.observed n scope).Blind :=
  (blind_record _).bind fun _ => h.bind fun _ => (blind_record _).bind fun _ => blind_pure _

end Action

open TreeWalk.Action

theorem blind_lookup (scope : ScopeId) (name : String) : (lookup scope name).Blind := by
  intro s earlier
  rw [run_lookup, run_lookup]
  rfl

theorem blind_bindTo (scope : ScopeId) (target : Node) (v : Value) :
    (bindTo scope target v).Blind := by
  unfold bindTo
  split
  · exact blind_bindName scope _ v
  · split
    · exact blind_pure ()
    · exact blind_throw _

theorem blind_bindAll (scope : ScopeId) (ps : List (Node × Value)) : (bindAll scope ps).Blind := by
  induction ps with
  | nil => exact blind_pure ()
  | cons p ps ih => exact (blind_bindTo scope p.1 p.2).bind fun _ => ih

theorem blind_runBuiltin (b : Builtin) (args : List Value) : (runBuiltin b args).Blind := by
  have hlines (lines : List String) :
      (lines.forM fun line => Action.record (.printed line)).Blind := by
    induction lines with
    | nil => exact blind_pure ()
    | cons line lines ih => exact (blind_record _).bind fun _ => ih
  exact (hlines _).bind fun _ => blind_pure _

section

variable {call : Value → List Value → Action Value} {scope : ScopeId}

theorem blind_evalStatements {ss : List Node} (h : ∀ s ∈ ss, (eval call s scope).Blind)
    (last : Value) : (evalStatements call ss last scope).Blind := by
  induction ss generalizing last with
  | nil =>
    rw [evalStatements]
    exact blind_pure last
  | cons s ss ih =>
    obtain ⟨hs, hss⟩ := List.forall_mem_cons.mp h
    rw [evalStatements_cons]
    refine hs.unlessError fun v => ?_
    split
    · exact blind_pure _
    · exact ih hss v

theorem blind_evalAll {es : List Node} (h : ∀ e ∈ es, (eval call e scope).Blind)
    {k : List Value → Action Value} (hk : ∀ vs, (k vs).Blind) :
    (evalAll call scope es k).Blind := by
  induction es generalizing k with
  | nil =>
    rw [evalAll_nil]
    exact hk []
  | cons e es ih =>
    obtain ⟨he, hes⟩ := List.forall_mem_cons.mp h
    rw [evalAll_cons]
    exact he.unlessError fun v => ih hes fun vs => hk (v :: vs)

theorem blind_evalPairs {ps : List (Node × Node)} (hkeys : ∀ p ∈ ps, (eval call p.1 scope).Blind)
    (hvalues : ∀ p ∈ ps, (eval call p.2 scope).Blind)
    (entries : Ordered HashKey (Value × Value)) : (evalPairs call ps entries scope).Blind := by
  induction ps generalizing entries with
  | nil =>
    rw [evalPairs]
    exact blind_pure _
  | cons p ps ih =>
    obtain ⟨hkey, hkeys⟩ := List.forall_mem_cons.mp hkeys
    obtain ⟨hvalue, hvalues⟩ := List.forall_mem_cons.mp hvalues
    rw [evalPairs_cons]
    refine hkey.unlessError fun key => ?_
    split
    · exact blind_pure _
    · exact hvalue.unlessError fun v => ih hkeys hvalues _

theorem blind_eval (hcall : ∀ f args, (call f args).Blind) (n : Node) :
    (eval call n scope).Blind := by
  induction n with
  | missing | bare =>
    rw [eval]
    exact (blind_throw _).observed _ _
  | program ss ih =>
    rw [eval_program]
    exact ((blind_evalStatements ih _).unlessError fun v => blind_pure _).observed _ _
  | letStmt t name value _ ih =>
    rw [eval_letStmt]
    refine (ih.unlessError fun v => ?_).observed _ _
    exact (blind_bindTo scope name v).bind fun _ => blind_pure v
  | returnStmt t value ih =>
    rw [eval_returnStmt]
    exact (ih.unlessError fun v => blind_pure _).observed _ _
  | exprStmt t e ih =>
    rw [eval]
    exact ih.observed _ _
  | block t ss ih =>
    rw [eval]
    exact (blind_evalStatements ih _).observed _ _
  | ident t name =>
    rw [eval]
    exact (blind_lookup scope name).observed _ _
  | intLit | boolLit | strLit | fnLit =>
    rw [eval]
    exact (blind_pure _).observed _ _
  | unary t op right ih =>
    rw [eval_unary]
    exact (ih.unlessError fun v => blind_pure _).observed _ _
  | binary t op left right ih ih' =>
    rw [eval_binary]
    exact (ih.unlessError fun l => ih'.unlessError fun r => blind_pure _).observed _ _
  | ifExpr t c a b ih ih' ih'' =>
    rw [eval_ifExpr]
    refine (ih.unlessError fun v => ?_).observed _ _
    split
    · exact ih'
    · split
      · exact blind_pure _
      · exact ih''
  | call t f args ih ih' =>
    rw [eval_call]
    exact (ih.unlessError fun v => blind_evalAll ih' (hcall v)).observed _ _
  | arrayLit t es ih =>
    rw [eval_arrayLit]
    exact (blind_evalAll ih fun vs => blind_pure _).observed _ _
  | index t left position ih ih' =>
    rw [eval_index]
    exact (ih.unlessError fun l => ih'.unlessError fun p => blind_pure _).observed _ _
  | hashLit t ps ih ih' =>
    rw [eval]
    exact (blind_evalPairs ih ih' []).observed _ _

end

theorem blind_applyWithin (limit : Nat) (f : Value) (args : List Value) :
    (applyWithin limit f args).Blind := by
  induction limit generalizing f args with
  | zero =>
    cases f with
    | function ps body scope =>
      rw [applyWithin]
      split
      · exact blind_pure _
      · exact blind_throw _
    | builtin b => exact blind_runBuiltin b args
    | _ => exact blind_pure _
  | succ limit ih =>
    cases f with
    | function ps body scope =>
      by_cases hlength : args.length = ps.length
      · rw [applyWithin_function limit hlength]
        refine (blind_enclose scope).bind fun inner => ?_
        refine (blind_bindAll inner _).bind fun _ => ?_
        exact (blind_eval ih body).unlessError fun v => blind_pure _
      · rw [applyWithin, if_pos hlength]
        exact blind_pure _
    | builtin b => exact blind_runBuiltin b args
    | _ => exact blind_pure _

theorem blind_evaluateWithin (limit : Nat) (n : Node) (scope : ScopeId) :
    (evaluateWithin limit n scope).Blind :=
  blind_eval (blind_applyWithin limit) n

/-- None of the statements, evaluated one after the other, comes to an error or to a returned value;
where one of them is refused, those behind it are not evaluated. -/
def RunsThrough (limit : Nat) (scope : ScopeId) : List Node → Store → Prop
  | [], _ => True
  | n :: ns, store => ∀ v, ((evaluateWithin limit n scope).run ⟨store, []⟩).1 = .ok v →
    v.isError = false ∧ (∀ w, v ≠ .returned w) ∧
      RunsThrough limit scope ns ((evaluateWithin limit n scope).run ⟨store, []⟩).2.store

theorem evalStatements_append {limit : Nat} {scope : ScopeId} {ns : List Node} {s : State}
    (h : RunsThrough limit scope ns s.store) (ns' : List Node) (last : Value) :
    (evalStatements (applyWithin limit) (ns ++ ns') last scope).run s =
      (evalStatements (applyWithin limit) ns last scope >>= fun v =>
        evalStatements (applyWithin limit) ns' v scope).run s := by
  induction ns generalizing last s with
  | nil =>
    rw [evalStatements, pure_bind]
    rfl
  | cons n ns ih =>
    have hrun := (blind_evaluateWithin limit n scope).run_eq s
    rw [evaluateWithin] at hrun
    rw [List.cons_append, evalStatements_cons, evalStatements_cons, unlessError, unlessError,
      bind_assoc, run_bind, run_bind, hrun]
    rcases hfirst : (eval (applyWithin limit) n scope).run ⟨s.store, []⟩ with ⟨_ | v, s'⟩
    · rfl
    · have hv := h v (congrArg Prod.fst hfirst)
      rw [evaluateWithin, hfirst] at hv
      obtain ⟨herror, hreturned, hmore⟩ := hv
      have hmore : RunsThrough limit scope ns (s'.after s.journal).store := hmore
      simp only [herror, Bool.false_eq_true, if_false]
      exact ih hmore v

/-- What statements come to does not depend on what was there before them, if there are any. -/
theorem evalStatements_last (call : Value → List Value → Action Value) {ns : List Node}
    (h : ns ≠ []) (scope : ScopeId) (v w : Value) :
    evalStatements call ns v scope = evalStatements call ns w scope := by
  cases ns with
  | nil => exact absurd rfl h
  | cons n ns => rw [evalStatements_cons, evalStatements_cons]

theorem state_evalStatements (call : Value → List Value → Action Value) (ns : List Node)
    (scope : ScopeId) (v w : Value) (s : State) :
    ((evalStatements call ns v scope).run s).2 = ((evalStatements call ns w scope).run s).2 := by
  cases ns with
  | nil =>
    rw [evalStatements, evalStatements]
    rfl
  | cons n ns => rw [evalStatements_last call (List.cons_ne_nil n ns) scope v w]

end TreeWalk
