import TreeWalk.Proofs.Eval.Data

namespace TreeWalk
namespace Action

variable {α β : Type}

/-- From a sound state the action leaves a sound state, and it comes to a result as described
unless it is refused. -/
def Ensures (act : Action α) (Q : α → Prop) : Prop :=
  ∀ s : State, s.Sound → (act.run s).2.Sound ∧
    match (act.run s).1 with
    | .ok a => Q a
    | .error h => h = .refused

theorem ensures_pure {Q : α → Prop} {a : α} (h : Q a) : (pure a : Action α).Ensures Q :=
  fun _ hs => ⟨hs, h⟩

theorem ensures_refused {Q : α → Prop} : (throw .refused : Action α).Ensures Q :=
  fun _ hs => ⟨hs, rfl⟩

theorem Ensures.bind {act : Action α} {k : α → Action β} {Q : α → Prop} {R : β → Prop}
    (h : act.Ensures Q) (hk : ∀ a, Q a → (k a).Ensures R) : (act >>= k).Ensures R := by
  intro s hs
  have hact := h s hs
  rw [run_bind]
  rcases hrun : act.run s with ⟨_ | a, s'⟩
  · rw [hrun] at hact
    exact hact
  · rw [hrun] at hact
    exact hk a hact.2 s' hact.1

theorem ensures_record {e : Event} (h : e.Sound) : (record e).Ensures fun _ => True := by
  intro s hs
  rw [run_record]
  exact ⟨⟨hs.store, List.forall_mem_cons.mpr ⟨h, hs.journal⟩⟩, trivial⟩

theorem ensures_bindName {v : Value} (hv : v.Sound) (scope : ScopeId) (name : String) :
    (Action.bind scope name v).Ensures fun _ => True := by
  intro s hs
  rw [run_bindName]
  exact ⟨⟨hs.store.bind hv scope name, List.forall_mem_cons.mpr ⟨hv, hs.journal⟩⟩, trivial⟩

theorem ensures_enclose (scope : ScopeId) : (enclose scope).Ensures fun _ => True := by
  intro s hs
  rw [run_enclose]
  exact ⟨⟨hs.store.enclose scope, hs.journal⟩, trivial⟩

theorem Ensures.observed {act : Action Value} (h : act.Ensures Value.Passable) (node : Node)
    (scope : ScopeId) : (act.observed node scope).Ensures Value.Passable := by
  refine (ensures_record (e := .entered node scope) trivial).bind fun _ _ => ?_
  refine h.bind fun v hv => ?_
  exact (ensures_record (e := .completed node v) hv).bind fun _ _ => ensures_pure hv

/-- Past an error there is only sound data to go on with. -/
theorem Ensures.unlessError {act : Action Value} {k : Value → Action Value}
    (h : act.Ensures Value.Passable) (hk : ∀ v, v.Sound → (k v).Ensures Value.Passable) :
    (act.unlessError k).Ensures Value.Passable := by
  refine h.bind fun v hv => ?_
  split
  · exact ensures_pure hv
  · next hne => exact hk v (hv.sound hne)

end Action

open TreeWalk.Action

theorem ensures_lookup (scope : ScopeId) (name : String) :
    (lookup scope name).Ensures Value.Passable := by
  intro s hs
  rw [run_lookup]
  refine ⟨hs, ?_⟩
  change Value.Passable _
  split
  · next hget => exact (hs.store.get? hget).passable
  · exact .inr (.builtin _)
  · exact Value.passable_failure _

theorem ensures_bindTo {target : Node} (ht : target.IsIdent) {v : Value} (hv : v.Sound)
    (scope : ScopeId) : (bindTo scope target v).Ensures fun _ => True := by
  cases target with
  | ident t name => exact ensures_bindName hv scope name
  | _ => cases ht

theorem ensures_bindAll (scope : ScopeId) (ps : List (Node × Value))
    (hnames : ∀ p ∈ ps, p.1.IsIdent) (hvalues : ∀ p ∈ ps, p.2.Sound) :
    (bindAll scope ps).Ensures fun _ => True := by
  induction ps with
  | nil => exact ensures_pure trivial
  | cons p ps ih =>
    obtain ⟨hname, hnames⟩ := List.forall_mem_cons.mp hnames
    obtain ⟨hvalue, hvalues⟩ := List.forall_mem_cons.mp hvalues
    exact (ensures_bindTo hname hvalue scope).bind fun _ _ => ih hnames hvalues

theorem ensures_runBuiltin (b : Builtin) {args : List Value} (hargs : ∀ a ∈ args, a.Sound) :
    (runBuiltin b args).Ensures Value.Passable := by
  have hlines (lines : List String) :
      (lines.forM fun line => Action.record (.printed line)).Ensures fun _ => True := by
    induction lines with
    | nil => exact ensures_pure trivial
    | cons line lines ih =>
      exact (ensures_record (e := .printed line) trivial).bind fun _ _ => ih
  exact (hlines _).bind fun _ _ => ensures_pure (b.passable_answer hargs)

section

variable {call : Value → List Value → Action Value} {scope : ScopeId}

def CallsSafely (call : Value → List Value → Action Value) : Prop :=
  ∀ f args, f.Sound → (∀ a ∈ args, a.Sound) → (call f args).Ensures Value.Passable

theorem ensures_evalStatements {ss : List Node}
    (h : ∀ s ∈ ss, (eval call s scope).Ensures Value.Passable) {last : Value} (hlast : last.Sound) :
    (evalStatements call ss last scope).Ensures Value.Passable := by
  induction ss generalizing last with
  | nil =>
    rw [evalStatements]
    exact ensures_pure hlast.passable
  | cons s ss ih =>
    obtain ⟨hs, hss⟩ := List.forall_mem_cons.mp h
    rw [evalStatements_cons]
    refine hs.unlessError fun v hv => ?_
    split
    · exact ensures_pure hv.passable
    · exact ih hss hv

theorem ensures_evalAll {es : List Node}
    (h : ∀ e ∈ es, (eval call e scope).Ensures Value.Passable) {k : List Value → Action Value}
    (hk : ∀ vs, (∀ v ∈ vs, v.Sound) → (k vs).Ensures Value.Passable) :
    (evalAll call scope es k).Ensures Value.Passable := by
  induction es generalizing k with
  | nil =>
    rw [evalAll_nil]
    exact hk [] (List.forall_mem_nil _)
  | cons e es ih =>
    obtain ⟨he, hes⟩ := List.forall_mem_cons.mp h
    rw [evalAll_cons]
    refine he.unlessError fun v hv => ?_
    exact ih hes fun vs hvs => hk (v :: vs) (List.forall_mem_cons.mpr ⟨hv, hvs⟩)

theorem ensures_evalPairs {ps : List (Node × Node)}
    (hkeys : ∀ p ∈ ps, (eval call p.1 scope).Ensures Value.Passable)
    (hvalues : ∀ p ∈ ps, (eval call p.2 scope).Ensures Value.Passable)
    {entries : Ordered HashKey (Value × Value)} (hentries : (Value.hash entries).Sound) :
    (evalPairs call ps entries scope).Ensures Value.Passable := by
  induction ps generalizing entries with
  | nil =>
    rw [evalPairs]
    exact ensures_pure hentries.passable
  | cons p ps ih =>
    obtain ⟨hkey, hkeys⟩ := List.forall_mem_cons.mp hkeys
    obtain ⟨hvalue, hvalues⟩ := List.forall_mem_cons.mp hvalues
    rw [evalPairs_cons]
    refine hkey.unlessError fun key hk => ?_
    split
    · exact ensures_pure (Value.passable_failure _)
    · refine hvalue.unlessError fun v hv => ?_
      exact ih hkeys hvalues (hentries.put hk hv _)

/-- One case for each form of a whole tree; a form that could not be evaluated is never met. -/
theorem ensures_eval (hcall : CallsSafely call) {n : Node} (hn : n.Whole) :
    (eval call n scope).Ensures Value.Passable := by
  induction hn with
  | program _ ih =>
    rw [eval_program]
    refine Ensures.observed ?_ _ _
    exact (ensures_evalStatements ih .null).unlessError fun v hv =>
      ensures_pure hv.unwrapped.passable
  | letStmt hname _ ih =>
    rw [eval_letStmt]
    refine Ensures.observed ?_ _ _
    exact ih.unlessError fun v hv =>
      (ensures_bindTo hname hv scope).bind fun _ _ => ensures_pure hv.passable
  | returnStmt _ ih =>
    rw [eval_returnStmt]
    refine Ensures.observed ?_ _ _
    exact ih.unlessError fun v hv => ensures_pure (.inr (.returned hv))
  | exprStmt _ ih =>
    rw [eval]
    exact ih.observed _ _
  | block _ ih =>
    rw [eval]
    exact (ensures_evalStatements ih .null).observed _ _
  | ident =>
    rw [eval]
    exact (ensures_lookup scope _).observed _ _
  | int =>
    rw [eval]
    exact (ensures_pure (.inr (.int _))).observed _ _
  | bool =>
    rw [eval]
    exact (ensures_pure (.inr (.bool _))).observed _ _
  | str =>
    rw [eval]
    exact (ensures_pure (.inr (.str _))).observed _ _
  | unary _ ih =>
    rw [eval_unary]
    refine Ensures.observed ?_ _ _
    exact ih.unlessError fun v _ => ensures_pure (Value.passable_unary _ v)
  | binary _ _ ih ih' =>
    rw [eval_binary]
    refine Ensures.observed ?_ _ _
    exact ih.unlessError fun l _ => ih'.unlessError fun r _ =>
      ensures_pure (Value.passable_binary _ l r)
  | ifThen _ _ ih ih' =>
    rw [eval_ifExpr]
    refine Ensures.observed (ih.unlessError fun v _ => ?_) _ _
    split
    · exact ih'
    · exact ensures_pure (.inr .null)
  | ifElse _ _ _ ih ih' ih'' =>
    rw [eval_ifExpr]
    refine Ensures.observed (ih.unlessError fun v _ => ?_) _ _
    split
    · exact ih'
    · split
      · exact ensures_pure (.inr .null)
      · exact ih''
  | function names body =>
    rw [eval]
    exact (ensures_pure (.inr (.function names body))).observed _ _
  | call _ _ ih ih' =>
    rw [eval_call]
    refine Ensures.observed ?_ _ _
    exact ih.unlessError fun f hf => ensures_evalAll ih' fun args hargs => hcall f args hf hargs
  | array _ ih =>
    rw [eval_arrayLit]
    refine Ensures.observed ?_ _ _
    exact ensures_evalAll ih fun vs hvs => ensures_pure (.inr (.array hvs))
  | index _ _ ih ih' =>
    rw [eval_index]
    refine Ensures.observed ?_ _ _
    exact ih.unlessError fun l hl => ih'.unlessError fun p _ =>
      ensures_pure (Value.passable_index hl p)
  | hash _ _ ih ih' =>
    rw [eval]
    have hempty : (Value.hash []).Sound := .hash (List.forall_mem_nil _) (List.forall_mem_nil _)
    exact (ensures_evalPairs ih ih' hempty).observed _ _

end

/-- Calls are safe up to any limit: a body is evaluated one call nearer to the refusal. -/
theorem callsSafely_applyWithin (limit : Nat) : CallsSafely (applyWithin limit) := by
  induction limit with
  | zero =>
    intro f args hf hargs
    cases hf with
    | function =>
      rw [applyWithin]
      split
      · exact ensures_pure (Value.passable_failure _)
      · exact ensures_refused
    | builtin b => exact ensures_runBuiltin b hargs
    | _ => exact ensures_pure (Value.passable_failure _)
  | succ limit ih =>
    intro f args hf hargs
    cases hf with
    | @function ps body scope names hbody =>
      by_cases hlength : args.length = ps.length
      · rw [applyWithin_function limit hlength]
        refine (ensures_enclose scope).bind fun inner _ => ?_
        have hbind := ensures_bindAll inner (ps.zip args)
          (fun p hp => names p.1 (List.of_mem_zip hp).1)
          (fun p hp => hargs p.2 (List.of_mem_zip hp).2)
        refine hbind.bind fun _ _ => (ensures_eval ih hbody).unlessError fun v hv => ?_
        exact ensures_pure hv.unwrapped.passable
      · rw [applyWithin, if_pos hlength]
        exact ensures_pure (Value.passable_failure _)
    | builtin b => exact ensures_runBuiltin b hargs
    | _ => exact ensures_pure (Value.passable_failure _)

theorem ensures_evaluateWithin (limit : Nat) {n : Node} (hn : n.Whole) (scope : ScopeId) :
    (evaluateWithin limit n scope).Ensures Value.Passable :=
  ensures_eval (callsSafely_applyWithin limit) hn

end TreeWalk
