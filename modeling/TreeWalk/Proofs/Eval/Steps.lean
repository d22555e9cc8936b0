import Mathlib.Logic.Relation
import TreeWalk.Proofs.Value.Parts

/-! Which steps of a run can come next is said here once, whatever the tree and the state. Calls
whose arguments are looked at first show what is passed to functions and built-ins. -/
namespace TreeWalk

open Relation (ReflTransGen)

/-- The parts of a node that are evaluated with it and in its scope. What a function holds waits for
a call. -/
def Node.children : Node → List Node
  | .missing | .bare .. | .ident .. | .intLit .. | .boolLit .. | .strLit .. | .fnLit .. => []
  | .program ss | .block _ ss => ss
  | .letStmt _ _ e | .returnStmt _ e | .exprStmt _ e | .unary _ _ e => [e]
  | .binary _ _ a b | .index _ a b => [a, b]
  | .ifExpr _ c a b => if b.isMissing then [c, a] else [c, a, b]
  | .call _ f args => f :: args
  | .arrayLit _ es => es
  | .hashLit _ ps => ps.flatMap fun p => [p.1, p.2]

theorem Node.mem_children_condition (t : Token) (c a b : Node) :
    c ∈ (Node.ifExpr t c a b).children := by
  cases hb : b.isMissing <;> simp [Node.children, hb]

theorem Node.mem_children_consequence (t : Token) (c a b : Node) :
    a ∈ (Node.ifExpr t c a b).children := by
  cases hb : b.isMissing <;> simp [Node.children, hb]

theorem Node.mem_children_alternative (t : Token) (c a : Node) {b : Node} (h : ¬ b.isMissing) :
    b ∈ (Node.ifExpr t c a b).children := by
  simp [Node.children, h]

/-- Where a run comes from: what it may begin to evaluate and where, the values it is handed, and
how many scopes there are. -/
structure Origin where
  tree : Node → ScopeId → Prop
  value : Value → Prop
  scopes : Nat

def Origin.evaluating (n : Node) (scope : ScopeId) (scopes : Nat) : Origin :=
  ⟨fun m i => m = n ∧ i = scope, fun _ => False, scopes⟩

def Origin.calling (f : Value) (args : List Value) (scopes : Nat) : Origin :=
  ⟨fun _ _ => False, fun v => v ∈ f :: args, scopes⟩

section

variable (o : Origin)

/-- The values at hand: those handed in, and what evaluations came to without an error. -/
def Known (s : State) (v : Value) : Prop :=
  o.value v ∨ v.isError = false ∧ ∃ n, .completed n v ∈ s.journal

def Opened (s : State) (i : ScopeId) : Prop := o.scopes ≤ i ∧ i < s.store.scopes.size

inductive MayEnter (s : State) : Node → ScopeId → Prop
  | tree {n : Node} {i : ScopeId} (start : o.tree n i) : MayEnter s n i
  | child {p n : Node} {i : ScopeId} (parent : .entered p i ∈ s.journal) (h : n ∈ p.children) :
      MayEnter s n i
  | body {ps : List Node} {n : Node} {i j : ScopeId} (callee : Known o s (.function ps n j))
      (scope : Opened o s i) : MayEnter s n i

inductive MayBind (s : State) : ScopeId → String → Prop
  | letStmt {t : Token} {target e : Node} {i : ScopeId} {name : String}
      (statement : .entered (.letStmt t target e) i ∈ s.journal)
      (h : target.bindingName? = some name) : MayBind s i name
  | parameter {i : ScopeId} (scope : Opened o s i) (name : String) : MayBind s i name

/-- What an evaluation can come to. -/
inductive Made (s : State) : Value → Prop
  | derived {args : List Value} {v : Value} (operands : ∀ a ∈ args, Known o s a)
      (h : Value.Derived args v) : Made s v
  | bound {i : ScopeId} {name : String} {v : Value} (h : (name, v) ∈ s.store.bindings i) : Made s v
  | literal {t : Token} {n : Int} {i : ScopeId} (node : .entered (.intLit t n) i ∈ s.journal) :
      Made s (.int n)
  | closure {t : Token} {ps : List Node} {body : Node} {i : ScopeId}
      (node : .entered (.fnLit t ps body) i ∈ s.journal) : Made s (.function ps body i)
  | returned {v : Value} (value : Known o s v) : Made s (.returned v)

inductive Step : State → State → Prop
  | enter {s : State} {n : Node} {i : ScopeId} (h : MayEnter o s n i) :
      Step s ⟨s.store, .entered n i :: s.journal⟩
  | complete {s : State} {n : Node} {v : Value} (h : Made o s v) :
      Step s ⟨s.store, .completed n v :: s.journal⟩
  | bind {s : State} {i : ScopeId} {name : String} {v : Value} (h : MayBind o s i name)
      (value : Known o s v) : Step s ⟨s.store.bind i name v, .bound i name v :: s.journal⟩
  | enclose {s : State} {ps : List Node} {body : Node} {i : ScopeId}
      (callee : Known o s (.function ps body i)) : Step s ⟨(s.store.enclose i).2, s.journal⟩
  | print {s : State} {v : Value} (value : Known o s v) :
      Step s ⟨s.store, .printed v.inspect :: s.journal⟩

abbrev Steps : State → State → Prop := ReflTransGen (Step o)

end

section

variable {o : Origin} {s s' : State}

theorem Store.size_bind {β : Type} (st : Store β) (i : ScopeId) (name : String) (v : Value) :
    (st.bind i name v).scopes.size = st.scopes.size := by
  simp [Store.bind]

theorem Store.size_enclose {β : Type} (st : Store β) (i : ScopeId) :
    (st.enclose i).2.scopes.size = st.scopes.size + 1 := by
  simp [Store.enclose]

theorem Step.size_le (h : Step o s s') : s.store.scopes.size ≤ s'.store.scopes.size := by
  cases h with
  | bind => exact Nat.le_of_eq (Store.size_bind ..).symm
  | enclose => exact Store.size_enclose .. ▸ Nat.le_succ _
  | _ => exact Nat.le_refl _

theorem Step.mem_journal (h : Step o s s') {e : Event} (he : e ∈ s.journal) : e ∈ s'.journal := by
  cases h with
  | enclose => exact he
  | _ => exact List.mem_cons_of_mem _ he

theorem Steps.size_le (h : Steps o s s') : s.store.scopes.size ≤ s'.store.scopes.size := by
  induction h with
  | refl => exact Nat.le_refl _
  | tail _ hstep ih => exact Nat.le_trans ih hstep.size_le

theorem Steps.mem_journal (h : Steps o s s') {e : Event} (he : e ∈ s.journal) :
    e ∈ s'.journal := by
  induction h with
  | refl => exact he
  | tail _ hstep ih => exact hstep.mem_journal ih

theorem Known.mono {v : Value} (hv : Known o s v) (h : Steps o s s') : Known o s' v := by
  rcases hv with hv | ⟨hne, n, hn⟩
  · exact .inl hv
  · exact .inr ⟨hne, n, h.mem_journal hn⟩

theorem Opened.mono {i : ScopeId} (hi : Opened o s i) (h : Steps o s s') : Opened o s' i :=
  ⟨hi.1, Nat.lt_of_lt_of_le hi.2 h.size_le⟩

end

/-- Calls whose arguments are looked at first: with one that is not `ok` the call is not made. -/
def applyChecked (ok : Value → Bool) (limit : Nat) (f : Value) (args : List Value) :
    Action Value :=
  if args.all ok then match limit, f with
    | n + 1, .function parameters body scope =>
      if args.length ≠ parameters.length then
        return (Failure.arity parameters.length args.length).value
      else do
        let inner ← Action.enclose scope
        bindAll inner (parameters.zip args)
        return (← eval (applyChecked ok n) body inner).unwrapped
    | limit, f => applyWithin limit f args
  else throw (.notEvaluable "argument")

def inBody (call : Value → List Value → Action Value) (parameters : List Node) (body : Node)
    (scope : ScopeId) (args : List Value) : Action Value := do
  let inner ← Action.enclose scope
  bindAll inner (parameters.zip args)
  return (← eval call body inner).unwrapped

/-- Induction on the limit: what holds of calls and checked calls, if it holds where they are turned
down and for bodies as long as it holds for the calls in them. -/
theorem applyChecked_induct {ok : Value → Bool}
    {R : Value → List Value → Action Value → Action Value → Prop}
    (failed : ∀ f args (failure : Failure), R f args (pure failure.value) (pure failure.value))
    (builtin : ∀ b args, R (.builtin b) args (runBuiltin b args) (runBuiltin b args))
    (refused : ∀ f args, R f args (throw .refused) (throw .refused))
    (body : ∀ call call', (∀ f args, R f args (call f args) (call' f args)) →
      ∀ ps body scope args, R (.function ps body scope) args (inBody call ps body scope args)
        (inBody call' ps body scope args))
    (unchecked : ∀ f args act checked, args.all ok = false → R f args act checked →
      R f args act (throw (.notEvaluable "argument")))
    (limit : Nat) (f : Value) (args : List Value) :
    R f args (applyWithin limit f args) (applyChecked ok limit f args) := by
  have hchecked (limit : Nat) (f : Value) (args : List Value) (checked : Action Value)
      (h : R f args (applyWithin limit f args) checked) : R f args (applyWithin limit f args)
        (if args.all ok then checked else throw (.notEvaluable "argument")) := by
    split
    · exact h
    · next hnot => exact unchecked f args _ checked (Bool.eq_false_iff.mpr hnot) h
  induction limit generalizing f args with
  | zero =>
    unfold applyChecked
    refine hchecked 0 f args _ ?_
    cases f with
    | function ps b scope =>
      by_cases hlength : args.length ≠ ps.length
      · simp only [applyWithin, if_pos hlength]
        exact failed _ args _
      · simp only [applyWithin, if_neg hlength]
        exact refused _ args
    | builtin b => exact builtin b args
    | _ => exact failed _ args _
  | succ limit ih =>
    unfold applyChecked
    refine hchecked (limit + 1) f args _ ?_
    cases f with
    | function ps b scope =>
      by_cases hlength : args.length ≠ ps.length
      · simp only [applyWithin, if_pos hlength]
        exact failed _ args _
      · simp only [applyWithin, if_neg hlength]
        exact body _ _ ih ps b scope args
    | builtin b => exact builtin b args
    | _ => exact failed _ args _

section

variable {α β : Type} (o : Origin) (ok : Value → Bool)

def Unfit (s : State) : Prop := ∃ v, Known o s v ∧ ok v = false

/-- From a state as described the action takes steps that are possible, and what it comes to is as
described. The second action does the same, unless it meets a value that is not `ok`. -/
def Does (P : State → Prop) (act checked : Action α) (Q : State → α → Prop) : Prop :=
  ∀ s : State, o.scopes ≤ s.store.scopes.size → P s →
    Steps o s (act.run s).2 ∧ (∀ a, (act.run s).1 = .ok a → Q (act.run s).2 a) ∧
      (checked.run s = act.run s ∨ Unfit o ok (act.run s).2)

/-- What an evaluation has come to: an error on its way out, or a value at hand. -/
def Arrived (s : State) (v : Value) : Prop := v.isError ∨ Known o s v

def AtHand (vs : List Value) (s : State) : Prop := ∀ v ∈ vs, Known o s v

/-- The node is under way in the scope, and the values are at hand. -/
structure Ready (n : Node) (scope : ScopeId) (vs : List Value) (s : State) : Prop where
  entered : .entered n scope ∈ s.journal
  known : AtHand o vs s

end

section

variable {α β : Type} {o : Origin} {ok : Value → Bool} {P P' : State → Prop}

theorem Unfit.mono {s s' : State} (hs : Unfit o ok s) (h : Steps o s s') : Unfit o ok s' := by
  obtain ⟨v, hv, hok⟩ := hs
  exact ⟨v, hv.mono h, hok⟩

theorem AtHand.mono {vs : List Value} {s s' : State} (hs : AtHand o vs s) (h : Steps o s s') :
    AtHand o vs s' := fun v hv => (hs v hv).mono h

theorem Ready.mono {n : Node} {scope : ScopeId} {vs : List Value} {s s' : State}
    (hs : Ready o n scope vs s) (h : Steps o s s') : Ready o n scope vs s' :=
  ⟨h.mem_journal hs.entered, hs.known.mono h⟩

theorem Ready.subset {n : Node} {scope : ScopeId} {vs us : List Value} {s : State}
    (hs : Ready o n scope vs s) (h : us ⊆ vs) : Ready o n scope us s :=
  ⟨hs.entered, fun v hv => hs.known v (h hv)⟩

theorem made_of_isError (s : State) (v : Value) (h : v.isError) : Made o s v :=
  .derived (List.forall_mem_nil _) (.inl h)

theorem Arrived.made {s : State} {v : Value} (h : Arrived o s v) : Made o s v := by
  rcases h with herror | hknown
  · exact made_of_isError s v herror
  · exact .derived (List.forall_mem_singleton.mpr hknown)
      (Value.derived_operand List.mem_cons_self)

theorem Arrived.made_unwrapped {s : State} {v : Value} (h : Arrived o s v) :
    Made o s v.unwrapped := by
  rcases h with herror | hknown
  · rw [Value.unwrapped_of_isError herror]
    exact made_of_isError s v herror
  · exact .derived (List.forall_mem_singleton.mpr hknown)
      (Value.derived_unwrapped List.mem_cons_self)

theorem does_pure {a : α} {Q : State → α → Prop} (h : ∀ s, P s → Q s a) :
    Does o ok P (pure a) (pure a) Q := by
  intro s _ hs
  refine ⟨.refl, ?_, .inl rfl⟩
  intro b hb
  cases hb
  exact h s hs

theorem does_throw {Q : State → α → Prop} (h : Halt) :
    Does o ok P (throw h) (throw h) Q :=
  fun _ _ _ => ⟨.refl, nofun, .inl rfl⟩

theorem does_step {act : Action α} {Q : State → α → Prop}
    (h : ∀ s, P s → o.scopes ≤ s.store.scopes.size →
      ∃ a s', act.run s = (.ok a, s') ∧ Step o s s' ∧ Q s' a) : Does o ok P act act Q := by
  intro s hsize hs
  obtain ⟨a, s', hrun, hstep, hq⟩ := h s hs hsize
  rw [hrun]
  refine ⟨.single hstep, ?_, .inl rfl⟩
  intro b hb
  cases hb
  exact hq

theorem Does.weaken {act checked : Action α} {Q Q' : State → α → Prop}
    (h : Does o ok P act checked Q) (hP : ∀ s, P' s → P s) (hQ : ∀ s a, Q s a → Q' s a) :
    Does o ok P' act checked Q' := by
  intro s hsize hs
  obtain ⟨hsteps, hq, hsame⟩ := h s hsize (hP s hs)
  exact ⟨hsteps, fun a ha => hQ _ a (hq a ha), hsame⟩

/-- What lasts along every step is still there when the action is done. -/
theorem Does.frame {act checked : Action α} {Q : State → α → Prop} {F : State → Prop}
    (h : Does o ok P act checked Q) (hF : ∀ s s', F s → Steps o s s' → F s') :
    Does o ok (fun s => F s ∧ P s) act checked fun s a => F s ∧ Q s a := by
  intro s hsize hs
  obtain ⟨hsteps, hq, hsame⟩ := h s hsize hs.2
  exact ⟨hsteps, fun a ha => ⟨hF _ _ hs.1 hsteps, hq a ha⟩, hsame⟩

theorem Does.bind {act checked : Action α} {k k' : α → Action β} {Q : State → α → Prop}
    {R : State → β → Prop} (h : Does o ok P act checked Q)
    (hk : ∀ a, Does o ok (Q · a) (k a) (k' a) R) :
    Does o ok P (act >>= k) (checked >>= k') R := by
  intro s hsize hs
  obtain ⟨hsteps, hq, hsame⟩ := h s hsize hs
  rw [Action.run_bind, Action.run_bind]
  rcases hrun : act.run s with ⟨halt | a, s₁⟩
  · rw [hrun] at hsteps hsame
    refine ⟨hsteps, nofun, hsame.imp_left fun hsame => ?_⟩
    rw [hsame]
  · rw [hrun] at hsteps hq hsame
    obtain ⟨hsteps', hr, hsame'⟩ := hk a s₁ (Nat.le_trans hsize hsteps.size_le) (hq a rfl)
    refine ⟨hsteps.trans hsteps', hr, ?_⟩
    rcases hsame with hsame | hunfit
    · rw [hsame]
      exact hsame'
    · exact .inr (hunfit.mono hsteps')

theorem Does.observed {act checked : Action Value} {n : Node} {scope : ScopeId}
    (h : Does o ok (Ready o n scope []) act checked (Made o)) :
    Does o ok (MayEnter o · n scope) (act.observed n scope) (checked.observed n scope)
      (Arrived o) := by
  have hentered : Does o ok (MayEnter o · n scope) (Action.record (.entered n scope))
      (Action.record (.entered n scope)) fun s _ => Ready o n scope [] s :=
    does_step fun s hs _ =>
      ⟨_, _, rfl, .enter hs, ⟨List.mem_cons_self, List.forall_mem_nil _⟩⟩
  have hcompleted (v : Value) : Does o ok (Made o · v) (Action.record (.completed n v))
      (Action.record (.completed n v)) fun s _ => Arrived o s v := by
    refine does_step fun s hs _ => ⟨_, _, rfl, .complete hs, ?_⟩
    cases herror : v.isError with
    | true => exact .inl herror
    | false => exact .inr (.inr ⟨herror, n, List.mem_cons_self⟩)
  refine hentered.bind fun _ => h.bind fun v => (hcompleted v).bind fun _ => ?_
  exact does_pure fun _ hs => hs

end

section

variable {o : Origin} {ok : Value → Bool} {call call' : Value → List Value → Action Value}
  {n : Node} {scope : ScopeId} {vs : List Value}

variable (o ok call call') in
def EvalDoes (n : Node) (scope : ScopeId) : Prop :=
  Does o ok (MayEnter o · n scope) (eval call n scope) (eval call' n scope) (Arrived o)

variable (o ok call call') in
def CallDoes : Prop :=
  ∀ f args, Does o ok (AtHand o (f :: args)) (call f args) (call' f args) (Made o)

/-- A child is evaluated while its parent is under way. -/
theorem EvalDoes.ready {c : Node} (h : EvalDoes o ok call call' c scope) (hc : c ∈ n.children) :
    Does o ok (Ready o n scope vs) (eval call c scope) (eval call' c scope)
      fun s v => Ready o n scope vs s ∧ Arrived o s v := by
  have hframe := Does.frame (F := Ready o n scope vs) h fun _ _ hs hsteps => hs.mono hsteps
  exact hframe.weaken (fun s hs => ⟨hs, .child hs.entered hc⟩) fun _ _ hs => hs

theorem EvalDoes.made {c : Node} (h : EvalDoes o ok call call' c scope) (hc : c ∈ n.children) :
    Does o ok (Ready o n scope vs) (eval call c scope) (eval call' c scope) (Made o) :=
  (h.ready hc).weaken (fun _ hs => hs) fun _ _ hs => hs.2.made

theorem EvalDoes.unlessError {c : Node} (h : EvalDoes o ok call call' c scope)
    (hc : c ∈ n.children) {k k' : Value → Action Value} {Q : State → Value → Prop}
    (hQ : ∀ s v, v.isError → Q s v)
    (hk : ∀ v, Does o ok (Ready o n scope (v :: vs)) (k v) (k' v) Q) :
    Does o ok (Ready o n scope vs) ((eval call c scope).unlessError k)
      ((eval call' c scope).unlessError k') Q := by
  refine (h.ready hc).bind fun v => ?_
  cases herror : v.isError with
  | true =>
    simp only [if_true]
    exact does_pure fun s _ => hQ s v herror
  | false =>
    simp only [Bool.false_eq_true, if_false]
    refine (hk v).weaken (fun s hs => ?_) fun _ _ hs => hs
    have hknown : Known o s v := hs.2.resolve_left (by rw [herror]; exact Bool.false_ne_true)
    exact ⟨hs.1.entered, List.forall_mem_cons.mpr ⟨hknown, hs.1.known⟩⟩

theorem does_derived_of_subset {args : List Value} {v : Value} (hargs : args ⊆ vs)
    (h : Value.Derived args v) : Does o ok (Ready o n scope vs) (pure v) (pure v) (Made o) :=
  does_pure fun _ hs => .derived (hs.subset hargs).known h

theorem does_derived {v : Value} (h : Value.Derived vs v) :
    Does o ok (Ready o n scope vs) (pure v) (pure v) (Made o) :=
  does_derived_of_subset (List.Subset.refl vs) h

theorem does_lookup (name : String) :
    Does o ok (Ready o n scope vs) (lookup scope name) (lookup scope name) (Made o) := by
  intro s _ hs
  rw [run_lookup]
  refine ⟨.refl, ?_, .inl rfl⟩
  intro v hv
  cases hv
  split
  · next hget =>
    obtain ⟨i, hi⟩ := Store.exists_mem_of_get? hget
    exact .bound hi
  · exact .derived (List.forall_mem_nil _) (Value.derived_builtin _)
  · exact .derived (List.forall_mem_nil _) (Value.derived_failure _)

theorem does_evalStatements {ss : List Node} (hss : ∀ s ∈ ss, s ∈ n.children)
    (h : ∀ s ∈ ss, EvalDoes o ok call call' s scope) {last : Value}
    (hlast : last = .null ∨ last ∈ vs) :
    Does o ok (Ready o n scope vs) (evalStatements call ss last scope)
      (evalStatements call' ss last scope) fun s v => v = .null ∨ Arrived o s v := by
  induction ss generalizing last vs with
  | nil =>
    rw [evalStatements, evalStatements]
    exact does_pure fun s hs => hlast.imp_right fun hmem => .inr (hs.known last hmem)
  | cons s ss ih =>
    obtain ⟨hs, hss'⟩ := List.forall_mem_cons.mp hss
    obtain ⟨heval, h⟩ := List.forall_mem_cons.mp h
    rw [evalStatements_cons, evalStatements_cons]
    refine heval.unlessError hs (fun _ _ herror => .inr (.inl herror)) fun v => ?_
    cases v with
    | returned w => exact does_pure fun s hs => .inr (.inr (hs.known _ List.mem_cons_self))
    | _ => exact ih hss' h (.inr List.mem_cons_self)

theorem does_evalAll {es : List Node} (hes : ∀ e ∈ es, e ∈ n.children)
    (h : ∀ e ∈ es, EvalDoes o ok call call' e scope) {k k' : List Value → Action Value}
    (hk : ∀ us, Does o ok (Ready o n scope (us ++ vs)) (k us) (k' us) (Made o)) :
    Does o ok (Ready o n scope vs) (evalAll call scope es k) (evalAll call' scope es k')
      (Made o) := by
  induction es generalizing vs k k' with
  | nil =>
    rw [evalAll_nil, evalAll_nil]
    exact hk []
  | cons e es ih =>
    obtain ⟨he, hes⟩ := List.forall_mem_cons.mp hes
    obtain ⟨heval, h⟩ := List.forall_mem_cons.mp h
    rw [evalAll_cons, evalAll_cons]
    refine heval.unlessError he made_of_isError fun v => ih hes h fun us => ?_
    refine (hk (v :: us)).weaken (fun s hs => hs.subset fun w hw => ?_) fun _ _ hs => hs
    rcases List.mem_append.mp hw with hw | hw
    · rcases List.mem_cons.mp hw with rfl | hw
      · exact List.mem_append_right _ List.mem_cons_self
      · exact List.mem_append_left _ hw
    · exact List.mem_append_right _ (List.mem_cons_of_mem _ hw)

theorem does_evalPairs {ps : List (Node × Node)}
    (hps : ∀ p ∈ ps, p.1 ∈ n.children ∧ p.2 ∈ n.children)
    (hkeys : ∀ p ∈ ps, EvalDoes o ok call call' p.1 scope)
    (hvalues : ∀ p ∈ ps, EvalDoes o ok call call' p.2 scope)
    {entries : Ordered HashKey (Value × Value)}
    (hentries : ∀ e ∈ entries, e.2.1 ∈ vs ∧ e.2.2 ∈ vs) :
    Does o ok (Ready o n scope vs) (evalPairs call ps entries scope)
      (evalPairs call' ps entries scope) (Made o) := by
  induction ps generalizing entries vs with
  | nil =>
    rw [evalPairs, evalPairs]
    exact does_derived
      (Value.derived_hash (fun e he => (hentries e he).1) fun e he => (hentries e he).2)
  | cons p ps ih =>
    obtain ⟨hp, hps⟩ := List.forall_mem_cons.mp hps
    obtain ⟨hkey, hkeys⟩ := List.forall_mem_cons.mp hkeys
    obtain ⟨hvalue, hvalues⟩ := List.forall_mem_cons.mp hvalues
    rw [evalPairs_cons, evalPairs_cons]
    refine hkey.unlessError hp.1 made_of_isError fun key => ?_
    cases key.hashKey? with
    | none => exact does_derived (Value.derived_failure _)
    | some k =>
      refine hvalue.unlessError hp.2 made_of_isError fun v => ih hps hkeys hvalues fun e he => ?_
      rcases Ordered.mem_put he with rfl | he
      · exact ⟨List.mem_cons_of_mem _ List.mem_cons_self, List.mem_cons_self⟩
      · have hmem := hentries e he
        exact ⟨List.mem_cons_of_mem _ (List.mem_cons_of_mem _ hmem.1),
          List.mem_cons_of_mem _ (List.mem_cons_of_mem _ hmem.2)⟩

theorem does_bindTo_letStmt {t : Token} {target e : Node} {v : Value} (hv : v ∈ vs) :
    Does o ok (Ready o (.letStmt t target e) scope vs) (bindTo scope target v)
      (bindTo scope target v) fun s _ => Ready o (.letStmt t target e) scope vs s := by
  unfold bindTo
  split
  · next name hname =>
    refine does_step fun s hs _ => ⟨_, _, rfl, ?_⟩
    have hstep := Step.bind (.letStmt hs.entered hname) (hs.known v hv)
    exact ⟨hstep, hs.mono (.single hstep)⟩
  · split
    · exact does_pure fun _ hs => hs
    · exact does_throw _

theorem made_of_statements {s : State} {v : Value} (h : v = .null ∨ Arrived o s v) :
    Made o s v := by
  rcases h with rfl | harrived
  · exact .derived (List.forall_mem_nil _) Value.derived_null
  · exact harrived.made

/-- A node is entered, does what its rule says, and is completed. -/
theorem evalDoes_of_rule {act : (Value → List Value → Action Value) → Action Value}
    (hrule : ∀ call, eval call n scope = (act call).observed n scope)
    (h : Does o ok (Ready o n scope []) (act call) (act call') (Made o)) :
    EvalDoes o ok call call' n scope := by
  unfold EvalDoes
  rw [hrule, hrule]
  exact h.observed

theorem evalDoes (hcall : CallDoes o ok call call') (n : Node) (scope : ScopeId) :
    EvalDoes o ok call call' n scope := by
  induction n with
  | missing | bare => exact evalDoes_of_rule (fun call => by rw [eval]) (does_throw _)
  | program ss ih =>
    refine evalDoes_of_rule (fun call => by rw [eval]) ?_
    refine (does_evalStatements (n := .program ss) (fun _ hs => hs) ih (.inl rfl)).bind fun v => ?_
    refine does_pure fun s hs => ?_
    rcases hs with rfl | harrived
    · exact .derived (List.forall_mem_nil _) Value.derived_null
    · exact harrived.made_unwrapped
  | letStmt t name value _ ih =>
    refine evalDoes_of_rule (fun call => eval_letStmt call scope t name value) ?_
    refine ih.unlessError List.mem_cons_self made_of_isError fun v => ?_
    refine (does_bindTo_letStmt List.mem_cons_self).bind fun _ => ?_
    exact does_derived (Value.derived_operand List.mem_cons_self)
  | returnStmt t value ih =>
    refine evalDoes_of_rule (fun call => eval_returnStmt call scope t value) ?_
    refine ih.unlessError List.mem_cons_self made_of_isError fun v => ?_
    exact does_pure fun s hs => .returned (hs.known v List.mem_cons_self)
  | exprStmt t e ih =>
    exact evalDoes_of_rule (fun call => by rw [eval]) (ih.made List.mem_cons_self)
  | block t ss ih =>
    refine evalDoes_of_rule (fun call => by rw [eval]) ?_
    refine Does.weaken ?_ (fun _ hs => hs) fun _ _ hs => made_of_statements hs
    exact does_evalStatements (n := .block t ss) (fun _ hs => hs) ih (.inl rfl)
  | ident t name => exact evalDoes_of_rule (fun call => by rw [eval]) (does_lookup name)
  | intLit =>
    refine evalDoes_of_rule (fun call => by rw [eval]) ?_
    exact does_pure fun s hs => .literal hs.entered
  | boolLit =>
    exact evalDoes_of_rule (fun call => by rw [eval]) (does_derived (Value.derived_bool _))
  | strLit =>
    exact evalDoes_of_rule (fun call => by rw [eval]) (does_derived (Value.derived_str _))
  | fnLit =>
    refine evalDoes_of_rule (fun call => by rw [eval]) ?_
    exact does_pure fun s hs => .closure hs.entered
  | unary t op right ih =>
    refine evalDoes_of_rule (fun call => eval_unary call scope t op right) ?_
    refine ih.unlessError List.mem_cons_self made_of_isError fun v => ?_
    exact does_derived (Value.derived_unary op v)
  | binary t op left right ih ih' =>
    refine evalDoes_of_rule (fun call => eval_binary call scope t op left right) ?_
    refine ih.unlessError List.mem_cons_self made_of_isError fun l => ?_
    refine ih'.unlessError (by simp [Node.children]) made_of_isError fun r => ?_
    exact does_derived_of_subset (by simp) (Value.derived_binary op l r)
  | ifExpr t c a b ih ih' ih'' =>
    refine evalDoes_of_rule (fun call => eval_ifExpr call scope t c a b) ?_
    refine ih.unlessError (Node.mem_children_condition t c a b) made_of_isError fun v => ?_
    split
    · exact ih'.made (Node.mem_children_consequence t c a b)
    · split
      · exact does_derived Value.derived_null
      · next hb => exact ih''.made (Node.mem_children_alternative t c a hb)
  | call t f args ih ih' =>
    refine evalDoes_of_rule (fun call => eval_call call scope t f args) ?_
    refine ih.unlessError List.mem_cons_self made_of_isError fun v => ?_
    refine does_evalAll (n := .call t f args) (fun a ha => List.mem_cons_of_mem _ ha) ih'
      fun us => ?_
    refine (hcall v us).weaken (fun s hs => List.forall_mem_cons.mpr ⟨?_, ?_⟩) fun _ _ hs => hs
    · exact hs.known v (List.mem_append_right _ List.mem_cons_self)
    · exact fun u hu => hs.known u (List.mem_append_left _ hu)
  | arrayLit t es ih =>
    refine evalDoes_of_rule (fun call => eval_arrayLit call scope t es) ?_
    refine does_evalAll (n := .arrayLit t es) (fun e he => he) ih fun us => ?_
    refine does_derived (Value.derived_array fun u hu => ⟨u, ?_, fun _ hw => hw⟩)
    exact List.mem_append_left _ hu
  | index t left position ih ih' =>
    refine evalDoes_of_rule (fun call => eval_index call scope t left position) ?_
    refine ih.unlessError List.mem_cons_self made_of_isError fun l => ?_
    refine ih'.unlessError (by simp [Node.children]) made_of_isError fun p => ?_
    exact does_derived_of_subset (by simp) (Value.derived_index l p)
  | hashLit t ps ih ih' =>
    refine evalDoes_of_rule (fun call => by rw [eval]) ?_
    refine does_evalPairs (n := .hashLit t ps) (fun p hp => ?_) ih ih' (List.forall_mem_nil _)
    simp only [Node.children, List.mem_flatMap]
    exact ⟨⟨p, hp, List.mem_cons_self⟩, p, hp, List.mem_cons_of_mem _ List.mem_cons_self⟩

theorem does_bindAll {i : ScopeId} {ps : List (Node × Value)} (hps : ∀ p ∈ ps, p.2 ∈ vs) :
    Does o ok (fun s => Opened o s i ∧ AtHand o vs s) (bindAll i ps) (bindAll i ps)
      fun s _ => Opened o s i ∧ AtHand o vs s := by
  induction ps with
  | nil => exact does_pure fun _ hs => hs
  | cons p ps ih =>
    obtain ⟨hp, hps⟩ := List.forall_mem_cons.mp hps
    refine Does.bind ?_ fun _ => ih hps
    unfold bindTo
    split
    · next name _ =>
      refine does_step fun s hs _ => ⟨_, _, rfl, ?_⟩
      have hstep := Step.bind (.parameter hs.1 name) (hs.2 p.2 hp)
      exact ⟨hstep, hs.1.mono (.single hstep), hs.2.mono (.single hstep)⟩
    · split
      · exact does_pure fun _ hs => hs
      · exact does_throw _

theorem does_runBuiltin (b : Builtin) (args : List Value) :
    Does o ok (AtHand o args) (runBuiltin b args) (runBuiltin b args) (Made o) := by
  have hlines (lines : List String) (h : ∀ line ∈ lines, ∃ a ∈ args, line = a.inspect) :
      Does o ok (AtHand o args) (lines.forM fun line => Action.record (.printed line))
        (lines.forM fun line => Action.record (.printed line)) fun s _ => AtHand o args s := by
    induction lines with
    | nil => exact does_pure fun _ hs => hs
    | cons line lines ih =>
      obtain ⟨⟨a, ha, hline⟩, h⟩ := List.forall_mem_cons.mp h
      refine Does.bind (does_step fun s hs _ => ⟨_, _, rfl, ?_⟩) fun _ => ih h
      rw [hline]
      have hstep := Step.print (hs a ha)
      exact ⟨hstep, hs.mono (.single hstep)⟩
  refine (hlines (b.lines args) fun line hline => ?_).bind fun _ => ?_
  · cases b with
    | puts =>
      obtain ⟨a, ha, rfl⟩ := List.mem_map.mp hline
      exact ⟨a, ha, rfl⟩
    | _ => cases hline
  · exact does_pure fun s hs => .derived hs (b.derived_answer args)

theorem does_enclose {ps : List Node} {body : Node} (h : .function ps body scope ∈ vs) :
    Does o ok (AtHand o vs) (Action.enclose scope) (Action.enclose scope)
      fun s inner => Opened o s inner ∧ AtHand o vs s := by
  refine does_step fun s hs hsize => ⟨_, _, Action.run_enclose scope s, ?_⟩
  have hstep := Step.enclose (hs _ h)
  exact ⟨hstep, ⟨hsize, Store.size_enclose .. ▸ Nat.lt_succ_self _⟩, hs.mono (.single hstep)⟩

theorem does_inBody (hcall : CallDoes o ok call call') {ps : List Node} {body : Node}
    {args : List Value} :
    Does o ok (AtHand o (.function ps body scope :: args)) (inBody call ps body scope args)
      (inBody call' ps body scope args) (Made o) := by
  refine (does_enclose List.mem_cons_self).bind fun inner => ?_
  refine (does_bindAll fun p hp => List.mem_cons_of_mem _ (List.of_mem_zip hp).2).bind fun _ => ?_
  have hbody : Does o ok _ (eval call body inner) (eval call' body inner) (Arrived o) :=
    evalDoes hcall body inner
  refine Does.bind (hbody.weaken (fun s hs => ?_) fun _ _ hs => hs) fun v => ?_
  · exact .body (hs.2 _ List.mem_cons_self) hs.1
  · exact does_pure fun _ hs => hs.made_unwrapped

/-- Where the check stops a call, one of the values at hand is not `ok`. -/
theorem Does.unchecked {act checked other : Action Value} {f : Value} {args : List Value}
    (h : Does o ok (AtHand o (f :: args)) act checked (Made o)) (hnot : args.all ok = false) :
    Does o ok (AtHand o (f :: args)) act other (Made o) := by
  intro s hsize hs
  obtain ⟨hsteps, hq, _⟩ := h s hsize hs
  obtain ⟨a, ha, hok⟩ := List.all_eq_false.mp hnot
  have hunfit : Unfit o ok s := ⟨a, hs a (List.mem_cons_of_mem _ ha), Bool.eq_false_iff.mpr hok⟩
  exact ⟨hsteps, hq, .inr (hunfit.mono hsteps)⟩

end

/-- Calls take possible steps up to any limit, and so do checked calls. -/
theorem callDoes_applyChecked (o : Origin) (ok : Value → Bool) (limit : Nat) :
    CallDoes o ok (applyWithin limit) (applyChecked ok limit) := by
  refine applyChecked_induct
    (R := fun f args act checked => Does o ok (AtHand o (f :: args)) act checked (Made o))
    (fun f args failure => ?_) (fun b args => ?_) (fun f args => ?_)
    (fun call call' hcall ps body scope args => ?_) (fun f args act checked hnot h => ?_) limit
  · exact does_pure fun s _ => made_of_isError s _ rfl
  · exact (does_runBuiltin b args).weaken (fun _ hs a ha => hs a (List.mem_cons_of_mem _ ha))
      fun _ _ hs => hs
  · exact does_throw _
  · exact does_inBody hcall
  · exact h.unchecked hnot

/-- Every run of a tree is made of possible steps, and checking the arguments of calls changes
nothing unless some value that was at hand is not `ok`. -/
theorem steps_evaluateWithin (ok : Value → Bool) (limit : Nat) (n : Node) (scope : ScopeId)
    {k : Nat} {s : State} (hk : k ≤ s.store.scopes.size) :
    Steps (.evaluating n scope k) s ((evaluateWithin limit n scope).run s).2 ∧
      ((eval (applyChecked ok limit) n scope).run s = (evaluateWithin limit n scope).run s ∨
        Unfit (.evaluating n scope k) ok ((evaluateWithin limit n scope).run s).2) := by
  have hcall := callDoes_applyChecked (.evaluating n scope k) ok limit
  obtain ⟨hsteps, _, hsame⟩ := evalDoes hcall n scope s hk (.tree ⟨rfl, rfl⟩)
  exact ⟨hsteps, hsame⟩

theorem steps_applyWithin (limit : Nat) (f : Value) (args : List Value) {k : Nat} {s : State}
    (hk : k ≤ s.store.scopes.size) :
    Steps (.calling f args k) s ((applyWithin limit f args).run s).2 := by
  have hcall := callDoes_applyChecked (.calling f args k) (fun _ => true) limit
  exact (hcall f args s hk fun v hv => .inl hv).1

end TreeWalk
