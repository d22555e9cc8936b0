import TreeWalk.Proofs.Eval.Custody
import TreeWalk.Proofs.Eval.FailStop

/-! A return statement gives its value to the call or the program it stands in, as long as only
blocks, conditions and expression statements stand between them. In disciplined statements nothing
else does. -/
namespace TreeWalk

namespace Node

mutual

/-- A node all of whose functions are disciplined, and in which a return statement, if there may be
one at all, stands in a block or in the blocks of a condition that is a statement of its own. -/
def disciplined (mayReturn : Bool) : Node → Bool
  | missing | bare .. | ident .. | intLit .. | boolLit .. | strLit .. => true
  | returnStmt _ e => mayReturn && e.disciplined false
  | exprStmt _ e => e.disciplined mayReturn
  | block _ ss => allDisciplined mayReturn ss
  | ifExpr _ c a b => c.disciplined false && a.disciplined mayReturn && b.disciplined mayReturn
  | program ss => allDisciplined true ss
  | fnLit _ _ body => body.disciplined true
  | letStmt _ _ e | unary _ _ e => e.disciplined false
  | binary _ _ a b | index _ a b => a.disciplined false && b.disciplined false
  | call _ f args => f.disciplined false && allDisciplined false args
  | arrayLit _ es => allDisciplined false es
  | hashLit _ ps => pairsDisciplined ps

def allDisciplined (mayReturn : Bool) : List Node → Bool
  | [] => true
  | n :: ns => n.disciplined mayReturn && allDisciplined mayReturn ns

def pairsDisciplined : List (Node × Node) → Bool
  | [] => true
  | (k, v) :: ps => k.disciplined false && v.disciplined false && pairsDisciplined ps

end

def Disciplined : Node → Prop
  | program ss => allDisciplined true ss
  | _ => False

theorem disciplined_of_mem {m : Bool} {ns : List Node} (h : allDisciplined m ns) :
    ∀ n ∈ ns, n.disciplined m := by
  induction ns with
  | nil => exact List.forall_mem_nil _
  | cons n ns ih =>
    obtain ⟨hn, hns⟩ := Bool.and_eq_true_iff.mp h
    exact List.forall_mem_cons.mpr ⟨hn, ih hns⟩

theorem disciplined_of_mem_pairs {ps : List (Node × Node)} (h : pairsDisciplined ps) :
    (∀ p ∈ ps, p.1.disciplined false) ∧ ∀ p ∈ ps, p.2.disciplined false := by
  induction ps with
  | nil => exact ⟨List.forall_mem_nil _, List.forall_mem_nil _⟩
  | cons p ps ih =>
    obtain ⟨hp, hps⟩ := Bool.and_eq_true_iff.mp h
    obtain ⟨hkey, hvalue⟩ := Bool.and_eq_true_iff.mp hp
    exact ⟨List.forall_mem_cons.mpr ⟨hkey, (ih hps).1⟩,
      List.forall_mem_cons.mpr ⟨hvalue, (ih hps).2⟩⟩

/-- The nodes that stand between a return statement and what takes its value. -/
def handsOn : Node → Bool
  | exprStmt .. | block .. | ifExpr .. => true
  | _ => false

def isReturn : Node → Bool
  | returnStmt .. => true
  | _ => false

end Node

namespace Value

def Tame : Value → Prop
  | .returned _ => False
  | .function _ body _ => body.disciplined true
  | _ => True

theorem Derived.tame {args : List Value} {v : Value} (h : Derived args v)
    (hargs : ∀ a ∈ args, a.Everywhere Tame) : v.Everywhere Tame := by
  rcases h.everywhere (fun w hw => by cases hw <;> trivial) hargs with herror | hv
  · obtain ⟨message, rfl⟩ := eq_error_of_isError herror
    exact List.forall_mem_singleton.mpr trivial
  · exact hv

end Value

open Value (Tame)

/-- A journal in which wrapped values are only handed on, with the nodes that are under way and, if
a return is under way too, what it gave and the node that was completed with it last. -/
inductive Orderly : List Event → List Node → Option (Value × Node) → Prop
  | start : Orderly [] [] none
  | entered {js : List Event} {σ : List Node} (h : Orderly js σ none) (n : Node) (i : ScopeId) :
      Orderly (.entered n i :: js) (n :: σ) none
  | bound {js : List Event} {σ : List Node} (h : Orderly js σ none) (i : ScopeId) (name : String)
      {v : Value} (hv : v.Everywhere Tame) : Orderly (.bound i name v :: js) σ none
  | printed {js : List Event} {σ : List Node} (h : Orderly js σ none) (line : String) :
      Orderly (.printed line :: js) σ none
  | completed {js : List Event} {n : Node} {σ : List Node} (h : Orderly js (n :: σ) none)
      {v : Value} (hv : v.Everywhere Tame) (hn : n.isReturn = false ∨ v.isError) :
      Orderly (.completed n v :: js) σ none
  | given {js : List Event} {t : Token} {e : Node} {σ : List Node}
      (h : Orderly js (.returnStmt t e :: σ) none) {v : Value} (hv : v.Everywhere Tame) :
      Orderly (.completed (.returnStmt t e) (.returned v) :: js) σ (some (v, .returnStmt t e))
  | handedOn {js : List Event} {n last : Node} {σ : List Node} {v : Value}
      (h : Orderly js (n :: σ) (some (v, last))) (hn : n.handsOn) :
      Orderly (.completed n (.returned v) :: js) σ (some (v, n))
  | ended {js : List Event} {ss : List Node} {last : Node} {σ : List Node} {v : Value}
      (h : Orderly js (.program ss :: σ) (some (v, last))) :
      Orderly (.completed (.program ss) v :: js) σ none
  | taken {js : List Event} {t : Token} {f : Node} {args ps : List Node} {last : Node} {i : ScopeId}
      {σ : List Node} {v : Value} (h : Orderly js (.call t f args :: σ) (some (v, last)))
      (callee : .completed f (.function ps last i) ∈ js) :
      Orderly (.completed (.call t f args) v :: js) σ none

def Event.Tame : Event → Prop
  | .bound _ _ v => v.Everywhere Value.Tame
  | .completed _ v => v.unwrapped.Everywhere Value.Tame
  | .entered .. | .printed _ => True

/-- What a return gives goes to the program, or to a call of the function whose body was the last to
hand it on. -/
inductive Receives (earlier : List Event) (last : Node) : Node → Prop
  | program (ss : List Node) : Receives earlier last (.program ss)
  | call {t : Token} {f : Node} {args ps : List Node} {i : ScopeId}
      (callee : .completed f (.function ps last i) ∈ earlier) :
      Receives earlier last (.call t f args)

def HandedOver (before : List Event) (statement : Node) (v : Value) (after : List Event) : Prop :=
  ∃ (inner : List Node) (owner : Node) (outer : List Node) (rest : List Event),
    pending before = statement :: (inner ++ owner :: outer) ∧ (∀ n ∈ inner, n.handsOn) ∧
      Receives before (inner.getLastD statement) owner ∧
      after = inner.map (.completed · (.returned v)) ++ .completed owner v :: rest

/-- What has happened since a return statement gave its value, the latest first, where the nodes
`around` it were under way. -/
inductive Unwinding (earlier : List Event) (statement : Node) (v : Value) (around : List Node) :
    List Event → List Node → Option (Value × Node) → Prop
  | underWay (inner : List Node) {σ : List Node} (hinner : ∀ n ∈ inner, n.handsOn)
      (haround : around = inner ++ σ) :
      Unwinding earlier statement v around (inner.map (.completed · (.returned v))).reverse σ
        (some (v, inner.getLastD statement))
  | received {inner outer σ : List Node} {owner : Node} (rest : List Event)
      {under : Option (Value × Node)} (hinner : ∀ n ∈ inner, n.handsOn)
      (haround : around = inner ++ owner :: outer)
      (howner : Receives earlier (inner.getLastD statement) owner) :
      Unwinding earlier statement v around
        (rest ++ .completed owner v :: (inner.map (.completed · (.returned v))).reverse) σ under

namespace Unwinding

variable {earlier later : List Event} {statement n last : Node} {v w : Value} {around σ : List Node}

/-- Once the value was received, anything may follow. -/
theorem cons (h : Unwinding earlier statement v around later σ none) (e : Event) (σ' : List Node)
    (under : Option (Value × Node)) :
    Unwinding earlier statement v around (e :: later) σ' under := by
  cases h with
  | received rest hinner haround howner => exact .received (e :: rest) hinner haround howner

theorem handOn (h : Unwinding earlier statement v around later (n :: σ) (some (w, last)))
    (hn : n.handsOn) :
    Unwinding earlier statement v around (.completed n (.returned w) :: later) σ (some (w, n)) := by
  cases h with
  | received rest hinner haround howner => exact .received (_ :: rest) hinner haround howner
  | underWay inner hinner haround =>
    have hinner' := List.forall_mem_append.mpr ⟨hinner, List.forall_mem_singleton.mpr hn⟩
    have hunder : Unwinding earlier statement v around _ σ _ :=
      .underWay (inner ++ [n]) hinner' (by simpa using haround)
    simpa using hunder

theorem receive (h : Unwinding earlier statement v around later (n :: σ) (some (w, last)))
    (hn : (∀ e ∈ later, ∃ m, e = .completed m (.returned v)) → Receives earlier last n) :
    Unwinding earlier statement v around (.completed n w :: later) σ none := by
  cases h with
  | received rest hinner haround howner => exact .received (_ :: rest) hinner haround howner
  | underWay inner hinner haround =>
    refine .received [] hinner haround (hn fun e he => ?_)
    obtain ⟨m, _, rfl⟩ := List.mem_map.mp (List.mem_reverse.mp he)
    exact ⟨m, rfl⟩

end Unwinding

namespace Orderly

variable {js : List Event} {σ : List Node} {under : Option (Value × Node)}

theorem tame (h : Orderly js σ under) :
    (∀ e ∈ js, e.Tame) ∧ ∀ v last, under = some (v, last) → v.Everywhere Tame := by
  induction h with
  | start => exact ⟨List.forall_mem_nil _, nofun⟩
  | entered _ _ _ ih | printed _ _ ih =>
    exact ⟨List.forall_mem_cons.mpr ⟨trivial, ih.1⟩, nofun⟩
  | bound _ _ _ hv ih => exact ⟨List.forall_mem_cons.mpr ⟨hv, ih.1⟩, nofun⟩
  | completed _ hv _ ih => exact ⟨List.forall_mem_cons.mpr ⟨hv.unwrapped, ih.1⟩, nofun⟩
  | given _ hv ih =>
    refine ⟨List.forall_mem_cons.mpr ⟨hv, ih.1⟩, ?_⟩
    rintro _ _ ⟨⟩
    exact hv
  | handedOn _ _ ih =>
    have hv := ih.2 _ _ rfl
    refine ⟨List.forall_mem_cons.mpr ⟨hv, ih.1⟩, ?_⟩
    rintro _ _ ⟨⟩
    exact hv
  | ended _ ih | taken _ _ ih =>
    exact ⟨List.forall_mem_cons.mpr ⟨(ih.2 _ _ rfl).unwrapped, ih.1⟩, nofun⟩

theorem pending_reverse (h : Orderly js σ under) : pending js.reverse = σ := by
  unfold pending
  induction h with
  | start => rfl
  | entered _ _ _ ih | bound _ _ _ _ ih | printed _ _ ih | completed _ _ _ ih | given _ _ ih
  | handedOn _ _ ih | ended _ ih | taken _ _ ih =>
    rw [List.reverse_cons, pendingFrom_append, ih]
    rfl

/-- By induction on what came after the return: it is under way from one event to the next until it
is received. -/
theorem unwinding {later earlier : List Event} {t : Token} {e : Node} {w : Value}
    (hw : w.isError = false)
    (h : Orderly (later ++ .completed (.returnStmt t e) w :: earlier) σ under) :
    ∃ v around, w = .returned v ∧ Orderly earlier (.returnStmt t e :: around) none ∧
      Unwinding earlier (.returnStmt t e) v around later σ under := by
  induction later generalizing σ under with
  | nil =>
    cases h with
    | completed _ _ hn =>
      rcases hn with hn | herror
      · cases hn
      · rw [herror] at hw
        cases hw
    | given h => exact ⟨_, σ, rfl, h, .underWay [] (List.forall_mem_nil _) rfl⟩
    | handedOn _ hn => cases hn
  | cons event later ih =>
    cases h with
    | entered h | bound h | printed h | completed h | given h =>
      obtain ⟨v, around, rfl, hearlier, hunwinding⟩ := ih h
      exact ⟨v, around, rfl, hearlier, hunwinding.cons _ _ _⟩
    | handedOn h hn =>
      obtain ⟨v, around, rfl, hearlier, hunwinding⟩ := ih h
      exact ⟨v, around, rfl, hearlier, hunwinding.handOn hn⟩
    | ended h =>
      obtain ⟨v, around, rfl, hearlier, hunwinding⟩ := ih h
      exact ⟨v, around, rfl, hearlier, hunwinding.receive fun _ => .program _⟩
    | taken h callee =>
      obtain ⟨v, around, rfl, hearlier, hunwinding⟩ := ih h
      refine ⟨v, around, rfl, hearlier, hunwinding.receive fun hlater => ?_⟩
      -- The callee came to a function, so this was before wrapped values were handed on.
      rcases List.mem_append.mp callee with hmem | hmem
      · obtain ⟨m, hm⟩ := hlater _ hmem
        cases hm
      · exact .call ((List.mem_cons.mp hmem).resolve_left nofun)

theorem after_return {before after : List Event} {t : Token} {e : Node} {w : Value}
    (h : Orderly js σ none) (hjs : js.reverse = before ++ .completed (.returnStmt t e) w :: after)
    (hw : w.isError = false) :
    ∃ v, w = .returned v ∧ HandedOver before (.returnStmt t e) v after := by
  have hsplit : js = after.reverse ++ .completed (.returnStmt t e) w :: before.reverse := by
    simpa using congrArg List.reverse hjs
  rw [hsplit] at h
  obtain ⟨v, around, rfl, hearlier, hunwinding⟩ := h.unwinding hw
  have hpending := hearlier.pending_reverse
  rw [List.reverse_reverse] at hpending
  generalize hlater : after.reverse = later at hunwinding
  cases hunwinding with
  | @received inner outer _ owner rest _ hinner haround howner =>
    refine ⟨v, rfl, inner, owner, outer, rest.reverse, haround ▸ hpending, hinner, ?_, ?_⟩
    · cases howner with
      | program => exact .program _
      | call callee => exact .call (List.mem_reverse.mp callee)
    · simpa using congrArg List.reverse hlater

end Orderly

/-- A state that evaluation has come to: what is kept is tame and the journal orderly, and the
events `seen` are in it. -/
structure OrderlyState (seen : List Event) (σ : List Node) (under : Option (Value × Node))
    (s : State) : Prop where
  store : s.store.Holds Tame
  journal : Orderly s.journal σ under
  seen : ∀ e ∈ seen, e ∈ s.journal

section

variable {seen : List Event} {σ : List Node} {under : Option (Value × Node)} {s : State}
  {n : Node} {v : Value}

theorem OrderlyState.subset (h : OrderlyState seen σ under s) {seen' : List Event}
    (hseen : seen' ⊆ seen) : OrderlyState seen' σ under s :=
  ⟨h.store, h.journal, fun e he => h.seen e (hseen he)⟩

/-- The next event is seen, and so are those before it. -/
theorem OrderlyState.record (h : OrderlyState seen σ under s) {e : Event} {σ' : List Node}
    {under' : Option (Value × Node)} (he : Orderly (e :: s.journal) σ' under') :
    OrderlyState (e :: seen) σ' under' { s with journal := e :: s.journal } where
  store := h.store
  journal := he
  seen := List.forall_mem_cons.mpr
    ⟨List.mem_cons_self, fun e' he' => List.mem_cons_of_mem _ (h.seen e' he')⟩

theorem OrderlyState.bind (h : OrderlyState seen σ none s) (i : ScopeId) (name : String)
    (hv : v.Everywhere Tame) :
    OrderlyState seen σ none ⟨s.store.bind i name v, .bound i name v :: s.journal⟩ where
  store := h.store.bind i name hv
  journal := h.journal.bound i name hv
  seen := fun e he => List.mem_cons_of_mem _ (h.seen e he)

theorem OrderlyState.enclose (h : OrderlyState seen σ none s) (i : ScopeId) :
    OrderlyState seen σ none { s with store := (s.store.enclose i).2 } :=
  ⟨h.store.enclose i, h.journal, h.seen⟩

end

/-- What an action comes to: tame data, or the value of a return under way, handed on as `wrap` says
by a node that is a `source`. -/
inductive TameOrReturned (seen : List Event) (σ : List Node) (wrap : Value → Value)
    (source : Node → State → Prop) : Value → State → Prop
  | value {v : Value} {s : State} (hv : v.Everywhere Tame) (h : OrderlyState seen σ none s) :
      TameOrReturned seen σ wrap source v s
  | returned {v : Value} {last : Node} {s : State} (hlast : source last s) (hv : v.Everywhere Tame)
      (h : OrderlyState seen σ (some (v, last)) s) : TameOrReturned seen σ wrap source (wrap v) s

section

variable {α β : Type}

/-- From a state as described the action leads to another one, unless it stops with no return under
way. The second action does the same. -/
def Contained (P : State → Prop) (act checked : Action α) (Q : α → State → Prop) : Prop :=
  ∀ s : State, P s → checked.run s = act.run s ∧
    match (act.run s).1 with
    | .ok a => Q a (act.run s).2
    | .error _ => ∃ seen σ, OrderlyState seen σ none (act.run s).2

variable {P P' : State → Prop} {seen : List Event} {σ : List Node}

theorem contained_pure {a : α} {Q : α → State → Prop} (h : ∀ s, P s → Q a s) :
    Contained P (pure a) (pure a) Q := fun s hs => ⟨rfl, h s hs⟩

theorem contained_throw {Q : α → State → Prop} (halt : Halt) :
    Contained (OrderlyState seen σ none) (throw halt) (throw halt) Q := fun _ hs => ⟨rfl, _, _, hs⟩

theorem Contained.weaken {act checked : Action α} {Q Q' : α → State → Prop}
    (h : Contained P act checked Q) (hP : ∀ s, P' s → P s) (hQ : ∀ a s, Q a s → Q' a s) :
    Contained P' act checked Q' := by
  intro s hs
  obtain ⟨hsame, hrun⟩ := h s (hP s hs)
  refine ⟨hsame, ?_⟩
  rcases hact : act.run s with ⟨_ | a, s'⟩
  · rw [hact] at hrun
    exact hrun
  · rw [hact] at hrun
    exact hQ a s' hrun

theorem Contained.bind {act checked : Action α} {k k' : α → Action β} {Q : α → State → Prop}
    {R : β → State → Prop} (h : Contained P act checked Q)
    (hk : ∀ a, Contained (Q a) (k a) (k' a) R) : Contained P (act >>= k) (checked >>= k') R := by
  intro s hs
  obtain ⟨hsame, hrun⟩ := h s hs
  rw [Action.run_bind, Action.run_bind, hsame]
  rcases hact : act.run s with ⟨_ | a, s'⟩
  · rw [hact] at hrun
    exact ⟨rfl, hrun⟩
  · rw [hact] at hrun
    exact hk a s' hrun

/-- What follows goes on with tame data, or with a return under way. -/
theorem contained_of_tameOrReturned {wrap : Value → Value} {source : Node → State → Prop}
    {v : Value} {act checked : Action β} {R : β → State → Prop}
    (hvalue : v.Everywhere Tame → Contained (OrderlyState seen σ none) act checked R)
    (hreturned : ∀ w last, v = wrap w → w.Everywhere Tame →
      Contained (fun s => source last s ∧ OrderlyState seen σ (some (w, last)) s) act checked R) :
    Contained (TameOrReturned seen σ wrap source v) act checked R := by
  intro s hs
  cases hs with
  | value hv h => exact hvalue hv s h
  | returned hlast hv h => exact hreturned _ _ rfl hv s ⟨hlast, h⟩

end

section

variable {call call' : Value → List Value → Action Value} {scope : ScopeId} {n : Node} {m : Bool}
  {seen : List Event} {σ : List Node} {wrap : Value → Value} {source : Node → State → Prop}

variable (call call') in
def EvalContained (mayReturn : Bool) (n : Node) (scope : ScopeId) : Prop :=
  ∀ seen σ, Contained (OrderlyState seen σ none) (eval call n scope) (eval call' n scope) fun v =>
    TameOrReturned (.completed n v :: seen) σ .returned (fun last _ => mayReturn ∧ last = n) v

variable (call call') in
def CallContained : Prop :=
  ∀ f args, f.Everywhere Tame → (∀ a ∈ args, a.Everywhere Tame) → ∀ seen σ,
    Contained (OrderlyState seen σ none) (call f args) (call' f args)
      (TameOrReturned seen σ id fun last _ => ∃ ps i, f = .function ps last i)

theorem contained_derived {args : List Value} {v : Value} (h : Value.Derived args v)
    (hargs : ∀ a ∈ args, a.Everywhere Tame) :
    Contained (OrderlyState seen σ none) (pure v) (pure v) (TameOrReturned seen σ wrap source) :=
  contained_pure fun _ hs => .value (h.tame hargs) hs

theorem evalContained_of_completed {act : (Value → List Value → Action Value) → Action Value}
    {R : List Event → List Node → Value → State → Prop}
    (hrule : ∀ call, eval call n scope = (act call).observed n scope)
    (h : ∀ seen σ, Contained (OrderlyState seen (n :: σ) none) (act call) (act call') (R seen σ))
    (hcompleted : ∀ seen σ v s, R seen σ v s →
      TameOrReturned (.completed n v :: seen) σ .returned (fun last _ => m ∧ last = n) v
        { s with journal := .completed n v :: s.journal }) :
    EvalContained call call' m n scope := by
  intro seen σ
  have hentered : Contained (OrderlyState seen σ none) (Action.record (.entered n scope))
      (Action.record (.entered n scope)) fun _ => OrderlyState seen (n :: σ) none :=
    fun s hs => ⟨rfl, (hs.record (hs.journal.entered n scope)).subset (List.subset_cons_self _ _)⟩
  have hrecorded (v : Value) : Contained (R seen σ v) (Action.record (.completed n v))
      (Action.record (.completed n v)) fun _ =>
        TameOrReturned (.completed n v :: seen) σ .returned (fun last _ => m ∧ last = n) v :=
    fun s hs => ⟨rfl, hcompleted seen σ v s hs⟩
  rw [hrule, hrule]
  refine hentered.bind fun _ => (h seen σ).bind fun v => (hrecorded v).bind fun _ => ?_
  exact contained_pure fun _ hs => hs

theorem evalContained_of_rule {act : (Value → List Value → Action Value) → Action Value}
    (hrule : ∀ call, eval call n scope = (act call).observed n scope) (hn : n.isReturn = false)
    (h : ∀ seen σ, Contained (OrderlyState seen (n :: σ) none) (act call) (act call')
      (TameOrReturned seen (n :: σ) .returned fun _ _ => n.handsOn ∧ m)) :
    EvalContained call call' m n scope := by
  refine evalContained_of_completed hrule h fun seen σ v s hs => ?_
  cases hs with
  | value hv hat =>
    exact .value hv (hat.record (hat.journal.completed hv (.inl hn)))
  | returned hlast hv hat =>
    exact .returned ⟨hlast.2, rfl⟩ hv (hat.record (hat.journal.handedOn hlast.1))

theorem EvalContained.seen_unlessError (h : EvalContained call call' false n scope)
    {k k' : Value → Action Value} {R : Value → State → Prop}
    (hR : ∀ v s, v.isError → v.Everywhere Tame → OrderlyState seen σ none s → R v s)
    (hk : ∀ v, v.Everywhere Tame →
      Contained (OrderlyState (.completed n v :: seen) σ none) (k v) (k' v) R) :
    Contained (OrderlyState seen σ none) ((eval call n scope).unlessError k)
      ((eval call' n scope).unlessError k') R := by
  refine (h seen σ).bind fun v => contained_of_tameOrReturned (fun hv => ?_) fun _ _ _ _ _ hs => ?_
  · cases herror : v.isError with
    | true =>
      simp only [if_true]
      exact contained_pure fun s hs => hR v s herror hv (hs.subset (List.subset_cons_self _ _))
    | false =>
      simp only [Bool.false_eq_true, if_false]
      exact hk v hv
  · exact absurd hs.1.1 Bool.false_ne_true

theorem EvalContained.unlessError (h : EvalContained call call' false n scope)
    {k k' : Value → Action Value}
    (hk : ∀ v, v.Everywhere Tame →
      Contained (OrderlyState seen σ none) (k v) (k' v) (TameOrReturned seen σ wrap source)) :
    Contained (OrderlyState seen σ none) ((eval call n scope).unlessError k)
      ((eval call' n scope).unlessError k') (TameOrReturned seen σ wrap source) := by
  refine h.seen_unlessError (fun v s _ hv hs => .value hv hs) fun v hv => ?_
  exact (hk v hv).weaken (fun s hs => hs.subset (List.subset_cons_self _ _)) fun _ _ hs => hs

theorem EvalContained.inPlace (h : EvalContained call call' m n scope)
    (hsource : ∀ s, m → source n s) :
    Contained (OrderlyState seen σ none) (eval call n scope) (eval call' n scope)
      (TameOrReturned seen σ .returned source) := by
  refine (h seen σ).weaken (fun _ hs => hs) fun v s hs => ?_
  cases hs with
  | value hv hat => exact .value hv (hat.subset (List.subset_cons_self _ _))
  | returned hlast hv hat =>
    obtain ⟨hm, rfl⟩ := hlast
    exact .returned (hsource s hm) hv (hat.subset (List.subset_cons_self _ _))

theorem contained_lookup (name : String) :
    Contained (OrderlyState seen σ none) (lookup scope name) (lookup scope name)
      (TameOrReturned seen σ wrap source) := by
  intro s hs
  rw [run_lookup]
  refine ⟨rfl, .value ?_ hs⟩
  split
  · next hget => exact hs.store.get? hget
  · exact (Value.derived_builtin _).tame (List.forall_mem_nil _)
  · exact (Value.derived_failure _).tame (List.forall_mem_nil _)

theorem contained_bindTo {target : Node} {v : Value} (hv : v.Everywhere Tame) :
    Contained (OrderlyState seen σ none) (bindTo scope target v) (bindTo scope target v)
      fun _ => OrderlyState seen σ none := by
  unfold bindTo
  split
  · exact fun s hs => ⟨rfl, hs.bind scope _ hv⟩
  · split
    · exact contained_pure fun _ hs => hs
    · exact contained_throw _

theorem contained_bindAll {ps : List (Node × Value)} (hps : ∀ p ∈ ps, p.2.Everywhere Tame) :
    Contained (OrderlyState seen σ none) (bindAll scope ps) (bindAll scope ps)
      fun _ => OrderlyState seen σ none := by
  induction ps with
  | nil => exact contained_pure fun _ hs => hs
  | cons p ps ih =>
    obtain ⟨hp, hps⟩ := List.forall_mem_cons.mp hps
    exact (contained_bindTo hp).bind fun _ => ih hps

theorem contained_runBuiltin (b : Builtin) {args : List Value}
    (hargs : ∀ a ∈ args, a.Everywhere Tame) :
    Contained (OrderlyState seen σ none) (runBuiltin b args) (runBuiltin b args)
      (TameOrReturned seen σ wrap source) := by
  have hlines (lines : List String) :
      Contained (OrderlyState seen σ none) (lines.forM fun line => Action.record (.printed line))
        (lines.forM fun line => Action.record (.printed line))
        fun _ => OrderlyState seen σ none := by
    induction lines with
    | nil => exact contained_pure fun _ hs => hs
    | cons line lines ih =>
      refine Contained.bind (fun s hs => ⟨rfl, ?_⟩) fun _ => ih
      exact (hs.record (hs.journal.printed line)).subset (List.subset_cons_self _ _)
  exact (hlines _).bind fun _ => contained_derived (b.derived_answer args) hargs

theorem contained_evalStatements {ss : List Node}
    (h : ∀ s ∈ ss, EvalContained call call' m s scope) (hsource : ∀ s ∈ ss, ∀ st, m → source s st)
    {last : Value} (hlast : last.Everywhere Tame) :
    Contained (OrderlyState seen σ none) (evalStatements call ss last scope)
      (evalStatements call' ss last scope) (TameOrReturned seen σ .returned source) := by
  induction ss generalizing last with
  | nil =>
    rw [evalStatements, evalStatements]
    exact contained_pure fun s hs => .value hlast hs
  | cons s ss ih =>
    obtain ⟨heval, h⟩ := List.forall_mem_cons.mp h
    obtain ⟨hs, hsource⟩ := List.forall_mem_cons.mp hsource
    rw [evalStatements_cons, evalStatements_cons]
    refine (heval.inPlace hs).bind fun v => ?_
    refine contained_of_tameOrReturned (fun hv => ?_) fun w last' hw hw' => ?_
    · have ihv := ih h hsource hv
      cases v with
      | error message => exact contained_pure fun _ hs => .value hv hs
      | returned w => exact (hv.self).elim
      | _ => exact ihv
    · subst hw
      exact contained_pure fun s hs => .returned hs.1 hw' hs.2

theorem contained_evalAll {es : List Node} (h : ∀ e ∈ es, EvalContained call call' false e scope)
    {k k' : List Value → Action Value}
    (hk : ∀ vs, (∀ v ∈ vs, v.Everywhere Tame) →
      Contained (OrderlyState seen σ none) (k vs) (k' vs) (TameOrReturned seen σ wrap source)) :
    Contained (OrderlyState seen σ none) (evalAll call scope es k) (evalAll call' scope es k')
      (TameOrReturned seen σ wrap source) := by
  induction es generalizing k k' with
  | nil =>
    rw [evalAll_nil, evalAll_nil]
    exact hk [] (List.forall_mem_nil _)
  | cons e es ih =>
    obtain ⟨he, hes⟩ := List.forall_mem_cons.mp h
    rw [evalAll_cons, evalAll_cons]
    refine he.unlessError fun v hv => ih hes fun vs hvs => ?_
    exact hk (v :: vs) (List.forall_mem_cons.mpr ⟨hv, hvs⟩)

theorem contained_evalPairs {ps : List (Node × Node)}
    (hkeys : ∀ p ∈ ps, EvalContained call call' false p.1 scope)
    (hvalues : ∀ p ∈ ps, EvalContained call call' false p.2 scope)
    {entries : Ordered HashKey (Value × Value)}
    (hentries : ∀ e ∈ entries, e.2.1.Everywhere Tame ∧ e.2.2.Everywhere Tame) :
    Contained (OrderlyState seen σ none) (evalPairs call ps entries scope)
      (evalPairs call' ps entries scope) (TameOrReturned seen σ wrap source) := by
  induction ps generalizing entries with
  | nil =>
    rw [evalPairs, evalPairs]
    refine contained_pure fun s hs => .value (fun w hw => ?_) hs
    rcases Value.mem_parts_hash.mp hw with rfl | ⟨e, he, hw | hw⟩
    · trivial
    · exact (hentries e he).1 w hw
    · exact (hentries e he).2 w hw
  | cons p ps ih =>
    obtain ⟨hkey, hkeys⟩ := List.forall_mem_cons.mp hkeys
    obtain ⟨hvalue, hvalues⟩ := List.forall_mem_cons.mp hvalues
    rw [evalPairs_cons, evalPairs_cons]
    refine hkey.unlessError fun key hk => ?_
    cases key.hashKey? with
    | none => exact contained_derived (Value.derived_failure _) (List.forall_mem_nil _)
    | some hashKey =>
      refine hvalue.unlessError fun v hv => ih hkeys hvalues fun e he => ?_
      rcases Ordered.mem_put he with rfl | he
      · exact ⟨hk, hv⟩
      · exact hentries e he

/-- What a call or a program takes out of its wrapping is the value of the return. -/
theorem Contained.unwrapped {P : State → Prop} {act checked : Action Value}
    {source' : Node → State → Prop}
    (h : Contained P act checked (TameOrReturned seen σ .returned source))
    (hsource : ∀ last s, source last s → source' last s) :
    Contained P (do return (← act).unwrapped) (do return (← checked).unwrapped)
      (TameOrReturned seen σ id source') := by
  refine h.bind fun v => contained_of_tameOrReturned (fun hv => ?_) fun w last hw hw' => ?_
  · exact contained_pure fun s hs => .value hv.unwrapped hs
  · subst hw
    exact contained_pure fun s hs => .returned (hsource last s hs.1) hw' hs.2

theorem evalContained_program {ss : List Node}
    (h : ∀ s ∈ ss, EvalContained call call' true s scope) :
    EvalContained call call' m (.program ss) scope := by
  refine evalContained_of_completed (R := fun seen σ => TameOrReturned seen (.program ss :: σ) id
    fun _ _ => True) (fun call => by rw [eval]) (fun seen σ => ?_) fun seen σ v s hs => ?_
  · have hstatements : Contained (OrderlyState seen (.program ss :: σ) none) _ _
        (TameOrReturned seen (.program ss :: σ) .returned fun _ _ => True) :=
      contained_evalStatements h (fun _ _ _ _ => trivial)
        (Value.derived_null.tame (List.forall_mem_nil _))
    exact hstatements.unwrapped fun _ _ _ => trivial
  · cases hs with
    | value hv hat => exact .value hv (hat.record (hat.journal.completed hv (.inl rfl)))
    | returned _ hv hat => exact .value hv (hat.record hat.journal.ended)

theorem evalContained_returnStmt {t : Token} {value : Node} (hm : m)
    (h : EvalContained call call' false value scope) :
    EvalContained call call' m (.returnStmt t value) scope := by
  refine evalContained_of_completed
    (R := fun seen σ w s => OrderlyState seen (.returnStmt t value :: σ) none s ∧
      (w.isError ∧ w.Everywhere Tame ∨ ∃ v, w = .returned v ∧ v.Everywhere Tame))
    (fun call => eval_returnStmt call scope t value) (fun seen σ => ?_) fun seen σ w s hs => ?_
  · refine h.seen_unlessError (fun v s herror hv hs => ⟨hs, .inl ⟨herror, hv⟩⟩) ?_
    exact fun v hv => contained_pure fun s hs =>
      ⟨hs.subset (List.subset_cons_self _ _), .inr ⟨v, rfl, hv⟩⟩
  · obtain ⟨hat, ⟨herror, hw⟩ | ⟨v, rfl, hv⟩⟩ := hs
    · exact .value hw (hat.record (hat.journal.completed hw (.inr herror)))
    · exact .returned ⟨hm, rfl⟩ hv (hat.record (hat.journal.given hv))

theorem evalContained (hcall : CallContained call call') (hn : n.disciplined m) :
    EvalContained call call' m n scope := by
  have hnil : ∀ a ∈ ([] : List Value), a.Everywhere Tame := List.forall_mem_nil _
  induction n generalizing m with
  | missing | bare =>
    exact evalContained_of_rule (fun call => by rw [eval]) rfl fun _ _ => contained_throw _
  | program ss ih =>
    exact evalContained_program fun s hs => ih s hs (Node.disciplined_of_mem hn s hs)
  | letStmt t name value _ ih =>
    refine evalContained_of_rule (fun call => eval_letStmt call scope t name value) rfl
      fun seen σ => ?_
    refine (ih hn).unlessError fun v hv => (contained_bindTo hv).bind fun _ => ?_
    exact contained_pure fun s hs => .value hv hs
  | returnStmt t value ih =>
    obtain ⟨hm, hvalue⟩ := Bool.and_eq_true_iff.mp hn
    exact evalContained_returnStmt hm (ih hvalue)
  | exprStmt t e ih =>
    refine evalContained_of_rule (fun call => by rw [eval]) rfl fun seen σ => ?_
    exact (ih hn).inPlace fun _ hm => ⟨rfl, hm⟩
  | block t ss ih =>
    have hss := Node.disciplined_of_mem hn
    refine evalContained_of_rule (fun call => by rw [eval]) rfl fun seen σ => ?_
    exact contained_evalStatements (fun s hs => ih s hs (hss s hs)) (fun _ _ _ hm => ⟨rfl, hm⟩)
      (Value.derived_null.tame hnil)
  | ident t name =>
    exact evalContained_of_rule (fun call => by rw [eval]) rfl fun _ _ => contained_lookup name
  | intLit | boolLit | strLit =>
    refine evalContained_of_rule (fun call => by rw [eval]) rfl fun _ _ => ?_
    exact contained_pure fun _ hs => .value (List.forall_mem_singleton.mpr trivial) hs
  | fnLit t ps body =>
    refine evalContained_of_rule (fun call => by rw [eval]) rfl fun _ _ => ?_
    exact contained_pure fun _ hs => .value (List.forall_mem_singleton.mpr hn) hs
  | unary t op right ih =>
    refine evalContained_of_rule (fun call => eval_unary call scope t op right) rfl fun _ _ => ?_
    refine (ih hn).unlessError fun v hv => ?_
    exact contained_derived (Value.derived_unary op v) (List.forall_mem_singleton.mpr hv)
  | binary t op left right ih ih' =>
    obtain ⟨hleft, hright⟩ := Bool.and_eq_true_iff.mp hn
    refine evalContained_of_rule (fun call => eval_binary call scope t op left right) rfl
      fun _ _ => ?_
    refine (ih hleft).unlessError fun l hl => (ih' hright).unlessError fun r hr => ?_
    exact contained_derived (Value.derived_binary op l r)
      (List.forall_mem_cons.mpr ⟨hl, List.forall_mem_singleton.mpr hr⟩)
  | ifExpr t c a b ih ih' ih'' =>
    obtain ⟨hca, hb⟩ := Bool.and_eq_true_iff.mp hn
    obtain ⟨hc, ha⟩ := Bool.and_eq_true_iff.mp hca
    refine evalContained_of_rule (fun call => eval_ifExpr call scope t c a b) rfl fun _ _ => ?_
    refine (ih hc).unlessError fun v _ => ?_
    split
    · exact (ih' ha).inPlace fun _ hm => ⟨rfl, hm⟩
    · split
      · exact contained_derived Value.derived_null hnil
      · exact (ih'' hb).inPlace fun _ hm => ⟨rfl, hm⟩
  | call t f args ih ih' =>
    obtain ⟨hf, hargs⟩ := Bool.and_eq_true_iff.mp hn
    have hargs := Node.disciplined_of_mem hargs
    refine evalContained_of_completed
      (R := fun seen σ => TameOrReturned seen (.call t f args :: σ) id
      fun last s => ∃ ps i, .completed f (.function ps last i) ∈ s.journal)
      (fun call => eval_call call scope t f args) (fun seen σ => ?_) fun seen σ v s hs => ?_
    · refine (ih hf).seen_unlessError (fun v s _ hv hs => .value hv hs) fun v hv => ?_
      have hall := contained_evalAll (fun a ha => ih' a ha (hargs a ha)) fun us hus =>
        hcall v us hv hus (.completed f v :: seen) (.call t f args :: σ)
      refine hall.weaken (fun _ hs => hs) fun w s hs => ?_
      cases hs with
      | value hw hat => exact .value hw (hat.subset (List.subset_cons_self _ _))
      | returned hlast hw hat =>
        obtain ⟨ps, i, rfl⟩ := hlast
        exact .returned ⟨ps, i, hat.seen _ List.mem_cons_self⟩ hw
          (hat.subset (List.subset_cons_self _ _))
    · cases hs with
      | value hv hat => exact .value hv (hat.record (hat.journal.completed hv (.inl rfl)))
      | returned hlast hv hat =>
        obtain ⟨ps, i, hcallee⟩ := hlast
        exact .value hv (hat.record (hat.journal.taken hcallee))
  | arrayLit t es ih =>
    have hes := Node.disciplined_of_mem hn
    refine evalContained_of_rule (fun call => eval_arrayLit call scope t es) rfl fun _ _ => ?_
    refine contained_evalAll (fun e he => ih e he (hes e he)) fun vs hvs => ?_
    exact contained_derived (Value.derived_array fun v hv => ⟨v, hv, fun _ hw => hw⟩) hvs
  | index t left position ih ih' =>
    obtain ⟨hleft, hposition⟩ := Bool.and_eq_true_iff.mp hn
    refine evalContained_of_rule (fun call => eval_index call scope t left position) rfl
      fun _ _ => ?_
    refine (ih hleft).unlessError fun l hl => (ih' hposition).unlessError fun p hp => ?_
    exact contained_derived (Value.derived_index l p)
      (List.forall_mem_cons.mpr ⟨hl, List.forall_mem_singleton.mpr hp⟩)
  | hashLit t ps ih ih' =>
    obtain ⟨hkeys, hvalues⟩ := Node.disciplined_of_mem_pairs hn
    refine evalContained_of_rule (fun call => by rw [eval]) rfl fun _ _ => ?_
    exact contained_evalPairs (fun p hp => ih p hp (hkeys p hp))
      (fun p hp => ih' p hp (hvalues p hp)) (List.forall_mem_nil _)

/-- The body of a function hands its return to the call. -/
theorem contained_inBody (hcall : CallContained call call') {ps : List Node} {body : Node}
    {args : List Value} (hbody : body.disciplined true) (hargs : ∀ a ∈ args, a.Everywhere Tame) :
    Contained (OrderlyState seen σ none) (inBody call ps body scope args)
      (inBody call' ps body scope args) (TameOrReturned seen σ id fun last _ =>
        ∃ ps' i, Value.function ps body scope = .function ps' last i) := by
  have henclose : Contained (OrderlyState seen σ none) (Action.enclose scope) (Action.enclose scope)
      fun _ => OrderlyState seen σ none := fun s hs => ⟨rfl, hs.enclose scope⟩
  refine henclose.bind fun inner => ?_
  refine (contained_bindAll fun p hp => hargs p.2 (List.of_mem_zip hp).2).bind fun _ => ?_
  have heval : Contained (OrderlyState seen σ none) (eval call body inner) (eval call' body inner)
      (TameOrReturned seen σ .returned fun last _ => last = body) :=
    (evalContained hcall hbody).inPlace fun _ _ => rfl
  refine heval.unwrapped ?_
  rintro last _ rfl
  exact ⟨ps, scope, rfl⟩

end

/-- Calls contain the returns of disciplined functions up to any limit, and looking at the arguments
first changes nothing as long as tame data is let through. -/
theorem callContained_applyChecked {ok : Value → Bool} (hok : ∀ v, v.Everywhere Tame → ok v)
    (limit : Nat) : CallContained (applyWithin limit) (applyChecked ok limit) := by
  refine applyChecked_induct
    (R := fun f args act checked => f.Everywhere Tame → (∀ a ∈ args, a.Everywhere Tame) →
      ∀ seen σ, Contained (OrderlyState seen σ none) act checked
        (TameOrReturned seen σ id fun last _ => ∃ ps i, f = .function ps last i))
    (fun f args failure _ hargs seen σ => ?_) (fun b args _ hargs seen σ => ?_)
    (fun f args _ _ seen σ => ?_) (fun call call' hcall ps body scope args hf hargs seen σ => ?_)
    (fun f args act checked hnot _ _ hargs => ?_) limit
  · exact contained_derived (Value.derived_failure failure) hargs
  · exact contained_runBuiltin b hargs
  · exact contained_throw _
  · exact contained_inBody hcall hf.self hargs
  · obtain ⟨a, ha, hunfit⟩ := List.all_eq_false.mp hnot
    exact absurd (hok a (hargs a ha)) hunfit

end TreeWalk
