import Mathlib
import TreeWalk.Proofs.Eval.Custody

namespace TreeWalk

namespace Value

def Intact : Value → Prop
  | function ps body _ => (∀ p ∈ ps, p.IsIdent) ∧ body.Whole
  | _ => True

theorem intact_of_isError {v : Value} (h : v.isError) : v.Everywhere Intact := by
  obtain ⟨message, rfl⟩ := eq_error_of_isError h
  exact List.forall_mem_singleton.mpr trivial

/-- Operators and built-ins make no functions. -/
theorem Derived.intact {args : List Value} {v : Value} (h : Derived args v)
    (hargs : ∀ a ∈ args, a.Everywhere Intact) : v.Everywhere Intact := by
  have hcomputed (w : Value) (hw : Computed args w) : w.Intact := by
    cases hw <;> trivial
  rcases h.everywhere hcomputed hargs with herror | hv
  · exact intact_of_isError herror
  · exact hv

theorem intact_array {vs : List Value} (h : ∀ v ∈ vs, v.Everywhere Intact) :
    (array vs).Everywhere Intact :=
  (derived_array fun v hv => ⟨v, hv, fun _ hw => hw⟩).intact h

theorem intact_put {entries : Ordered HashKey (Value × Value)}
    (h : (hash entries).Everywhere Intact) {key v : Value} (hkey : key.Everywhere Intact)
    (hv : v.Everywhere Intact) (k : HashKey) :
    (hash (entries.put k (key, v))).Everywhere Intact := by
  intro w hw
  rcases mem_parts_hash.mp hw with rfl | ⟨e, he, hw⟩
  · trivial
  · rcases Ordered.mem_put he with rfl | he
    · exact hw.elim (hkey w) (hv w)
    · exact h w (mem_parts_hash.mpr (.inr ⟨e, he, hw⟩))

end Value

open Value (Intact)

/-- What a run under a limit comes to, beside what the run from the same state under a greater limit
does: the latter ends well or is refused, and the former agrees with it as far as it goes. -/
structure Curtailed {α : Type} (Q : α → Prop) (s : State) (r r' : Except Halt α × State) :
    Prop where
  store : r'.2.store.Holds Intact
  grows : s.journal <:+ r'.2.journal
  value : ∀ a, r'.1 = .ok a → Q a
  halt : ∀ h, r'.1 = .error h → h = .refused
  agrees : r = r' ∨ r.1 = .error .refused ∧ r.2.journal <:+ r'.2.journal

namespace Action

variable {α β : Type}

/-- The first action does what the second does among intact functions, unless it is refused. -/
def Curtails (act act' : Action α) (Q : α → Prop) : Prop :=
  ∀ s : State, s.store.Holds Intact → Curtailed Q s (act.run s) (act'.run s)

theorem curtails_pure {Q : α → Prop} {a : α} (h : Q a) :
    (pure a : Action α).Curtails (pure a) Q := by
  intro s hs
  refine ⟨hs, List.suffix_refl _, ?_, nofun, .inl rfl⟩
  rintro b ⟨⟩
  exact h

theorem curtails_refused {Q : α → Prop} :
    (throw .refused : Action α).Curtails (throw .refused) Q := by
  intro s hs
  refine ⟨hs, List.suffix_refl _, nofun, ?_, .inl rfl⟩
  rintro h ⟨⟩
  rfl

theorem curtails_step {act : Action α} {Q : α → Prop}
    (h : ∀ s : State, s.store.Holds Intact → ∃ a s', act.run s = (.ok a, s') ∧
      s'.store.Holds Intact ∧ s.journal <:+ s'.journal ∧ Q a) : act.Curtails act Q := by
  intro s hs
  obtain ⟨a, s', hrun, hstore, hgrows, ha⟩ := h s hs
  rw [hrun]
  refine ⟨hstore, hgrows, ?_, nofun, .inl rfl⟩
  rintro b ⟨⟩
  exact ha

theorem run_bind_of_error {act : Action α} {s : State} {h : Halt} (k : α → Action β)
    (hact : (act.run s).1 = .error h) : (act >>= k).run s = (.error h, (act.run s).2) := by
  rw [run_bind]
  rcases hrun : act.run s with ⟨_ | _, s'⟩ <;> rw [hrun] at hact <;> cases hact
  rfl

theorem Curtails.bind {act act' : Action α} {k k' : α → Action β} {Q : α → Prop} {R : β → Prop}
    (h : act.Curtails act' Q) (hk : ∀ a, Q a → (k a).Curtails (k' a) R) :
    (act >>= k).Curtails (act' >>= k') R := by
  intro s hs
  have hact := h s hs
  rcases hrun' : act'.run s with ⟨halt | a, s'⟩
  · have hhalt : halt = .refused := hact.halt halt (by rw [hrun'])
    subst hhalt
    rw [run_bind_of_error k' (h := .refused) (by rw [hrun'])]
    refine ⟨hact.store, hact.grows, nofun, fun h heq => by cases heq; rfl, ?_⟩
    rcases hact.agrees with hsame | ⟨hrefused, hjournal⟩
    · rw [run_bind_of_error k (h := .refused) (by rw [hsame, hrun']), hsame]
      exact .inl rfl
    · rw [run_bind_of_error k hrefused]
      exact .inr ⟨rfl, hjournal⟩
  · rw [hrun'] at hact
    have hrest := hk a (hact.value a rfl) s' hact.store
    have hgrows := hact.grows.trans hrest.grows
    have hbind' : (act' >>= k').run s = (k' a).run s' := by rw [run_bind, hrun']
    rw [hbind']
    refine ⟨hrest.store, hgrows, hrest.value, hrest.halt, ?_⟩
    rcases hact.agrees with hsame | ⟨hrefused, hjournal⟩
    · have hbind : (act >>= k).run s = (k a).run s' := by rw [run_bind, hsame]
      rw [hbind]
      exact hrest.agrees
    · -- The first action went no further; the second goes on from what both have done.
      rw [run_bind_of_error k hrefused]
      exact .inr ⟨rfl, hjournal.trans hrest.grows⟩

theorem curtails_record (e : Event) : (record e).Curtails (record e) fun _ => True :=
  curtails_step fun s hs => ⟨_, _, run_record e s, hs, List.suffix_cons _ _, trivial⟩

theorem curtails_bindName {v : Value} (hv : v.Everywhere Intact) (scope : ScopeId)
    (name : String) :
    (Action.bind scope name v).Curtails (Action.bind scope name v) fun _ => True :=
  curtails_step fun s hs =>
    ⟨_, _, run_bindName scope name v s, hs.bind scope name hv, List.suffix_cons _ _, trivial⟩

theorem curtails_enclose (scope : ScopeId) :
    (enclose scope).Curtails (enclose scope) fun _ => True :=
  curtails_step fun s hs =>
    ⟨_, _, run_enclose scope s, hs.enclose scope, List.suffix_refl _, trivial⟩

theorem Curtails.observed {act act' : Action Value}
    (h : act.Curtails act' (Value.Everywhere Intact)) (node : Node) (scope : ScopeId) :
    (act.observed node scope).Curtails (act'.observed node scope) (Value.Everywhere Intact) := by
  refine (curtails_record (.entered node scope)).bind fun _ _ => h.bind fun v hv => ?_
  exact (curtails_record (.completed node v)).bind fun _ _ => curtails_pure hv

theorem Curtails.unlessError {act act' : Action Value} {k k' : Value → Action Value}
    (h : act.Curtails act' (Value.Everywhere Intact))
    (hk : ∀ v, v.Everywhere Intact → (k v).Curtails (k' v) (Value.Everywhere Intact)) :
    (act.unlessError k).Curtails (act'.unlessError k') (Value.Everywhere Intact) := by
  refine h.bind fun v hv => ?_
  split
  · exact curtails_pure hv
  · exact hk v hv

end Action

open TreeWalk.Action

theorem curtails_lookup (scope : ScopeId) (name : String) :
    (lookup scope name).Curtails (lookup scope name) (Value.Everywhere Intact) := by
  apply curtails_step
  intro s hs
  refine ⟨_, s, run_lookup scope name s, hs, List.suffix_refl _, ?_⟩
  split
  · next hget => exact hs.get? hget
  · exact (Value.derived_builtin _).intact (List.forall_mem_nil _)
  · exact Value.intact_of_isError rfl

theorem curtails_bindTo {target : Node} (ht : target.IsIdent) {v : Value}
    (hv : v.Everywhere Intact) (scope : ScopeId) :
    (bindTo scope target v).Curtails (bindTo scope target v) fun _ => True := by
  cases target with
  | ident t name => exact curtails_bindName hv scope name
  | _ => cases ht

theorem curtails_bindAll (scope : ScopeId) (ps : List (Node × Value))
    (hnames : ∀ p ∈ ps, p.1.IsIdent) (hvalues : ∀ p ∈ ps, p.2.Everywhere Intact) :
    (bindAll scope ps).Curtails (bindAll scope ps) fun _ => True := by
  induction ps with
  | nil => exact curtails_pure trivial
  | cons p ps ih =>
    obtain ⟨hname, hnames⟩ := List.forall_mem_cons.mp hnames
    obtain ⟨hvalue, hvalues⟩ := List.forall_mem_cons.mp hvalues
    exact (curtails_bindTo hname hvalue scope).bind fun _ _ => ih hnames hvalues

theorem curtails_runBuiltin (b : Builtin) {args : List Value}
    (hargs : ∀ a ∈ args, a.Everywhere Intact) :
    (runBuiltin b args).Curtails (runBuiltin b args) (Value.Everywhere Intact) := by
  have hlines (lines : List String) :
      (lines.forM fun line => Action.record (.printed line)).Curtails
        (lines.forM fun line => Action.record (.printed line)) fun _ => True := by
    induction lines with
    | nil => exact curtails_pure trivial
    | cons line lines ih => exact (curtails_record (.printed line)).bind fun _ _ => ih
  exact (hlines _).bind fun _ _ => curtails_pure ((b.derived_answer args).intact hargs)

section

variable {call call' : Value → List Value → Action Value} {scope : ScopeId}

variable (call call') in
def CallsCurtail : Prop :=
  ∀ f args, f.Everywhere Intact → (∀ a ∈ args, a.Everywhere Intact) →
    (call f args).Curtails (call' f args) (Value.Everywhere Intact)

variable (call call') in
def EvalCurtails (n : Node) (scope : ScopeId) : Prop :=
  (eval call n scope).Curtails (eval call' n scope) (Value.Everywhere Intact)

theorem curtails_evalStatements {ss : List Node} (h : ∀ s ∈ ss, EvalCurtails call call' s scope)
    {last : Value} (hlast : last.Everywhere Intact) :
    (evalStatements call ss last scope).Curtails (evalStatements call' ss last scope)
      (Value.Everywhere Intact) := by
  induction ss generalizing last with
  | nil =>
    rw [evalStatements, evalStatements]
    exact curtails_pure hlast
  | cons s ss ih =>
    obtain ⟨hs, hss⟩ := List.forall_mem_cons.mp h
    rw [evalStatements_cons, evalStatements_cons]
    refine Curtails.unlessError hs fun v hv => ?_
    split
    · exact curtails_pure hv
    · exact ih hss hv

theorem curtails_evalAll {es : List Node} (h : ∀ e ∈ es, EvalCurtails call call' e scope)
    {k k' : List Value → Action Value}
    (hk : ∀ vs, (∀ v ∈ vs, v.Everywhere Intact) →
      (k vs).Curtails (k' vs) (Value.Everywhere Intact)) :
    (evalAll call scope es k).Curtails (evalAll call' scope es k') (Value.Everywhere Intact) := by
  induction es generalizing k k' with
  | nil =>
    rw [evalAll_nil, evalAll_nil]
    exact hk [] (List.forall_mem_nil _)
  | cons e es ih =>
    obtain ⟨he, hes⟩ := List.forall_mem_cons.mp h
    rw [evalAll_cons, evalAll_cons]
    refine Curtails.unlessError he fun v hv => ?_
    exact ih hes fun vs hvs => hk (v :: vs) (List.forall_mem_cons.mpr ⟨hv, hvs⟩)

theorem curtails_evalPairs {ps : List (Node × Node)}
    (hkeys : ∀ p ∈ ps, EvalCurtails call call' p.1 scope)
    (hvalues : ∀ p ∈ ps, EvalCurtails call call' p.2 scope)
    {entries : Ordered HashKey (Value × Value)}
    (hentries : (Value.hash entries).Everywhere Intact) :
    (evalPairs call ps entries scope).Curtails (evalPairs call' ps entries scope)
      (Value.Everywhere Intact) := by
  induction ps generalizing entries with
  | nil =>
    rw [evalPairs, evalPairs]
    exact curtails_pure hentries
  | cons p ps ih =>
    obtain ⟨hkey, hkeys⟩ := List.forall_mem_cons.mp hkeys
    obtain ⟨hvalue, hvalues⟩ := List.forall_mem_cons.mp hvalues
    rw [evalPairs_cons, evalPairs_cons]
    refine Curtails.unlessError hkey fun key hk => ?_
    split
    · exact curtails_pure (Value.intact_of_isError rfl)
    · refine Curtails.unlessError hvalue fun v hv => ?_
      exact ih hkeys hvalues (Value.intact_put hentries hk hv _)

theorem evalCurtails_of_rule {n : Node}
    {act : (Value → List Value → Action Value) → Action Value}
    (hrule : ∀ call, eval call n scope = (act call).observed n scope)
    (h : (act call).Curtails (act call') (Value.Everywhere Intact)) :
    EvalCurtails call call' n scope := by
  unfold EvalCurtails
  rw [hrule, hrule]
  exact h.observed n scope

theorem curtails_derived {args : List Value} {v : Value} (h : Value.Derived args v)
    (hargs : ∀ a ∈ args, a.Everywhere Intact) :
    (pure v : Action Value).Curtails (pure v) (Value.Everywhere Intact) :=
  curtails_pure (h.intact hargs)

theorem evalCurtails (hcall : CallsCurtail call call') {n : Node} (hn : n.Whole) :
    EvalCurtails call call' n scope := by
  have hnone : ∀ a ∈ ([] : List Value), a.Everywhere Intact := List.forall_mem_nil _
  have hnull : Value.null.Everywhere Intact := Value.derived_null.intact hnone
  induction hn with
  | program _ ih =>
    refine evalCurtails_of_rule (fun call => eval_program call scope _) ?_
    refine (curtails_evalStatements ih hnull).unlessError fun v hv => ?_
    exact curtails_pure hv.unwrapped
  | letStmt hname _ ih =>
    refine evalCurtails_of_rule (fun call => eval_letStmt call scope _ _ _) ?_
    refine Curtails.unlessError ih fun v hv => ?_
    exact (curtails_bindTo hname hv scope).bind fun _ _ => curtails_pure hv
  | returnStmt _ ih =>
    refine evalCurtails_of_rule (fun call => eval_returnStmt call scope _ _) ?_
    refine Curtails.unlessError ih fun v hv => ?_
    exact curtails_pure (Value.everywhere_returned trivial hv)
  | exprStmt _ ih => exact evalCurtails_of_rule (fun call => eval_exprStmt call scope _ _) ih
  | block _ ih =>
    refine evalCurtails_of_rule (fun call => by rw [eval]) ?_
    exact curtails_evalStatements ih hnull
  | ident => exact evalCurtails_of_rule (fun call => by rw [eval]) (curtails_lookup scope _)
  | int =>
    refine evalCurtails_of_rule (fun call => by rw [eval]) ?_
    exact curtails_pure (List.forall_mem_singleton.mpr trivial)
  | bool =>
    refine evalCurtails_of_rule (fun call => by rw [eval]) ?_
    exact curtails_derived (Value.derived_bool _) hnone
  | str =>
    refine evalCurtails_of_rule (fun call => by rw [eval]) ?_
    exact curtails_derived (Value.derived_str _) hnone
  | unary _ ih =>
    refine evalCurtails_of_rule (fun call => eval_unary call scope _ _ _) ?_
    refine Curtails.unlessError ih fun v hv => ?_
    exact curtails_derived (Value.derived_unary _ v) (by simpa using hv)
  | binary _ _ ih ih' =>
    refine evalCurtails_of_rule (fun call => eval_binary call scope _ _ _ _) ?_
    refine Curtails.unlessError ih fun l hl => Curtails.unlessError ih' fun r hr => ?_
    exact curtails_derived (Value.derived_binary _ l r) (by simp [hl, hr])
  | ifThen _ _ ih ih' =>
    refine evalCurtails_of_rule (fun call => eval_ifExpr call scope _ _ _ _) ?_
    refine Curtails.unlessError ih fun v _ => ?_
    split
    · exact ih'
    · exact curtails_pure hnull
  | ifElse _ _ _ ih ih' ih'' =>
    refine evalCurtails_of_rule (fun call => eval_ifExpr call scope _ _ _ _) ?_
    refine Curtails.unlessError ih fun v _ => ?_
    split
    · exact ih'
    · split
      · exact curtails_pure hnull
      · exact ih''
  | function names body =>
    refine evalCurtails_of_rule (fun call => by rw [eval]) ?_
    exact curtails_pure (List.forall_mem_singleton.mpr ⟨names, body⟩)
  | call _ _ ih ih' =>
    refine evalCurtails_of_rule (fun call => eval_call call scope _ _ _) ?_
    refine Curtails.unlessError ih fun f hf => ?_
    exact curtails_evalAll ih' fun args hargs => hcall f args hf hargs
  | array _ ih =>
    refine evalCurtails_of_rule (fun call => eval_arrayLit call scope _ _) ?_
    exact curtails_evalAll ih fun vs hvs => curtails_pure (Value.intact_array hvs)
  | index _ _ ih ih' =>
    refine evalCurtails_of_rule (fun call => eval_index call scope _ _ _) ?_
    refine Curtails.unlessError ih fun l hl => Curtails.unlessError ih' fun p hp => ?_
    exact curtails_derived (Value.derived_index l p) (by simp [hl, hp])
  | hash _ _ ih ih' =>
    refine evalCurtails_of_rule (fun call => by rw [eval]) ?_
    exact curtails_evalPairs ih ih' (List.forall_mem_singleton.mpr trivial)

theorem curtails_inBody (hcall : CallsCurtail call call') {ps : List Node} {body : Node}
    {args : List Value} (hf : (Value.function ps body scope).Everywhere Intact)
    (hargs : ∀ a ∈ args, a.Everywhere Intact) :
    (inBody call ps body scope args).Curtails (inBody call' ps body scope args)
      (Value.Everywhere Intact) := by
  obtain ⟨names, hbody⟩ : Intact (.function ps body scope) := hf.self
  have hbind (inner : ScopeId) := curtails_bindAll inner (ps.zip args)
    (fun p hp => names p.1 (List.of_mem_zip hp).1) fun p hp => hargs p.2 (List.of_mem_zip hp).2
  refine (curtails_enclose scope).bind fun inner _ => (hbind inner).bind fun _ _ => ?_
  exact Curtails.bind (evalCurtails hcall hbody) fun v hv => curtails_pure hv.unwrapped

end

/-- What is refused at once has done nothing that goes beyond another action. -/
theorem Action.Curtails.refused {act : Action Value}
    (h : act.Curtails act (Value.Everywhere Intact)) :
    (throw .refused : Action Value).Curtails act (Value.Everywhere Intact) := by
  intro s hs
  have hact := h s hs
  exact ⟨hact.store, hact.grows, hact.value, hact.halt, .inr ⟨rfl, hact.grows⟩⟩

/-- By induction on the greater limit: a body is evaluated one call nearer to both of them. -/
theorem callsCurtail_applyWithin {limit limit' : Nat} (h : limit ≤ limit') :
    CallsCurtail (applyWithin limit) (applyWithin limit') := by
  have hfailure (f : Failure) :
      (pure f.value : Action Value).Curtails (pure f.value) (Value.Everywhere Intact) :=
    curtails_pure (Value.intact_of_isError rfl)
  induction limit' generalizing limit with
  | zero =>
    obtain rfl : limit = 0 := Nat.le_zero.mp h
    intro f args hf hargs
    cases f with
    | function ps body scope =>
      rw [applyWithin]
      split
      · exact hfailure _
      · exact curtails_refused
    | builtin b => exact curtails_runBuiltin b hargs
    | _ => exact hfailure _
  | succ limit' ih =>
    intro f args hf hargs
    cases f with
    | function ps body scope =>
      cases limit with
      | zero =>
        rw [applyWithin, applyWithin]
        split
        · exact hfailure _
        · exact (curtails_inBody (ih (Nat.le_refl limit')) hf hargs).refused
      | succ limit =>
        rw [applyWithin, applyWithin]
        split
        · exact hfailure _
        · exact curtails_inBody (ih (Nat.le_of_succ_le_succ h)) hf hargs
    | builtin b =>
      simp only [applyWithin]
      exact curtails_runBuiltin b hargs
    | _ =>
      simp only [applyWithin]
      exact hfailure _

theorem curtailed_evaluateWithin {limit limit' : Nat} (h : limit ≤ limit') {n : Node}
    (hn : n.Whole) (scope : ScopeId) {st : Store} (hst : st.Holds Intact) :
    Curtailed (Value.Everywhere Intact) ⟨st, []⟩ ((evaluateWithin limit n scope).run ⟨st, []⟩)
      ((evaluateWithin limit' n scope).run ⟨st, []⟩) :=
  evalCurtails (callsCurtail_applyWithin h) hn ⟨st, []⟩ hst

/-- The two runs are the same, if neither is refused. -/
theorem Curtailed.eq {α : Type} {Q : α → Prop} {s : State} {r r' : Except Halt α × State}
    (h : Curtailed Q s r r') (hr : r.1 ≠ .error .refused) : r' = r := by
  rcases h.agrees with hsame | ⟨hrefused, _⟩
  · exact hsame.symm
  · exact absurd hrefused hr

/-- A program without complaints ends under every limit, with a value or refused. What ends with a
value under one limit ends the same under every greater one: with that value, the same journal, so
also what was printed, and the same store. A refused run did what the run under a greater limit does
first, and two limits under which the program is not refused cannot be told apart. -/
theorem limit_only_refuses {source : String} {program : Node}
    (hparse : parse source = .ok (program, [])) (scope : ScopeId) {st : Store}
    (hst : st.Holds Intact) :
    (∀ limit, (∃ v, ((evaluateWithin limit program scope).run ⟨st, []⟩).1 = .ok v) ∨
      ((evaluateWithin limit program scope).run ⟨st, []⟩).1 = .error .refused) ∧
    (∀ limit limit', limit ≤ limit' →
      let r := (evaluateWithin limit program scope).run ⟨st, []⟩
      let r' := (evaluateWithin limit' program scope).run ⟨st, []⟩
      (∀ v, r.1 = .ok v → r' = r) ∧ r.2.journal <:+ r'.2.journal) ∧
    ∀ limit limit',
      ((evaluateWithin limit program scope).run ⟨st, []⟩).1 ≠ .error .refused →
      ((evaluateWithin limit' program scope).run ⟨st, []⟩).1 ≠ .error .refused →
      (evaluateWithin limit program scope).run ⟨st, []⟩ =
        (evaluateWithin limit' program scope).run ⟨st, []⟩ := by
  have hrun {limit limit' : Nat} (h : limit ≤ limit') :=
    curtailed_evaluateWithin h (whole_of_parse hparse) scope hst
  refine ⟨fun limit => ?_, fun limit limit' h => ⟨fun v hv => ?_, ?_⟩,
    fun limit limit' hr hr' => ?_⟩
  · cases houtcome : ((evaluateWithin limit program scope).run ⟨st, []⟩).1 with
    | ok v => exact .inl ⟨v, rfl⟩
    | error halt =>
      rw [(hrun (Nat.le_refl limit)).halt halt houtcome]
      exact .inr rfl
  · have hends : ((evaluateWithin limit program scope).run ⟨st, []⟩).1 ≠ .error .refused := by
      rw [hv]
      nofun
    exact (hrun h).eq hends
  · rcases (hrun h).agrees with hsame | ⟨_, hjournal⟩
    · exact hsame ▸ List.suffix_refl _
    · exact hjournal
  · rcases Nat.le_total limit limit' with h | h
    · exact ((hrun h).eq hr).symm
    · exact (hrun h).eq hr'

def secondCall : Node :=
  .block ⟨.lbrace, "\x7b"⟩ [.exprStmt ⟨.ifWord, "if"⟩ (.ifExpr ⟨.ifWord, "if"⟩
    (.ident ⟨.ident, "x"⟩ "x")
    (.block ⟨.lbrace, "\x7b"⟩ [.exprStmt ⟨.ident, "f"⟩ (.call ⟨.lparen, "("⟩
      (.ident ⟨.ident, "f"⟩ "f") [.boolLit ⟨.falseWord, "false"⟩ false])])
    (.block ⟨.lbrace, "\x7b"⟩ [.exprStmt ⟨.ident, "x"⟩ (.ident ⟨.ident, "x"⟩ "x")]))]

theorem whole_secondCall : secondCall.Whole := by
  have hcall : (Node.call ⟨.lparen, "("⟩ (.ident ⟨.ident, "f"⟩ "f")
      [.boolLit ⟨.falseWord, "false"⟩ false]).Whole :=
    .call .ident (List.forall_mem_singleton.mpr .bool)
  refine .block (List.forall_mem_singleton.mpr (.exprStmt (.ifElse .ident ?_ ?_)))
  · exact .block (List.forall_mem_singleton.mpr (.exprStmt hcall))
  · exact .block (List.forall_mem_singleton.mpr (.exprStmt .ident))

/-- A global scope in which `f` is `fn(x) { if (x) { f(false) } else { x } }`. -/
def secondCallStore : Store :=
  (Store.empty.openRoot Builtin.ofName?).2.bind 0 "f"
    (.function [.ident ⟨.ident, "x"⟩ "x"] secondCall 0)

/-- One call is not enough for `f(true)`, two are, and more make no difference. -/
theorem limit_only_refuses_secondCall :
    ∃ program, parse "f(true)" = .ok (program, []) ∧ secondCallStore.Holds Intact ∧
      ((evaluateWithin 1 program 0).run ⟨secondCallStore, []⟩).1 = .error .refused ∧
      ((evaluateWithin 2 program 0).run ⟨secondCallStore, []⟩).1 = .ok (.bool false) ∧
      ∀ limit, 2 ≤ limit → (evaluateWithin limit program 0).run ⟨secondCallStore, []⟩ =
        (evaluateWithin 2 program 0).run ⟨secondCallStore, []⟩ := by
  have hparse : parse "f(true)" = .ok (.program [.exprStmt ⟨.ident, "f"⟩
      (.call ⟨.lparen, "("⟩ (.ident ⟨.ident, "f"⟩ "f")
        [.boolLit ⟨.trueWord, "true"⟩ true])], []) := by
    cbv
  have hstore : secondCallStore.Holds Intact := by
    have hempty := Store.holds_openRoot Intact Builtin.ofName?
    refine hempty.bind 0 "f" (List.forall_mem_singleton.mpr ⟨?_, whole_secondCall⟩)
    exact List.forall_mem_singleton.mpr trivial
  refine ⟨_, hparse, hstore, rfl, rfl, fun limit hlimit => ?_⟩
  exact ((limit_only_refuses hparse 0 hstore).2.1 2 limit hlimit).1 _ rfl

end TreeWalk
