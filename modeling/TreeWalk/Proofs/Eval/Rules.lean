import TreeWalk.Eval.Basic

/-! Proofs about evaluation go by these equations, and by induction on trees. -/
namespace TreeWalk

/-- Induction on trees: what holds of all children holds of the node. -/
@[elab_as_elim, induction_eliminator]
theorem Node.induct {P : Node → Prop} (missing : P .missing) (bare : ∀ form t, P (.bare form t))
    (program : ∀ ss, (∀ s ∈ ss, P s) → P (.program ss))
    (letStmt : ∀ t name value, P name → P value → P (.letStmt t name value))
    (returnStmt : ∀ t value, P value → P (.returnStmt t value))
    (exprStmt : ∀ t e, P e → P (.exprStmt t e))
    (block : ∀ t ss, (∀ s ∈ ss, P s) → P (.block t ss))
    (ident : ∀ t name, P (.ident t name)) (intLit : ∀ t n, P (.intLit t n))
    (boolLit : ∀ t b, P (.boolLit t b)) (strLit : ∀ t s, P (.strLit t s))
    (unary : ∀ t op right, P right → P (.unary t op right))
    (binary : ∀ t op left right, P left → P right → P (.binary t op left right))
    (ifExpr : ∀ t c a b, P c → P a → P b → P (.ifExpr t c a b))
    (fnLit : ∀ t ps body, (∀ p ∈ ps, P p) → P body → P (.fnLit t ps body))
    (call : ∀ t f args, P f → (∀ a ∈ args, P a) → P (.call t f args))
    (arrayLit : ∀ t es, (∀ e ∈ es, P e) → P (.arrayLit t es))
    (index : ∀ t left position, P left → P position → P (.index t left position))
    (hashLit : ∀ t ps, (∀ p ∈ ps, P p.1) → (∀ p ∈ ps, P p.2) → P (.hashLit t ps))
    (n : Node) : P n :=
  @Node.rec P (fun ns => ∀ n ∈ ns, P n) (fun ps => (∀ p ∈ ps, P p.1) ∧ ∀ p ∈ ps, P p.2)
    (fun p => P p.1 ∧ P p.2)
    missing bare program letStmt returnStmt exprStmt block ident intLit boolLit strLit unary binary
    ifExpr fnLit call arrayLit index (fun t ps h => hashLit t ps h.1 h.2)
    (List.forall_mem_nil _) (fun _ _ hn hns => List.forall_mem_cons.mpr ⟨hn, hns⟩)
    ⟨List.forall_mem_nil _, List.forall_mem_nil _⟩
    (fun _ _ hp hps => ⟨List.forall_mem_cons.mpr ⟨hp.1, hps.1⟩,
      List.forall_mem_cons.mpr ⟨hp.2, hps.2⟩⟩)
    (fun _ _ hk hv => ⟨hk, hv⟩) n

theorem Value.eq_error_of_isError {v : Value} (h : v.isError) : ∃ message, v = .error message := by
  cases v with
  | error message => exact ⟨message, rfl⟩
  | _ => cases h

theorem Value.unwrapped_of_isError {v : Value} (h : v.isError) : v.unwrapped = v := by
  obtain ⟨message, rfl⟩ := Value.eq_error_of_isError h
  rfl

namespace Action

variable {α β : Type}

theorem run_pure (a : α) (s : State) : (pure a : Action α).run s = (.ok a, s) := rfl

theorem run_bind (act : Action α) (k : α → Action β) (s : State) :
    (act >>= k).run s = match act.run s with
      | (.ok a, s') => (k a).run s'
      | (.error h, s') => (.error h, s') := by
  have hrun : (act >>= k).run s = ExceptT.bindCont k (act.run s).1 (act.run s).2 := rfl
  rw [hrun]
  rcases act.run s with ⟨_ | a, s'⟩ <;> rfl

theorem run_record (e : Event) (s : State) :
    (record e).run s = (.ok (), { s with journal := e :: s.journal }) := rfl

theorem run_bindName (scope : ScopeId) (name : String) (v : Value) (s : State) :
    (Action.bind scope name v).run s =
      (.ok (), ⟨s.store.bind scope name v, .bound scope name v :: s.journal⟩) := rfl

theorem run_enclose (scope : ScopeId) (s : State) :
    (enclose scope).run s =
      (.ok (s.store.enclose scope).1, { s with store := (s.store.enclose scope).2 }) := rfl

/-- Goes on with the value of an action unless it is an error. -/
def unlessError (act : Action Value) (k : Value → Action Value) : Action Value := do
  let v ← act
  if v.isError then return v else k v

theorem unlessError_pure (act : Action Value) (f : Value → Value) :
    act.unlessError (fun v => pure (f v)) = do
      let v ← act
      return if v.isError then v else f v := by
  unfold unlessError
  congr 1
  funext v
  split <;> rfl

theorem unlessError_unwrapped (act : Action Value) :
    act.unlessError (fun v => pure v.unwrapped) = do return (← act).unwrapped := by
  unfold unlessError
  congr 1
  funext v
  split
  · next h => rw [Value.unwrapped_of_isError h]
  · rfl

end Action

open TreeWalk.Action (observed unlessError)

theorem run_lookup (scope : ScopeId) (name : String) (s : State) :
    (lookup scope name).run s =
      (.ok (match s.store.get? scope name, s.store.builtin? scope name with
        | some v, _ => v
        | none, some b => .builtin b
        | none, none => (Failure.unbound name).value), s) := by
  unfold lookup
  have hget : (get : Action State).run s = (.ok s, s) := rfl
  rw [Action.run_bind, hget]
  cases hfound : s.store.get? scope name with
  | some v =>
    simp only [hfound]
    rfl
  | none =>
    simp only [hfound]
    cases s.store.builtin? scope name <;> rfl

section

variable (call : Value → List Value → Action Value) (scope : ScopeId)

-- The equations of the evaluator are made here, once, and not by each of the rules that need them.
attribute [local simp] eval evalStatements evalList evalPairs

def evalAll (nodes : List Node) (k : List Value → Action Value) : Action Value := do
  match ← evalList call nodes scope with
  | .ok vs => k vs
  | .error e => return e

theorem evalAll_nil (k : List Value → Action Value) : evalAll call scope [] k = k [] := by
  simp only [evalAll, evalList, pure_bind]

theorem evalAll_cons (n : Node) (rest : List Node) (k : List Value → Action Value) :
    evalAll call scope (n :: rest) k =
      (eval call n scope).unlessError fun v =>
        evalAll call scope rest fun vs => k (v :: vs) := by
  simp only [evalAll, evalList, unlessError, bind_assoc]
  congr 1
  funext v
  split
  · rw [pure_bind]
  · rw [bind_assoc]
    congr 1
    funext r
    cases r <;> rfl

theorem evalStatements_cons (s : Node) (rest : List Node) (last : Value) :
    evalStatements call (s :: rest) last scope =
      (eval call s scope).unlessError fun v =>
        match v with
        | .returned w => pure (.returned w)
        | v => evalStatements call rest v scope := by
  rw [evalStatements, unlessError]
  congr 1
  funext v
  cases v <;> rfl

theorem evalPairs_cons (k v : Node) (rest : List (Node × Node))
    (entries : Ordered HashKey (Value × Value)) :
    evalPairs call ((k, v) :: rest) entries scope =
      (eval call k scope).unlessError fun key =>
        match key.hashKey? with
        | none => pure (Failure.unusableKey key.tag).value
        | some hashKey => (eval call v scope).unlessError fun value =>
            evalPairs call rest (entries.put hashKey (key, value)) scope := by
  rw [evalPairs]
  rfl

theorem eval_program (ss : List Node) :
    eval call (.program ss) scope =
      observed (.program ss) scope
        ((evalStatements call ss .null scope).unlessError fun v => pure v.unwrapped) := by
  rw [eval, Action.unlessError_unwrapped]

theorem eval_returnStmt (t : Token) (e : Node) :
    eval call (.returnStmt t e) scope =
      observed (.returnStmt t e) scope
        ((eval call e scope).unlessError fun v => pure (.returned v)) := by
  rw [eval, Action.unlessError_pure]

theorem eval_exprStmt (t : Token) (e : Node) :
    eval call (.exprStmt t e) scope = observed (.exprStmt t e) scope (eval call e scope) := by
  rw [eval]

theorem eval_letStmt (t : Token) (name e : Node) :
    eval call (.letStmt t name e) scope =
      observed (.letStmt t name e) scope
        ((eval call e scope).unlessError fun v => do bindTo scope name v; pure v) := by
  rw [eval, unlessError]

theorem eval_unary (t : Token) (op : String) (e : Node) :
    eval call (.unary t op e) scope =
      observed (.unary t op e) scope
        ((eval call e scope).unlessError fun v => pure (Value.unary op v)) := by
  rw [eval, Action.unlessError_pure]

theorem eval_binary (t : Token) (op : String) (a b : Node) :
    eval call (.binary t op a b) scope =
      observed (.binary t op a b) scope
        ((eval call a scope).unlessError fun l =>
          (eval call b scope).unlessError fun r => pure (Value.binary op l r)) := by
  simp only [Action.unlessError_pure]
  rw [eval, unlessError]

theorem eval_index (t : Token) (a i : Node) :
    eval call (.index t a i) scope =
      observed (.index t a i) scope
        ((eval call a scope).unlessError fun l =>
          (eval call i scope).unlessError fun p => pure (Value.index l p)) := by
  simp only [Action.unlessError_pure]
  rw [eval, unlessError]

theorem eval_ifExpr (t : Token) (c a b : Node) :
    eval call (.ifExpr t c a b) scope =
      observed (.ifExpr t c a b) scope
        ((eval call c scope).unlessError fun v =>
          if v.truthy then eval call a scope
          else if b.isMissing then pure .null
          else eval call b scope) := by
  rw [eval, unlessError]

theorem eval_call (t : Token) (f : Node) (args : List Node) :
    eval call (.call t f args) scope =
      observed (.call t f args) scope
        ((eval call f scope).unlessError fun v => evalAll call scope args (call v)) := by
  rw [eval, unlessError]
  rfl

theorem eval_arrayLit (t : Token) (es : List Node) :
    eval call (.arrayLit t es) scope =
      observed (.arrayLit t es) scope (evalAll call scope es fun vs => pure (.array vs)) := by
  rw [eval]
  rfl

end

/-- A call within the limit and with as many arguments as there are parameters. -/
theorem applyWithin_function (limit : Nat) {ps : List Node} {args : List Value}
    (h : args.length = ps.length) (body : Node) (scope : ScopeId) :
    applyWithin (limit + 1) (.function ps body scope) args = (do
      let inner ← Action.enclose scope
      bindAll inner (ps.zip args)
      (eval (applyWithin limit) body inner).unlessError fun v => pure v.unwrapped) := by
  simp only [Action.unlessError_unwrapped]
  rw [applyWithin, if_neg (by simpa using h)]

end TreeWalk
