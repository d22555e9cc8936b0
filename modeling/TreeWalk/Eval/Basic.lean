import TreeWalk.Eval.Action
import TreeWalk.Value.Builtin
import TreeWalk.Value.Operator

/-! An error ends whatever contains it and becomes its value. The value of a return statement is
wrapped, and passes through blocks until a function or the program takes it out again. Calls nest
only so deep: past the limit a run is refused. -/
namespace TreeWalk

def Value.unwrapped : Value → Value
  | .returned v => v
  | v => v

/-- A name is the nearest binding of it, or else a built-in. -/
def lookup (scope : ScopeId) (name : String) : Action Value := do
  let store := (← get).store
  match store.get? scope name with
  | some v => return v
  | none => match store.builtin? scope name with
    | some b => return .builtin b
    | none => return (Failure.unbound name).value

def bindTo (scope : ScopeId) (target : Node) (v : Value) : Action Unit :=
  match target.bindingName? with
  | some name => Action.bind scope name v
  | none => if target.isAnonymous then return () else throw (.nameless target.label)

def bindAll (scope : ScopeId) : List (Node × Value) → Action Unit
  | [] => return ()
  | (p, v) :: rest => do
    bindTo scope p v
    bindAll scope rest

mutual

/-- The value of a node, function calls left to `call`. -/
def eval (call : Value → List Value → Action Value) (node : Node) (scope : ScopeId) :
    Action Value :=
  Action.observed node scope <| match node with
  | .missing => throw (.notEvaluable Node.missing.label)
  | .bare form t => throw (.notEvaluable (Node.bare form t).label)
  | .program statements => return (← evalStatements call statements .null scope).unwrapped
  | .block _ statements => evalStatements call statements .null scope
  | .exprStmt _ e => eval call e scope
  | .returnStmt _ e => do
    let v ← eval call e scope
    return if v.isError then v else .returned v
  | .letStmt _ name e => do
    let v ← eval call e scope
    if v.isError then return v
    bindTo scope name v
    return v
  | .ident _ name => lookup scope name
  | .intLit _ n => return .int n
  | .boolLit _ b => return .bool b
  | .strLit _ s => return .str s
  | .unary _ operator right => do
    let r ← eval call right scope
    return if r.isError then r else Value.unary operator r
  | .binary _ operator left right => do
    let l ← eval call left scope
    if l.isError then return l
    let r ← eval call right scope
    return if r.isError then r else Value.binary operator l r
  | .ifExpr _ condition consequence alternative => do
    let c ← eval call condition scope
    if c.isError then return c
    if c.truthy then eval call consequence scope
    else if alternative.isMissing then return .null
    else eval call alternative scope
  | .fnLit _ parameters body => return .function parameters body scope
  | .call _ function arguments => do
    let f ← eval call function scope
    if f.isError then return f
    match ← evalList call arguments scope with
    | .ok args => call f args
    | .error e => return e
  | .arrayLit _ elements => do
    match ← evalList call elements scope with
    | .ok vs => return .array vs
    | .error e => return e
  | .index _ left position => do
    let l ← eval call left scope
    if l.isError then return l
    let p ← eval call position scope
    return if p.isError then p else Value.index l p
  | .hashLit _ pairs => evalPairs call pairs [] scope

/-- The value of the last statement, or of the first that is an error or a return. -/
def evalStatements (call : Value → List Value → Action Value) (statements : List Node)
    (last : Value) (scope : ScopeId) : Action Value :=
  match statements with
  | [] => return last
  | s :: rest => do
    match ← eval call s scope with
    | .returned v => return .returned v
    | .error message => return .error message
    | v => evalStatements call rest v scope

/-- The values of a list from left to right, or the first error among them. -/
def evalList (call : Value → List Value → Action Value) (nodes : List Node) (scope : ScopeId) :
    Action (Except Value (List Value)) :=
  match nodes with
  | [] => return .ok []
  | n :: rest => do
    let v ← eval call n scope
    if v.isError then return .error v
    return (← evalList call rest scope).map (v :: ·)

def evalPairs (call : Value → List Value → Action Value) (pairs : List (Node × Node))
    (entries : Ordered HashKey (Value × Value)) (scope : ScopeId) : Action Value :=
  match pairs with
  | [] => return .hash entries
  | (keyNode, valueNode) :: rest => do
    let key ← eval call keyNode scope
    if key.isError then return key
    match key.hashKey? with
    | none => return (Failure.unusableKey key.tag).value
    | some k =>
      let v ← eval call valueNode scope
      if v.isError then return v
      evalPairs call rest (entries.put k (key, v)) scope

end

def runBuiltin (b : Builtin) (args : List Value) : Action Value := do
  (b.lines args).forM fun line => Action.record (.printed line)
  return b.answer args

/-- Calls a function with its arguments, at most `limit` calls of functions deep. -/
def applyWithin (limit : Nat) (f : Value) (args : List Value) : Action Value :=
  match f with
  | .function parameters body scope =>
    if args.length ≠ parameters.length then
      return (Failure.arity parameters.length args.length).value
    else match limit with
      | 0 => throw .refused
      | n + 1 => do
        let inner ← Action.enclose scope
        bindAll inner (parameters.zip args)
        return (← eval (applyWithin n) body inner).unwrapped
  | .builtin b => runBuiltin b args
  | v => return (Failure.notFunction v.tag).value

def evaluateWithin (limit : Nat) (node : Node) (scope : ScopeId) : Action Value :=
  eval (applyWithin limit) node scope

end TreeWalk
