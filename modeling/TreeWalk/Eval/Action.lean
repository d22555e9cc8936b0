import TreeWalk.Store

namespace TreeWalk

inductive Halt where
  | refused
  | notEvaluable (form : String)
  | nameless (form : String)
  deriving DecidableEq, Repr

/-- What a run leaves in its journal. -/
inductive Event where
  | entered (node : Node) (scope : ScopeId)
  | completed (node : Node) (value : Value)
  | bound (scope : ScopeId) (name : String) (value : Value)
  | printed (line : String)
  deriving Repr

structure State where
  store : Store
  /-- The events so far, latest first. -/
  journal : List Event
  deriving Inhabited

/-- The lines printed so far, in order. -/
def State.lines (s : State) : List String :=
  s.journal.reverse.filterMap fun
    | .printed line => some line
    | _ => none

abbrev Action := ExceptT Halt (StateM State)

namespace Action

def record (e : Event) : Action Unit := modify fun s => { s with journal := e :: s.journal }

def bind (scope : ScopeId) (name : String) (v : Value) : Action Unit := do
  modify fun s => { s with store := s.store.bind scope name v }
  record (.bound scope name v)

def enclose (scope : ScopeId) : Action ScopeId := do
  modifyGet fun s =>
    let r := s.store.enclose scope
    (r.1, { s with store := r.2 })

/-- Notes when the evaluation of a node begins and what it comes to. -/
@[inline] def observed (node : Node) (scope : ScopeId) (act : Action Value) : Action Value := do
  record (.entered node scope)
  let v ← act
  record (.completed node v)
  return v

end Action

end TreeWalk
