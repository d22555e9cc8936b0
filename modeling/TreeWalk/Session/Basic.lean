import TreeWalk.Eval.Basic
import TreeWalk.Reporter
import TreeWalk.Session.Excerpt
import TreeWalk.Tree.Render

/-! A session reads sources into a queue of programs and runs them one after the other in one global
scope. Only the calls of a program count against the limit: that a host may have to give up where a
source or a value nests too deep to be read or shown is left out. -/
namespace TreeWalk

def linesText (lines : List String) : String := String.join (lines.map (· ++ "\n"))

/-- An action on the store as a step: what it prints is printed, a halt is a fault. -/
def Effect.ofAction {α : Type} (style : Style) (act : Action α) : Effect Store α := fun store =>
  let r := act.run ⟨store, []⟩
  ⟨linesText r.2.lines, r.2.store, r.1.mapError (Fault.ofHalt style)⟩

/-- Runs a source in a scope: its value, or the complaints about it. -/
def runSource (style : Style) (limit : Nat) (source : String) (scope : ScopeId) :
    Effect Store (Except (List Complaint) Value) :=
  match parse source with
  | .error a => Effect.fail (.defect (.ofAbort a))
  | .ok (program, []) => return .ok (← Effect.ofAction style (evaluateWithin limit program scope))
  | .ok (_, complaints) => return .error complaints

def shellPath : String := "<in>"

structure Session where
  reporter : Reporter
  /-- How many calls may be under way at one time. -/
  limit : Nat
  path : String
  store : Store
  root : ScopeId
  /-- The programs to run, each with the number of its line. -/
  queue : List (Int × Node)
  results : List Value

namespace Session

def start (reporter : Reporter) (limit : Nat) (path : String) : Session :=
  let r := Store.empty.openRoot Builtin.ofName?
  ⟨reporter.registerFile path, limit, path, r.2, r.1, [], []⟩

def onReporter {α : Type} (e : Effect Reporter α) : Effect Session α :=
  e.focus reporter fun s r => { s with reporter := r }

def onStore {α : Type} (e : Effect Store α) : Effect Session α :=
  e.focus store fun s st => { s with store := st }

def register (line : String) (number : Int) : Effect Session Unit :=
  Effect.modify fun s =>
    { s with reporter := s.reporter.registerLine s.path (some line) (some number) }

def clearLine : Effect Session Unit :=
  Effect.modify fun s => { s with reporter := s.reporter.removeLine s.path }

/-- The built-in whose name a statement takes. -/
def shadowed? : Node → Option Builtin
  | .letStmt _ name _ => name.bindingName?.bind Builtin.ofName?
  | _ => none

def warnShadowed : List Node → Effect Session Unit
  | [] => return ()
  | s :: rest => do
    match shadowed? s with
    | some b => onReporter (Reporter.warn "'\x7b\x7d' shadows a builtin function" [b.name])
    | none => pure ()
    warnShadowed rest

def statementsOf : Node → List Node
  | .program statements => statements
  | _ => []

/-- Reads a source and puts its program into the queue. -/
def add (source : String) (number : Int) : Effect Session Unit := do
  register (excerpt source) number
  match parse source with
  | .error a => Effect.fail (.defect (.ofAbort a))
  | .ok (program, complaints) =>
    if complaints.isEmpty then
      warnShadowed (statementsOf program)
      Effect.modify fun s => { s with queue := s.queue ++ [(number, program)] }
      clearLine
    else Effect.fail (.rejection (complaints.map Complaint.message))

def runQueue : List (Int × Node) → Effect Session Unit
  | [] => return ()
  | (number, program) :: rest => do
    Effect.modify fun s => { s with queue := rest }
    register (excerpt program.text) number
    let s ← Effect.get
    let v ← onStore (Effect.ofAction s.reporter.style (evaluateWithin s.limit program s.root))
    Effect.modify fun s => { s with results := s.results ++ [v] }
    clearLine
    runQueue rest

def run : Effect Session Unit := do
  runQueue (← Effect.get).queue

def pop : Effect Session String := do
  match (← Effect.get).results.getLast? with
  | some v =>
    Effect.modify fun s => { s with results := s.results.dropLast }
    return v.inspect
  | none => Effect.fail (.defect .noResult)

def showLatest : Effect Session Unit := do
  if (← Effect.get).results.isEmpty then return ()
  Effect.printLine (← pop)

def guarded (e : Effect Session Unit) : Effect Session Unit :=
  e.recover fun f => onReporter (Reporter.settle f)

end Session

end TreeWalk
