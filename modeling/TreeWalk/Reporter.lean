import TreeWalk.Effect
import TreeWalk.Ordered

/-! For each file a reporter keeps the line in work, so that a report can show where a fault arose.
A report that does not end the program clears all of them. -/
namespace TreeWalk

structure Mark where
  line : Option String
  number : Option Int
  deriving DecidableEq, Repr

def Mark.clear : Mark := ⟨none, none⟩

/-- The lines a mark adds to a report: none unless it has a text to show. -/
def Mark.excerpt? (path : String) (m : Mark) : Option String :=
  match m.line with
  | none => none
  | some line =>
    if line.isEmpty then none
    else some ("  File '" ++ path ++ "', line " ++ (m.number.map toString).getD "None" ++ ":\n    "
      ++ line ++ "\n")

structure Reporter where
  style : Style
  /-- Whether a report ends the program. -/
  fatal : Bool
  traceback : Ordered String Mark

namespace Reporter

def start (style : Style) (fatal : Bool) : Reporter := ⟨style, fatal, []⟩

def setFatal (r : Reporter) (fatal : Bool) : Reporter := { r with fatal := fatal }

def mark (r : Reporter) (path : String) (m : Mark) : Reporter :=
  { r with traceback := r.traceback.put path m }

def registerFile (r : Reporter) (path : String) : Reporter := r.mark path .clear

def registerLine (r : Reporter) (path : String) (line : Option String) (number : Option Int) :
    Reporter :=
  r.mark path ⟨line, number⟩

def removeLine (r : Reporter) (path : String) : Reporter := r.mark path .clear

def cleared (r : Reporter) : Reporter :=
  { r with traceback := r.traceback.map fun e => (e.1, .clear) }

def excerpts (r : Reporter) : List String := r.traceback.filterMap fun e => e.2.excerpt? e.1

def reportText (r : Reporter) (message : String) (internal : Bool) : String :=
  (if 1 < r.excerpts.length then "Traceback:\n" else "") ++ String.join r.excerpts
    ++ (if internal then r.style.label .red "[internal] " else "")
    ++ r.style.label .red "error: " ++ message

def report (message : String) (internal : Bool) : Effect Reporter Unit := do
  let r ← Effect.get
  Effect.printLine (r.reportText message internal)
  if r.fatal then Effect.fail (.exit (some 1)) else Effect.modify cleared

def warn (template : String) (exprs : List String) : Effect Reporter Unit := do
  let r ← Effect.get
  match Fault.tell r.style template exprs false with
  | .told m _ => Effect.printLine (r.style.label .magenta "warning: " ++ m)
  | f => Effect.fail f

/-- Reports a fault that was foreseen. To ask for a report of any other one is a defect of its own:
such a fault does not say whether it is internal. -/
def reportFault (f : Fault) : Effect Reporter Unit :=
  let unfit (kind : String) : Effect Reporter Unit :=
    Effect.fail (.defect (.lacking kind "internal"))
  match f with
  | .told m internal => report m internal
  | .rejected _ m => report m false
  | .interrupted => unfit "KeyboardInterrupt"
  | .refused => unfit "RecursionError"
  | .exit _ => unfit "SystemExit"
  | .defect d => unfit d.kind
  | .beyond => Effect.fail f

/-- Deals with a fault that came up. An exit goes on as it is, and what was not foreseen goes on
after it has been reported as an internal error. -/
def settle (f : Fault) : Effect Reporter Unit := do
  match f with
  | .interrupted => report "keyboard interrupt" false
  | .exit _ | .beyond => Effect.fail f
  | .refused => report "maximum recursion depth exceeded" false
  | .told .. | .rejected .. => reportFault f
  | .defect d =>
    let style := (← Effect.get).style
    report ("unknown error: '" ++ style.bold d.kind ++ ": " ++ style.bold d.message ++ "'") true
    Effect.fail f

def guarded (e : Effect Reporter Unit) : Effect Reporter Unit := e.recover settle

end Reporter

end TreeWalk
