import TreeWalk.Session.Basic
import TreeWalk.Session.Brackets

/-! Lines are kept until their brackets are closed. A line that begins with the name of a command
runs it, whatever else it holds. -/
namespace TreeWalk

inductive Command where
  | help | cls | exit | eof
  deriving DecidableEq, Repr

def Command.ofWord? : String → Option Command
  | "help" => some .help
  | "cls" => some .cls
  | "exit" => some .exit
  | "EOF" => some .eof
  | _ => none

structure Shell where
  session : Session
  prompt : String
  /-- What was typed so far of an unfinished source. -/
  pending : String
  lineNumber : Nat

namespace Shell

def intro : String :=
  "Monkey interpreter :: Python backend\nType '?' or 'help' for more information."

def helpText : String :=
  "Welcome to the monkey interpreter!\n\n"
    ++ "Monkey is a small dynamically typed language with integers, booleans, strings, \n"
    ++ "arrays, hashes and first-class functions. The builtins len, first, last, rest, \n"
    ++ "push and puts are always available.\n\n"
    ++ "Try it out by typing 'let add = fn(a, b) \x7b a + b \x7d;'. This will bind a function \n"
    ++ "to the name 'add'. Next, try typing 'add(1, 2)'. This will print 3. Type 'cls' \n"
    ++ "to clear the screen and 'exit' to leave."

def firstPrompt : String := ">> "

def nextPrompt : String := ".. "

def start (reporter : Reporter) (limit : Nat) : Shell :=
  ⟨Session.start (reporter.setFatal false) limit shellPath, firstPrompt, "", 0⟩

def onSession {α : Type} (e : Effect Session α) : Effect Shell α :=
  e.focus session fun s session => { s with session := session }

def settle (f : Fault) : Effect Shell Unit := onSession (Session.onReporter (Reporter.settle f))

def runSource (source : String) (number : Nat) : Effect Session Unit := do
  Session.add source number
  Session.run
  Session.showLatest

def enter (line : String) : Effect Shell Unit := do
  let s ← Effect.get
  let (source, more) := joinLine line s.pending
  if more then
    Effect.modify fun s =>
      { s with lineNumber := s.lineNumber + 1, pending := source, prompt := nextPrompt }
  else
    Effect.modify fun s =>
      { s with lineNumber := s.lineNumber + 1, pending := "", prompt := firstPrompt }
    onSession (Session.guarded (runSource source (s.lineNumber + 1)))

def isCommandChar (c : Char) : Bool := c.isAlphanum || c == '_'

def command? (line : List Char) : Option Command :=
  if line.head? = some '?' then some .help
  else Command.ofWord? (String.ofList (line.takeWhile isCommandChar))

/-- Runs a command; tells whether the shell stops. Clearing the screen is up to the terminal. -/
def perform : Command → Effect Shell Bool
  | .help => do
    Effect.printLine helpText
    return false
  | .cls => return false
  | .exit => return true
  | .eof => do
    Effect.printLine ""
    return true

/-- Takes in a line typed at the prompt; tells whether the shell stops. Blank lines do nothing. -/
def takeLine (line : String) : Effect Shell Bool := do
  let text := trim line.toList
  if text.isEmpty then return false
  match command? text with
  | some c => perform c
  | none =>
    enter (String.ofList text)
    return false

def loop : List String → Effect Shell Unit
  | [] => do
    Effect.print (← Effect.get).prompt
    let _ ← takeLine "EOF"
  | line :: rest => do
    Effect.print (← Effect.get).prompt
    let stop ← takeLine line
    if stop then return () else loop rest

def converse (lines : List String) : Effect Shell Unit := do
  Effect.printLine intro
  loop lines

end Shell

end TreeWalk
