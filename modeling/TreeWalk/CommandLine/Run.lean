import TreeWalk.CommandLine.Arguments
import TreeWalk.CommandLine.Terminal
import TreeWalk.Shell
import TreeWalk.Token.Scanner

namespace TreeWalk
namespace CommandLine

def usage : String := "usage: monkey [-h] [--tokens | --ast] [file]\n"

def helpText : String :=
  usage ++ "\npositional arguments:\n"
    ++ "  file        file to interpret and run (if empty, goes to command-line mode)\n"
    ++ "\noptions:\n"
    ++ "  -h, --help  show this help message and exit\n"
    ++ "  --tokens    print the file's tokens instead of running it\n"
    ++ "  --ast       print the file's syntax tree instead of running it\n"

inductive Reading where
  | unreadable
  | bytes (content : List UInt8)

def sourceOf {σ : Type} (style : Style) (path : String) (reading : Reading) : Effect σ String :=
  if path.contains '\x00' then Effect.fail (.defect .nulInPath)
  else match reading with
    | .unreadable => Effect.fail (.tell style "'\x7b\x7d' could not be opened" [path] false)
    | .bytes content => match Utf8.decode content with
      | .ok text => return String.ofList (joinLineEnds text.toList)
      | .error f => Effect.fail (.defect (.undecodable f))

def printTokens (path : String) (reading : Reading) : Effect Reporter Unit := do
  let source ← sourceOf (← Effect.get).style path reading
  Effect.print (linesText ((Scanner.ofText source).drain.1.map Token.text))

def warnAll : List Complaint → Effect Reporter Unit
  | [] => return ()
  | c :: rest => do
    Reporter.warn "\x7b\x7d" [c.message]
    warnAll rest

def printTree (path : String) (reading : Reading) : Effect Reporter Unit := do
  let source ← sourceOf (← Effect.get).style path reading
  match parse source with
  | .error a => Effect.fail (.defect (.ofAbort a))
  | .ok (program, complaints) =>
    warnAll complaints
    Effect.printLine (program.outline 0)

/-- Runs a file and shows its value. The name that stands for typed sources is no file's. -/
def runFile (path : String) (reading : Reading) : Effect Session Unit := do
  let style := (← Effect.get).reporter.style
  if path = shellPath then Effect.fail (.tell style "'<in>' is a reserved filename" [] false)
  Session.add (← sourceOf style path reading) 1
  Session.run
  Session.showLatest

structure Finish where
  output : String
  errors : String
  fault : Option Fault

def Finish.ofReply {σ : Type} (r : Reply σ Unit) : Finish :=
  ⟨r.printed, "", match r.outcome with
    | .ok _ => none
    | .error f => some f⟩

/-- How many calls may be under way at one time. -/
def callLimit : Nat := 2500

def perform (style : Style) (i : Invocation) (reading : Reading) (lines : List String) : Finish :=
  let reporter := Reporter.start style true
  match i with
  | .help => ⟨helpText, "", some (.exit (some 0))⟩
  | .tokens file => .ofReply ((Reporter.guarded (printTokens file reading)).run reporter)
  | .tree file => .ofReply ((Reporter.guarded (printTree file reading)).run reporter)
  | .run file =>
    .ofReply ((Session.guarded (runFile file reading)).run (.start reporter callLimit file))
  | .shell =>
    .ofReply (((Shell.converse lines).recover Shell.settle).run (.start reporter callLimit))

def refuse (r : Arguments.Refusal) : Finish :=
  ⟨"", usage ++ "monkey: error: " ++ r.message ++ "\n", some (.exit (some 2))⟩

/-- The whole program over its words, the files that can be read and the text typed in. -/
def execute (style : Style) (words : List String) (read : String → Reading) (input : String) :
    Finish :=
  match Invocation.ofWords words with
  | .error r => refuse r
  | .ok i =>
    perform style i ((i.file?.map read).getD .unreadable)
      ((textLines (joinLineEnds input.toList)).map String.ofList)

end CommandLine
end TreeWalk
