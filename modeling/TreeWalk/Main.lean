import TreeWalk.CommandLine.Run

namespace TreeWalk.Program

open CommandLine

def readFile (path : String) : IO Reading :=
  try
    return .bytes (← IO.FS.readBinFile path).toList
  catch _ => return .unreadable

def conclude (f : Finish) : IO UInt32 := do
  let out ← IO.getStdout
  out.putStr f.output
  out.flush
  (← IO.getStderr).putStr f.errors
  match f.fault with
  | none => return 0
  | some (.exit code) => return (code.getD 0).toNat.toUInt32
  | some (.defect d) =>
    (← IO.getStderr).putStrLn (d.kind ++ ": " ++ d.message)
    return 1
  | some _ => return 1

/-- Prompts, reads a line and runs it, until a line or the end of input stops the shell. -/
partial def converse (shell : Shell) : IO (Reply Shell Unit) := do
  let out ← IO.getStdout
  out.putStr shell.prompt
  out.flush
  let line ← (← IO.getStdin).getLine
  let r := (Shell.takeLine (if line.isEmpty then "EOF" else line)).run shell
  out.putStr r.printed
  match r.outcome with
  | .ok false => converse r.state
  | .ok true => return ⟨"", r.state, .ok ()⟩
  | .error f => return (Shell.settle f).run r.state

end TreeWalk.Program

open TreeWalk TreeWalk.Program in
def main (words : List String) : IO UInt32 := do
  let style : Style := if ← (← IO.getStdout).isTty then .coloured else .plain
  match Invocation.ofWords words with
  | .error r => conclude (CommandLine.refuse r)
  | .ok .shell =>
    IO.println Shell.intro
    conclude (.ofReply (← converse (.start (.start style true) CommandLine.callLimit)))
  | .ok i =>
    let reading ← match i.file? with
      | some file => readFile file
      | none => pure .unreadable
    conclude (CommandLine.perform style i reading [])
