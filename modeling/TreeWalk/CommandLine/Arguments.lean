import TreeWalk.Text.Digit
import TreeWalk.Text.Quoted

/-! Options may be written by any beginning of their name that fits no other, before or after the
file. Two dashes alone end them, and the two dump options exclude each other. -/
namespace TreeWalk
namespace Arguments

inductive Flag where
  | help | tokens | tree
  deriving DecidableEq, Repr

def Flag.name : Flag → String
  | help => "-h/--help"
  | tokens => "--tokens"
  | tree => "--ast"

def spellings : List (List Char × Flag) :=
  [("-h".toList, .help), ("--help".toList, .help), ("--tokens".toList, .tokens),
    ("--ast".toList, .tree)]

def flag? (word : List Char) : Option Flag := spellings.lookup word

inductive Refusal where
  | ambiguous (word : String) (spellings : List String)
  | explicitArgument (flag : Flag) (argument : String)
  | conflict (flag other : Flag)
  | unrecognized (words : List String)
  | noFile
  deriving DecidableEq, Repr

def Refusal.message : Refusal → String
  | ambiguous word spellings =>
    "ambiguous option: " ++ word ++ " could match " ++ ", ".intercalate spellings
  | explicitArgument flag argument =>
    "argument " ++ flag.name ++ ": ignored explicit argument " ++ quoted argument
  | conflict flag other =>
    "argument " ++ flag.name ++ ": not allowed with argument " ++ other.name
  | unrecognized words => "unrecognized arguments: " ++ " ".intercalate words
  | noFile => "--tokens and --ast require a file"

inductive Word where
  | operand (word : String)
  | dashes
  | flag (spelling : List Char) (flag : Flag) (attached : Option (List Char))
  | unknown (word : String)
  deriving DecidableEq, Repr

def splitEquals (word : List Char) : List Char × Option (List Char) :=
  match word.dropWhile (· ≠ '=') with
  | [] => (word, none)
  | _ :: text => (word.takeWhile (· ≠ '='), some text)

abbrev Candidate := List Char × Flag × Option (List Char)

def longCandidates (word : List Char) : List Candidate :=
  let (name, attached) := splitEquals word
  spellings.filterMap fun (s, f) => if name.isPrefixOf s then some (s, f, attached) else none

/-- The spellings a word of one dash is the beginning of, or that are its first letter. -/
def shortCandidates (word : List Char) : List Candidate :=
  spellings.filterMap fun (s, f) =>
    if s = word.take 2 then some (s, f, some (word.drop 2))
    else if word.isPrefixOf s then some (s, f, none)
    else none

/-- A dash followed by a number, which no option looks like. A line end behind it does not count. -/
def isNegativeNumber (word : List Char) : Bool :=
  match if word.getLast? = some '\n' then word.dropLast else word with
  | '-' :: rest =>
    match rest.dropWhile isDecimal with
    | [] => !rest.isEmpty
    | '.' :: fraction => !fraction.isEmpty && fraction.all isDecimal
    | _ => false
  | _ => false

def classify (word : String) : Except Refusal Word :=
  let cs := word.toList
  match cs with
  | '-' :: second :: _ =>
    match flag? cs, splitEquals cs with
    | some f, _ => return .flag cs f none
    | none, (name, attached) =>
      match attached, flag? name with
      | some a, some f => return .flag name f (some a)
      | _, _ =>
        match if second = '-' then longCandidates cs else shortCandidates cs with
        | [] => return if isNegativeNumber cs ∨ ' ' ∈ cs then .operand word else .unknown word
        | [(s, f, a)] => return .flag s f a
        | several => throw (.ambiguous word (several.map fun c => String.ofList c.1))
  | _ => return .operand word

def classifyAll : List String → Except Refusal (List Word)
  | [] => return []
  | word :: rest =>
    if word = "--" then return .dashes :: rest.map .operand
    else return (← classify word) :: (← classifyAll rest)

/-- Whether the file was given. Right after it, and before it, two dashes belong to it. -/
inductive Slot where
  | free
  | filled (file : String) (just : Bool)
  deriving DecidableEq, Repr

structure State where
  slot : Slot
  tokens : Bool
  tree : Bool
  /-- Words without a meaning, latest first. -/
  extras : List String
  deriving DecidableEq, Repr

def State.start : State := ⟨.free, false, false, []⟩

def State.settled (s : State) : State :=
  match s.slot with
  | .filled file _ => { s with slot := .filled file false }
  | .free => s

/-- Sets a flag. The answer is `none` where help is asked for. -/
def State.set (s : State) : Flag → Except Refusal (Option State)
  | .help => return none
  | .tokens =>
    if s.tree then throw (.conflict .tokens .tree) else return some { s with tokens := true }
  | .tree =>
    if s.tokens then throw (.conflict .tree .tokens) else return some { s with tree := true }

/-- What is wrong with the text attached to a flag of one letter. Its letters may be flags of one
letter too; from the first that is none, the text is an argument, and no flag takes one. -/
def letterFault? (flag : Flag) : List Char → Option Refusal
  | [] => some (.explicitArgument flag "")
  | c :: rest =>
    match flag? ['-', c], rest with
    | none, _ => some (.explicitArgument flag (String.ofList (c :: rest)))
    | some _, [] => none
    | some f, d :: rest => letterFault? f (d :: rest)

def attachedFault? (spelling : List Char) (flag : Flag) (attached : List Char) : Option Refusal :=
  if spelling.take 2 = ['-', '-'] then some (.explicitArgument flag (String.ofList attached))
  else letterFault? flag attached

def step (s : State) : Word → Except Refusal (Option State)
  | .operand word =>
    match s.slot with
    | .free => return some { s with slot := .filled word true }
    | .filled .. => return some { s.settled with extras := word :: s.extras }
  | .dashes =>
    match s.slot with
    | .free | .filled _ true => return some s.settled
    | .filled _ false => return some { s with extras := "--" :: s.extras }
  | .unknown word => return some { s.settled with extras := word :: s.extras }
  | .flag spelling f attached =>
    match attached.bind (attachedFault? spelling f) with
    | some r => throw r
    | none => s.settled.set f

/-- Takes the words in order; stops where help is asked for. -/
def steps : State → List Word → Except Refusal (Option State)
  | s, [] => return some s
  | s, w :: rest => do
    match ← step s w with
    | some s => steps s rest
    | none => return none

end Arguments

inductive Invocation where
  | help
  | tokens (file : String)
  | tree (file : String)
  | run (file : String)
  | shell
  deriving DecidableEq, Repr

namespace Invocation

open Arguments

def ofState (s : State) : Except Refusal Invocation :=
  if s.extras.isEmpty then
    match s.slot with
    | .filled file _ =>
      return if s.tokens then .tokens file else if s.tree then .tree file else .run file
    | .free => if s.tokens || s.tree then throw .noFile else return .shell
  else throw (.unrecognized s.extras.reverse)

def ofWords (words : List String) : Except Refusal Invocation := do
  match ← steps .start (← classifyAll words) with
  | some s => ofState s
  | none => return .help

def file? : Invocation → Option String
  | tokens file | tree file | run file => some file
  | help | shell => none

end Invocation

end TreeWalk
