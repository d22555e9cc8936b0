import TreeWalk.CommandLine.Arguments
import TreeWalk.CommandLine.Run
import TreeWalk.CommandLine.Terminal
import TreeWalk.Digest.Sha256
import TreeWalk.Effect
import TreeWalk.Eval.Action
import TreeWalk.Eval.Basic
import TreeWalk.Fault
import TreeWalk.Main
import TreeWalk.Ordered
import TreeWalk.Reporter
import TreeWalk.Session.Basic
import TreeWalk.Session.Brackets
import TreeWalk.Session.Excerpt
import TreeWalk.Shell
import TreeWalk.Store
import TreeWalk.Text.Blank
import TreeWalk.Text.Digit
import TreeWalk.Text.Printable
import TreeWalk.Text.Quoted
import TreeWalk.Text.Style
import TreeWalk.Text.Template
import TreeWalk.Text.Utf8
import TreeWalk.Token.Basic
import TreeWalk.Token.Cursor
import TreeWalk.Token.Lexeme
import TreeWalk.Token.Numeral
import TreeWalk.Token.Scanner
import TreeWalk.Tree.Basic
import TreeWalk.Tree.Parse
import TreeWalk.Tree.Render
import TreeWalk.Value.Basic
import TreeWalk.Value.Builtin
import TreeWalk.Value.Failure
import TreeWalk.Value.Inspect
import TreeWalk.Value.Operator
import TreeWalk.Proofs.Grammar
import TreeWalk.Proofs.Parse.Run
import TreeWalk.Proofs.Parse.Soundness
import TreeWalk.Proofs.Parse.Calls
import TreeWalk.Proofs.Parse.Allowance
import TreeWalk.Proofs.Parse.Completeness
import TreeWalk.Proofs.Canonical
import TreeWalk.Proofs.Parse.Blame
import TreeWalk.Proofs.Parse.Termination
import TreeWalk.Proofs.Parse.Canonical
import TreeWalk.Proofs.Parse.Precedence
import TreeWalk.Proofs.Spelling
import TreeWalk.Proofs.Rendering
import TreeWalk.Proofs.Eval.Data
import TreeWalk.Proofs.Eval.FailStop
import TreeWalk.Proofs.Eval.Safety
import TreeWalk.Proofs.Value.Parts
import TreeWalk.Proofs.Eval.Steps
import TreeWalk.Proofs.Eval.Custody
import TreeWalk.Proofs.Eval.Frame
import TreeWalk.Proofs.Eval.Returns
import TreeWalk.Proofs.Session.Sources
import TreeWalk.Proofs.Session.History
import TreeWalk.Proofs.Session.Integrity
import TreeWalk.Proofs.Session.Returns
import TreeWalk.Proofs.Eval.Limit
import TreeWalk.Proofs.Eval.Matching
import TreeWalk.Proofs.Eval.Irrelevance
import TreeWalk.Proofs.Value.Literal
import TreeWalk.Proofs.Session.ReadBack
import TreeWalk.Proofs.Brackets
import TreeWalk.Proofs.Parse.Nesting
import TreeWalk.Proofs.Eval.Journal
import TreeWalk.Proofs.Parse.Join
import TreeWalk.Proofs.Session.Join
import TreeWalk.Proofs.Session.Commands
import TreeWalk.Proofs.Reporter
import TreeWalk.Proofs.Session.Ledger
import TreeWalk.Proofs.Session.Rejection
import TreeWalk.Proofs.Session.Continuation
import TreeWalk.Proofs.Session.Excerpt
import TreeWalk.Proofs.Session.Shadowing
import TreeWalk.Proofs.Value.Arithmetic
import TreeWalk.Proofs.Value.FiniteMap
import TreeWalk.Proofs.Scopes
import TreeWalk.Proofs.Spacing
import TreeWalk.Proofs.Resumption
