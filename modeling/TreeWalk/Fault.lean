import TreeWalk.Eval.Action
import TreeWalk.Text.Style
import TreeWalk.Text.Template
import TreeWalk.Text.Utf8
import TreeWalk.Tree.Parse

/-! What can end the work of the interpreter itself, as opposed to the errors that programs compute
with. A defect is a fault that was not foreseen. -/
namespace TreeWalk

inductive Defect where
  /-- A numeral too long to be converted. -/
  | overlong (digits : Nat)
  | exhausted
  | template (f : Template.Fault)
  | noResult
  | lacking (form wanted : String)
  | undecodable (f : Utf8.Fault)
  | nulInPath
  | foreign (kind message : String)
  deriving DecidableEq, Repr

namespace Defect

def kind : Defect → String
  | overlong _ | exhausted | nulInPath => "ValueError"
  | template (.noArgument _) => "IndexError"
  | template (.unknownName _) => "KeyError"
  | template _ => "ValueError"
  | noResult => "IndexError"
  | lacking .. => "AttributeError"
  | undecodable _ => "UnicodeDecodeError"
  | foreign kind _ => kind

def message : Defect → String
  | overlong digits =>
    "Exceeds the limit (" ++ toString maxDigits
      ++ " digits) for integer string conversion: value has " ++ toString digits
      ++ " digits; use sys.set_int_max_str_digits() to increase the limit"
  | exhausted => "the source takes more steps than allowed"
  | template f => f.message
  | noResult => "pop from empty list"
  | lacking form wanted => "'" ++ form ++ "' object has no attribute '" ++ wanted ++ "'"
  | undecodable f => f.message
  | nulInPath => "embedded null byte"
  | foreign _ m => m

def ofAbort : Abort → Defect
  | .overlong digits => overlong digits
  | .exhausted => exhausted

end Defect

inductive Fault where
  /-- A message for the user, or about the interpreter itself. -/
  | told (message : String) (internal : Bool)
  | rejected (errors : List String) (message : String)
  | interrupted
  | refused
  | exit (code : Option Int)
  | defect (d : Defect)
  /-- A message was to be made that `Template.Stop.beyond` leaves open. -/
  | beyond
  deriving DecidableEq, Repr

namespace Fault

def ofStop : Template.Stop → Fault
  | .failed f => defect (.template f)
  | .beyond => beyond

/-- A message made from a template, what fills its slots set off in bold. -/
def tell (style : Style) (template : String) (exprs : List String) (internal : Bool) : Fault :=
  match Template.fill template (exprs.map style.bold) with
  | .ok m => told m internal
  | .error e => ofStop e

def rejectionTemplate (errors : List String) : String :=
  toString errors.length ++ " parse " ++ (if errors.length = 1 then "error" else "errors") ++ ":"
    ++ Template.escape (String.join (errors.map ("\n\t" ++ ·)))

def rejection (errors : List String) : Fault :=
  match Template.fill (rejectionTemplate errors) [] with
  | .ok m => rejected errors m
  | .error e => ofStop e

def ofHalt (style : Style) : Halt → Fault
  | .refused => refused
  | .notEvaluable form => tell style "cannot evaluate node of type '\x7b\x7d'" [form] true
  | .nameless form => defect (.lacking form "value")

end Fault

end TreeWalk
