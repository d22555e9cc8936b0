import TreeWalk.Value.Failure
import TreeWalk.Value.Inspect

namespace TreeWalk
namespace Builtin

/-- Goes on with the elements of the only argument, which has to be an array. -/
def onArray (b : Builtin) (args : List Value) (k : List Value → Value) : Value :=
  match args with
  | [.array elements] => k elements
  | [v] => (Failure.notArray b v.tag).value
  | _ => (Failure.builtinArity args.length 1).value

def answer (b : Builtin) (args : List Value) : Value :=
  match b with
  | len => match args with
    | [.str s] => .int s.length
    | [.array elements] => .int elements.length
    | [v] => (Failure.noLength v.tag).value
    | _ => (Failure.builtinArity args.length 1).value
  | first => b.onArray args fun elements => elements.head?.getD .null
  | last => b.onArray args fun elements => elements.getLast?.getD .null
  | rest => b.onArray args fun elements => if elements.isEmpty then .null else .array elements.tail
  | push => match args with
    | [.array elements, v] => .array (elements ++ [v])
    | [w, _] => (Failure.notArray b w.tag).value
    | _ => (Failure.builtinArity args.length 2).value
  | puts => .null

def lines (b : Builtin) (args : List Value) : List String :=
  match b with
  | puts => args.map Value.inspect
  | _ => []

end Builtin
end TreeWalk
