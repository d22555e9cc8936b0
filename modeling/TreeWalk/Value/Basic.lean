import TreeWalk.Digest.Sha256
import TreeWalk.Ordered
import TreeWalk.Tree.Basic

/-! Errors are values, and so is the value of a return statement on its way out of a function body.
A function keeps the number of the scope it was made in. -/
namespace TreeWalk

inductive Tag where
  | integer | boolean | null | returned | error | function | string | builtin | array | hash
  deriving DecidableEq, Repr

def Tag.name : Tag → String
  | integer => "INTEGER_OBJ" | boolean => "BOOLEAN_OBJ" | null => "NULL_OBJ"
  | returned => "RETURN_VALUE_OBJ" | error => "ERROR_OBJ" | function => "FUNCTION_OBJ"
  | string => "STRING_OBJ" | builtin => "BUILTIN_OBJ" | array => "ARRAY_OBJ" | hash => "HASH_OBJ"

structure HashKey where
  tag : Tag
  digest : Int
  deriving DecidableEq, Repr

inductive Builtin where
  | len | first | last | rest | push | puts
  deriving DecidableEq, Repr

namespace Builtin

def name : Builtin → String
  | len => "len" | first => "first" | last => "last" | rest => "rest" | push => "push"
  | puts => "puts"

def all : List Builtin := [len, first, last, rest, push, puts]

def ofName? (s : String) : Option Builtin := all.find? (·.name == s)

end Builtin

abbrev ScopeId := Nat

inductive Value where
  | int (n : Int)
  | bool (b : Bool)
  | str (s : String)
  | null
  | returned (v : Value)
  | error (message : String)
  | array (elements : List Value)
  | hash (entries : List (HashKey × Value × Value))
  | function (parameters : List Node) (body : Node) (scope : ScopeId)
  | builtin (b : Builtin)
  deriving Repr, Inhabited

namespace Value

def tag : Value → Tag
  | int _ => .integer
  | bool _ => .boolean
  | str _ => .string
  | null => .null
  | returned _ => .returned
  | error _ => .error
  | array _ => .array
  | hash _ => .hash
  | function .. => .function
  | builtin _ => .builtin

def isError : Value → Bool
  | error _ => true
  | _ => false

def truthy : Value → Bool
  | null => false
  | bool b => b
  | _ => true

/-- The digest of a string: the first eight bytes of its SHA-256. -/
def stringDigest (s : String) : Nat := Sha256.leading s.toUTF8.toList

def hashKey? : Value → Option HashKey
  | int n => some ⟨.integer, n⟩
  | bool b => some ⟨.boolean, if b then 1 else 0⟩
  | str s => some ⟨.string, stringDigest s⟩
  | _ => none

/-- Values of these types are the same when their contents are; two arrays, hashes, functions or
returned values made apart never are. -/
def sameContent : Value → Value → Bool
  | int a, int b => a == b
  | bool a, bool b => a == b
  | str a, str b => a == b
  | null, null => true
  | error a, error b => a == b
  | builtin a, builtin b => a == b
  | _, _ => false

/-- What a hash holds under a key. -/
def stored? (entries : List (HashKey × Value × Value)) (k : HashKey) : Option Value :=
  (Ordered.get? entries k).map (·.2)

end Value

end TreeWalk
