import TreeWalk.Text.Quoted
import TreeWalk.Value.Basic

/-! A scope is enclosed by others, which are fixed when it is made. Its number in the store never
changes, so a function can keep it. -/
namespace TreeWalk

structure Scope (β : Type := Builtin) where
  bindings : Ordered String Value
  outer : List ScopeId
  /-- What names stand for that no scope binds. -/
  catalog : String → Option β
  deriving Inhabited

structure Store (β : Type := Builtin) where
  scopes : Array (Scope β)
  deriving Inhabited

namespace Store

variable {β : Type}

def empty : Store β := ⟨#[]⟩

def openRoot (s : Store β) (catalog : String → Option β) : ScopeId × Store β :=
  (s.scopes.size, ⟨s.scopes.push ⟨[], [], catalog⟩⟩)

def enclose (s : Store β) (i : ScopeId) : ScopeId × Store β :=
  let scope : Scope β := match s.scopes[i]? with
    | some outer => ⟨[], i :: outer.outer, outer.catalog⟩
    | none => ⟨[], [], fun _ => none⟩
  (s.scopes.size, ⟨s.scopes.push scope⟩)

/-- Binds a name in one scope, over any binding of it there. -/
def bind (s : Store β) (i : ScopeId) (name : String) (v : Value) : Store β :=
  ⟨s.scopes.modify i fun scope => { scope with bindings := scope.bindings.put name v }⟩

def bindings (s : Store β) (i : ScopeId) : Ordered String Value :=
  ((s.scopes[i]?).map Scope.bindings).getD []

/-- The scope itself and those around it, nearest first. -/
def chain (s : Store β) (i : ScopeId) : List ScopeId :=
  i :: ((s.scopes[i]?).map Scope.outer).getD []

/-- The value of a name in the nearest scope that binds it. -/
def get? (s : Store β) (i : ScopeId) (name : String) : Option Value :=
  (s.chain i).findSome? fun j => (s.bindings j).get? name

def builtin? (s : Store β) (i : ScopeId) (name : String) : Option β :=
  (s.scopes[i]?).bind fun scope => scope.catalog name

theorem bindings_bind_self (s : Store β) {i : ScopeId} (name : String) (v : Value)
    (h : i < s.scopes.size) : (s.bind i name v).bindings i = (s.bindings i).put name v := by
  simp [bindings, bind, Array.getElem_modify, h]

theorem bindings_bind_ne (s : Store β) {i j : ScopeId} (name : String) (v : Value) (h : j ≠ i) :
    (s.bind i name v).bindings j = s.bindings j := by
  simp [bindings, bind, Array.getElem?_modify, Ne.symm h]

@[simp] theorem chain_bind (s : Store β) (i j : ScopeId) (name : String) (v : Value) :
    (s.bind i name v).chain j = s.chain j := by
  by_cases h : i = j <;> simp [chain, bind, Array.getElem?_modify, h, Function.comp_def]

/-- A new scope changes no scope that was there. -/
theorem bindings_enclose (s : Store β) {i j : ScopeId} (h : j < s.scopes.size) :
    (s.enclose i).2.bindings j = s.bindings j := by
  simp [bindings, enclose, Array.getElem?_push, Nat.ne_of_lt h]

@[simp] theorem bindings_enclose_self (s : Store β) (i : ScopeId) :
    (s.enclose i).2.bindings (s.enclose i).1 = [] := by
  simp only [bindings, enclose, Array.getElem?_push_size]
  split <;> rfl

def listing (s : Store β) (i : ScopeId) : List (String × Value) :=
  (s.bindings i).mergeSort fun a b => decide (a.1 ≤ b.1)

def describeChain (s : Store β) : List ScopeId → String
  | [] => "None"
  | i :: rest =>
    "Environment([" ++ ", ".intercalate ((s.listing i).map fun b => quoted b.1)
      ++ "], outer=" ++ describeChain s rest ++ ")"

/-- The names a scope binds, then those of the scopes around it. -/
def describe (s : Store β) (i : ScopeId) : String := s.describeChain (s.chain i)

end Store

end TreeWalk
