import TreeWalk.Fault

/-! Steps that may print, change a state and end with a fault. What was printed and changed before a
fault stays. -/
namespace TreeWalk

structure Reply (σ α : Type) where
  printed : String
  state : σ
  outcome : Except Fault α

def Effect (σ α : Type) := σ → Reply σ α

namespace Effect

variable {σ τ α β : Type}

def run (e : Effect σ α) (s : σ) : Reply σ α := e s

def andThen (e : Effect σ α) (k : α → Effect σ β) : Effect σ β := fun s =>
  let r := e s
  match r.outcome with
  | .ok a =>
    let r' := k a r.state
    ⟨r.printed ++ r'.printed, r'.state, r'.outcome⟩
  | .error f => ⟨r.printed, r.state, .error f⟩

instance : Monad (Effect σ) where
  pure a := fun s => ⟨"", s, .ok a⟩
  bind := andThen

def get : Effect σ σ := fun s => ⟨"", s, .ok s⟩

def modify (f : σ → σ) : Effect σ Unit := fun s => ⟨"", f s, .ok ()⟩

def print (text : String) : Effect σ Unit := fun s => ⟨text, s, .ok ()⟩

def printLine (text : String) : Effect σ Unit := print (text ++ "\n")

def fail (f : Fault) : Effect σ α := fun s => ⟨"", s, .error f⟩

/-- Handles a fault where the step ended; what it did stays. -/
def recover (e : Effect σ α) (handle : Fault → Effect σ α) : Effect σ α := fun s =>
  let r := e s
  match r.outcome with
  | .ok a => ⟨r.printed, r.state, .ok a⟩
  | .error f =>
    let r' := handle f r.state
    ⟨r.printed ++ r'.printed, r'.state, r'.outcome⟩

def focus (part : σ → τ) (replace : σ → τ → σ) (e : Effect τ α) : Effect σ α := fun s =>
  let r := e (part s)
  ⟨r.printed, replace s r.state, r.outcome⟩

end Effect

end TreeWalk
