import TreeWalk.Text.Style

/-! The styles that a run from the command line chooses from. -/
namespace TreeWalk

def Colour.code : Colour → String
  | red => "\x1b[31m"
  | magenta => "\x1b[35m"

namespace Style

def plain : Style := ⟨id, fun _ => id⟩

def enclosed (codes text : String) : String := codes ++ text ++ "\x1b[0m"

def coloured : Style := ⟨enclosed "\x1b[1m", fun colour => enclosed ("\x1b[1m" ++ colour.code)⟩

theorem keeps_plain : plain.Keeps := ⟨fun _ => List.infix_rfl, fun _ _ => List.infix_rfl⟩

end Style

end TreeWalk
