import TreeWalk.Text.Blank

namespace TreeWalk

def excerptWidth : Nat := 80

/-- Blanks around the source and after the line are left out; a cut is marked with dots. -/
def excerpt (source : String) : String :=
  let text := trim source.toList
  let line := trimRight (text.takeWhile (· ≠ '\n'))
  String.ofList <|
    if '\n' ∈ text ∨ excerptWidth < line.length then
      line.take (excerptWidth - 4) ++ [' ', '.', '.', '.']
    else line

end TreeWalk
