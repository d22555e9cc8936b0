namespace TreeWalk

def maxInt : Int := 0x7fffffffffffffff

def minInt : Int := -0x8000000000000000

def InRange (n : Int) : Prop := minInt ≤ n ∧ n ≤ maxInt

instance (n : Int) : Decidable (InRange n) := inferInstanceAs (Decidable (_ ∧ _))

def decimalValue (digits : List Char) : Nat :=
  digits.foldl (fun n c => 10 * n + (c.toNat - '0'.toNat)) 0

/-- No numeral of more digits is converted. -/
def maxDigits : Nat := 4300

end TreeWalk
