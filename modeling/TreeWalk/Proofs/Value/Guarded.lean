import TreeWalk.Value.Builtin
import TreeWalk.Value.Operator

/-! Operators and built-ins with every step that is not defined everywhere made explicit. The checks
that stand before these steps are enough. -/
namespace TreeWalk
namespace Value

def quotient? (a b : Int) : Option Int := if b = 0 then none else some (a.tdiv b)

def partialArithmetic? : String → Option (Int → Int → Option Int)
  | "+" => some fun a b => some (a + b)
  | "-" => some fun a b => some (a - b)
  | "*" => some fun a b => some (a * b)
  | "/" => some quotient?
  | _ => none

def guardedInteger (operator : String) (a b : Int) : Option Value :=
  match comparison? operator, partialArithmetic? operator with
  | some compare, _ => some (bool (compare a b))
  | none, none => some (Failure.unknownBinary .integer operator .integer).value
  | none, some compute =>
    if operator = "/" ∧ b = 0 then some (Failure.divisionByZero a).value
    else (compute a b).map fun n =>
      if InRange n then int n else (Failure.overflow a operator b).value

def guardedBinary (operator : String) (left right : Value) : Option Value :=
  match left, right with
  | int a, int b => guardedInteger operator a b
  | _, _ => some (binary operator left right)

def guardedElement (elements : List Value) (position : Int) : Option Value :=
  if 0 ≤ position ∧ position < elements.length then elements[position.toNat]? else some null

def guardedIndex (left position : Value) : Option Value :=
  match left, position with
  | array elements, int n => guardedElement elements n
  | _, _ => some (index left position)

theorem partialArithmetic?_of_none {operator : String} (h : arithmetic? operator = none) :
    partialArithmetic? operator = none := by
  unfold arithmetic? at h
  split at h
  · cases h
  · cases h
  · cases h
  · cases h
  · unfold partialArithmetic?
    split
    · contradiction
    · contradiction
    · contradiction
    · contradiction
    · rfl

/-- Away from division by zero the partial operations are the total ones. -/
theorem partialArithmetic?_of_some {operator : String} {compute : Int → Int → Int}
    (h : arithmetic? operator = some compute) :
    ∃ compute', partialArithmetic? operator = some compute' ∧
      ∀ a b, ¬ (operator = "/" ∧ b = 0) → compute' a b = some (compute a b) := by
  unfold arithmetic? at h
  split at h
  · cases h
    exact ⟨_, rfl, fun _ _ _ => rfl⟩
  · cases h
    exact ⟨_, rfl, fun _ _ _ => rfl⟩
  · cases h
    exact ⟨_, rfl, fun _ _ _ => rfl⟩
  · cases h
    refine ⟨_, rfl, fun a b hb => ?_⟩
    rw [quotient?, if_neg fun hzero => hb ⟨rfl, hzero⟩]
  · cases h

theorem guardedInteger_eq (operator : String) (a b : Int) :
    guardedInteger operator a b = some (integerBinary operator a b) := by
  unfold guardedInteger integerBinary
  cases comparison? operator with
  | some compare => rfl
  | none =>
    cases harith : arithmetic? operator with
    | none => rw [partialArithmetic?_of_none harith]
    | some compute =>
      obtain ⟨compute', hpartial, heq⟩ := partialArithmetic?_of_some harith
      by_cases hb : operator = "/" ∧ b = 0
      · simp only [hpartial, if_pos hb]
      · simp only [hpartial, if_neg hb, heq a b hb, Option.map_some]

theorem guardedBinary_eq (operator : String) (left right : Value) :
    guardedBinary operator left right = some (binary operator left right) := by
  unfold guardedBinary
  split
  · next a b =>
    rw [guardedInteger_eq]
    rfl
  · rfl

theorem guardedElement_eq (elements : List Value) (position : Int) :
    guardedElement elements position = some (element elements position) := by
  unfold guardedElement element
  by_cases hle : 0 ≤ position
  · by_cases hlt : position < elements.length
    · have hlt' : position.toNat < elements.length := by omega
      rw [if_pos ⟨hle, hlt⟩, if_pos hle, List.getElem?_eq_getElem hlt']
      rfl
    · have hge : elements.length ≤ position.toNat := by omega
      rw [if_neg fun h => hlt h.2, if_pos hle, List.getElem?_eq_none hge]
      rfl
  · rw [if_neg fun h => hle h.1, if_neg hle]

theorem guardedIndex_eq (left position : Value) :
    guardedIndex left position = some (index left position) := by
  unfold guardedIndex
  split
  · rw [guardedElement_eq]
    rfl
  · rfl

end Value

namespace Builtin

def guardedArray (b : Builtin) (args : List Value) (k : List Value → Option Value) :
    Option Value :=
  if args.length ≠ 1 then some (Failure.builtinArity args.length 1).value
  else args[0]?.bind fun
    | .array elements => k elements
    | v => some (Failure.notArray b v.tag).value

def guardedAnswer (b : Builtin) (args : List Value) : Option Value :=
  match b with
  | len =>
    if args.length ≠ 1 then some (Failure.builtinArity args.length 1).value
    else args[0]?.map fun
      | .str s => .int s.length
      | .array elements => .int elements.length
      | v => (Failure.noLength v.tag).value
  | first => b.guardedArray args fun elements =>
      if elements.isEmpty then some .null else elements[0]?
  | last => b.guardedArray args fun elements =>
      if elements.isEmpty then some .null else elements[elements.length - 1]?
  | rest => b.guardedArray args fun elements =>
      some (if elements.isEmpty then .null else .array elements.tail)
  | push =>
    if args.length ≠ 2 then some (Failure.builtinArity args.length 2).value
    else args[0]?.bind fun
      | .array elements => args[1]?.map fun v => .array (elements ++ [v])
      | w => some (Failure.notArray b w.tag).value
  | puts => some .null

theorem guardedArray_eq (b : Builtin) (args : List Value) {k : List Value → Option Value}
    {k' : List Value → Value} (hk : ∀ elements, k elements = some (k' elements)) :
    b.guardedArray args k = some (b.onArray args k') := by
  match args with
  | [] => rfl
  | [v] => cases v with
    | array elements => exact hk elements
    | _ => rfl
  | _ :: _ :: _ => simp [guardedArray, onArray]

theorem guardedAnswer_eq (b : Builtin) (args : List Value) :
    b.guardedAnswer args = some (b.answer args) := by
  cases b with
  | len =>
    rcases args with _ | ⟨v, _ | ⟨w, args⟩⟩
    · rfl
    · cases v <;> rfl
    · simp [guardedAnswer, answer]
  | first =>
    refine guardedArray_eq _ _ fun elements => ?_
    cases elements <;> rfl
  | last =>
    refine guardedArray_eq _ _ fun elements => ?_
    rw [List.getLast?_eq_getElem?]
    cases elements with
    | nil => rfl
    | cons v vs => simp
  | rest => exact guardedArray_eq _ _ fun _ => rfl
  | push =>
    rcases args with _ | ⟨w, _ | ⟨v, _ | ⟨u, args⟩⟩⟩
    · rfl
    · cases w <;> rfl
    · cases w <;> rfl
    · simp [guardedAnswer, answer]
  | puts => rfl

end Builtin
end TreeWalk
