import TreeWalk.Proofs.Eval.Data

namespace TreeWalk
namespace Value

mutual

def parts : Value → List Value
  | returned v => returned v :: parts v
  | array vs => array vs :: listParts vs
  | hash es => hash es :: entryParts es
  | v => [v]

def listParts : List Value → List Value
  | [] => []
  | v :: vs => parts v ++ listParts vs

def entryParts : List (HashKey × Value × Value) → List Value
  | [] => []
  | (_, k, v) :: es => parts k ++ parts v ++ entryParts es

end

theorem listParts_eq_flatMap (vs : List Value) : listParts vs = vs.flatMap parts := by
  induction vs with
  | nil => rfl
  | cons v vs ih => simp [listParts, ih]

theorem entryParts_eq_flatMap (es : List (HashKey × Value × Value)) :
    entryParts es = es.flatMap fun e => e.2.1.parts ++ e.2.2.parts := by
  induction es with
  | nil => rfl
  | cons e es ih => simp [entryParts, ih]

theorem mem_parts_self (v : Value) : v ∈ v.parts := by
  cases v <;> simp [parts]

theorem mem_parts_array {vs : List Value} {w : Value} :
    w ∈ (array vs).parts ↔ w = array vs ∨ ∃ v ∈ vs, w ∈ v.parts := by
  simp [parts, listParts_eq_flatMap]

theorem mem_parts_hash {es : List (HashKey × Value × Value)} {w : Value} :
    w ∈ (hash es).parts ↔ w = hash es ∨ ∃ e ∈ es, w ∈ e.2.1.parts ∨ w ∈ e.2.2.parts := by
  simp only [parts, entryParts_eq_flatMap, List.mem_cons, List.mem_flatMap, List.mem_append]

theorem mem_parts_returned {v w : Value} :
    w ∈ (returned v).parts ↔ w = returned v ∨ w ∈ v.parts := by
  simp [parts]

theorem mem_parts_of_mem_unwrapped {v w : Value} (h : w ∈ v.unwrapped.parts) : w ∈ v.parts := by
  cases v with
  | returned v => exact mem_parts_returned.mpr (.inr h)
  | _ => exact h

def Everywhere (P : Value → Prop) (v : Value) : Prop := ∀ w ∈ v.parts, P w

instance (P : Value → Prop) [DecidablePred P] (v : Value) : Decidable (v.Everywhere P) :=
  inferInstanceAs (Decidable (∀ w ∈ v.parts, P w))

theorem Everywhere.self {P : Value → Prop} {v : Value} (h : v.Everywhere P) : P v :=
  h v v.mem_parts_self

theorem Everywhere.mono {P Q : Value → Prop} {v : Value} (h : v.Everywhere P)
    (hPQ : ∀ w, P w → Q w) : v.Everywhere Q := fun w hw => hPQ w (h w hw)

theorem Everywhere.unwrapped {P : Value → Prop} {v : Value} (h : v.Everywhere P) :
    v.unwrapped.Everywhere P := fun w hw => h w (mem_parts_of_mem_unwrapped hw)

theorem everywhere_returned {P : Value → Prop} {v : Value} (h : P (returned v))
    (hv : v.Everywhere P) : (returned v).Everywhere P := by
  intro w hw
  rcases mem_parts_returned.mp hw with rfl | hw
  · exact h
  · exact hv w hw

/-- What an operation on values can make that was not there before. -/
inductive Computed (args : List Value) : Value → Prop
  | exact {n : Int} (range : InRange n) : Computed args (.int n)
  | negated {n : Int} (operand : .int n ∈ args) (range : -n ≤ maxInt) : Computed args (.int (-n))
  | stringLength {s : String} (operand : .str s ∈ args) : Computed args (.int s.length)
  | arrayLength {vs : List Value} (operand : .array vs ∈ args) : Computed args (.int vs.length)
  | bool (b : Bool) : Computed args (.bool b)
  | str (s : String) : Computed args (.str s)
  | null : Computed args .null
  | builtin (b : Builtin) : Computed args (.builtin b)
  | array (vs : List Value) : Computed args (.array vs)
  | hash (es : List (HashKey × Value × Value)) : Computed args (.hash es)

/-- An error, or a value each part of which is computed or stood in an operand already. -/
def Derived (args : List Value) (v : Value) : Prop :=
  v.isError ∨ v.Everywhere fun w => Computed args w ∨ ∃ a ∈ args, w ∈ a.parts

theorem Derived.everywhere {P : Value → Prop} {args : List Value} {v : Value}
    (h : Derived args v) (hcomputed : ∀ w, Computed args w → P w)
    (hargs : ∀ a ∈ args, a.Everywhere P) : v.isError ∨ v.Everywhere P := by
  refine h.imp_right fun hv w hw => ?_
  rcases hv w hw with hc | ⟨a, ha, hw⟩
  · exact hcomputed w hc
  · exact hargs a ha w hw

section

variable {args : List Value}

theorem derived_failure (f : Failure) : Derived args f.value := .inl rfl

theorem derived_operand {v : Value} (h : v ∈ args) : Derived args v :=
  .inr fun _ hw => .inr ⟨v, h, hw⟩

theorem derived_atom {v : Value} (h : Computed args v) (hparts : v.parts = [v]) :
    Derived args v := by
  refine .inr fun w hw => .inl ?_
  rw [hparts, List.mem_singleton] at hw
  exact hw ▸ h

theorem derived_int {n : Int} (h : Computed args (.int n)) : Derived args (.int n) :=
  derived_atom h rfl

theorem derived_bool (b : Bool) : Derived args (.bool b) := derived_atom (.bool b) rfl

theorem derived_str (s : String) : Derived args (.str s) := derived_atom (.str s) rfl

theorem derived_null : Derived args .null := derived_atom .null rfl

theorem derived_builtin (b : Builtin) : Derived args (.builtin b) := derived_atom (.builtin b) rfl

theorem derived_array {vs : List Value} (h : ∀ v ∈ vs, ∃ a ∈ args, v.parts ⊆ a.parts) :
    Derived args (.array vs) := by
  refine .inr fun w hw => ?_
  rcases mem_parts_array.mp hw with rfl | ⟨v, hv, hw⟩
  · exact .inl (.array vs)
  · obtain ⟨a, ha, hsub⟩ := h v hv
    exact .inr ⟨a, ha, hsub hw⟩

theorem derived_hash {es : List (HashKey × Value × Value)} (hkeys : ∀ e ∈ es, e.2.1 ∈ args)
    (hvalues : ∀ e ∈ es, e.2.2 ∈ args) : Derived args (.hash es) := by
  refine .inr fun w hw => ?_
  rcases mem_parts_hash.mp hw with rfl | ⟨e, he, hw | hw⟩
  · exact .inl (.hash es)
  · exact .inr ⟨e.2.1, hkeys e he, hw⟩
  · exact .inr ⟨e.2.2, hvalues e he, hw⟩

theorem derived_unwrapped {v : Value} (h : v ∈ args) : Derived args v.unwrapped :=
  .inr fun _ hw => .inr ⟨v, h, mem_parts_of_mem_unwrapped hw⟩

/-- An element, or what is stored in a hash, stands in the operand that holds it. -/
theorem derived_part {v a : Value} (ha : a ∈ args) (h : v.parts ⊆ a.parts) : Derived args v :=
  .inr fun _ hw => .inr ⟨a, ha, h hw⟩

end

theorem parts_subset_array {vs : List Value} {v : Value} (h : v ∈ vs) :
    v.parts ⊆ (array vs).parts := fun _ hw => mem_parts_array.mpr (.inr ⟨v, h, hw⟩)

theorem parts_subset_hash {es : List (HashKey × Value × Value)} {e : HashKey × Value × Value}
    (h : e ∈ es) : e.2.2.parts ⊆ (hash es).parts :=
  fun _ hw => mem_parts_hash.mpr (.inr ⟨e, h, .inr hw⟩)

theorem derived_unary (op : String) (v : Value) : Derived [v] (unary op v) := by
  unfold unary
  split
  · unfold not
    split <;> exact derived_bool _
  · unfold negate
    split
    · split
      · exact derived_failure _
      · next hrange =>
        exact derived_int (.negated List.mem_cons_self (Int.not_lt.mp hrange))
    · exact derived_failure _
  · exact derived_failure _

theorem derived_integerBinary {args : List Value} (op : String) (a b : Int) :
    Derived args (integerBinary op a b) := by
  unfold integerBinary
  split
  · exact derived_bool _
  · exact derived_failure _
  · split
    · exact derived_failure _
    · split
      · next hrange => exact derived_int (.exact hrange)
      · exact derived_failure _

theorem derived_binary (op : String) (l r : Value) : Derived [l, r] (binary op l r) := by
  unfold binary
  split
  · exact derived_failure _
  · split
    · exact derived_integerBinary op _ _
    · split
      · exact derived_str _
      · exact derived_failure _
    · split
      · exact derived_bool _
      · split
        · exact derived_bool _
        · exact derived_failure _
    · exact derived_failure _

theorem derived_element {args vs : List Value} (h : .array vs ∈ args) (position : Int) :
    Derived args (element vs position) := by
  unfold element
  split
  · cases hget : vs[position.toNat]? with
    | none => exact derived_null
    | some v => exact derived_part h (parts_subset_array (List.mem_of_getElem? hget))
  · exact derived_null

theorem derived_index (l p : Value) : Derived [l, p] (index l p) := by
  unfold index
  split
  · exact derived_element List.mem_cons_self _
  · next entries =>
    split
    · next k _ =>
      cases hstored : Ordered.get? entries k with
      | none =>
        rw [stored?, hstored]
        exact derived_null
      | some pair =>
        rw [stored?, hstored]
        have hmem := Ordered.mem_of_get? hstored
        exact derived_part List.mem_cons_self (parts_subset_hash hmem)
    · exact derived_failure _
  · exact derived_failure _

end Value

namespace Builtin

open Value

theorem derived_onArray {b : Builtin} {args : List Value} {k : List Value → Value}
    (hk : ∀ vs, .array vs ∈ args → Derived args (k vs)) : Derived args (b.onArray args k) := by
  unfold onArray
  split
  · exact hk _ List.mem_cons_self
  · exact derived_failure _
  · exact derived_failure _

theorem derived_answer (b : Builtin) (args : List Value) : Derived args (b.answer args) := by
  cases b with
  | len =>
    simp only [answer]
    split
    · exact derived_int (.stringLength List.mem_cons_self)
    · exact derived_int (.arrayLength List.mem_cons_self)
    · exact derived_failure _
    · exact derived_failure _
  | first =>
    refine derived_onArray fun vs hvs => ?_
    cases vs with
    | nil => exact derived_null
    | cons v vs => exact derived_part hvs (parts_subset_array List.mem_cons_self)
  | last =>
    refine derived_onArray fun vs hvs => ?_
    cases hlast : vs.getLast? with
    | none => exact derived_null
    | some v => exact derived_part hvs (parts_subset_array (List.mem_of_getLast? hlast))
  | rest =>
    refine derived_onArray fun vs hvs => ?_
    split
    · exact derived_null
    · refine derived_array fun v hv => ⟨_, hvs, ?_⟩
      exact parts_subset_array (List.mem_of_mem_tail hv)
  | push =>
    simp only [answer]
    split
    · next elements v =>
      refine derived_array fun w hw => ?_
      rcases List.mem_append.mp hw with hw | hw
      · exact ⟨_, List.mem_cons_self, parts_subset_array hw⟩
      · rw [List.mem_singleton.mp hw]
        exact ⟨v, List.mem_cons_of_mem _ List.mem_cons_self, fun _ hx => hx⟩
    · exact derived_failure _
    · exact derived_failure _
  | puts => exact derived_null

end Builtin
end TreeWalk
