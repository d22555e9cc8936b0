import TreeWalk.Proofs.Session.History

namespace TreeWalk

namespace Value

def ErrorFree (v : Value) : Prop := v.Everywhere fun w => w.isError = false

instance (v : Value) : Decidable v.ErrorFree := inferInstanceAs (Decidable (v.Everywhere _))

end Value

theorem custody_errorFree (n : Node) (scope : ScopeId) (k : Nat) :
    Custody (.evaluating n scope k) (fun _ => True) (fun _ w => w.isError = false)
      fun _ _ _ => True where
  fit_step _ h := h
  tree_step _ h := h
  tree _ _ := trivial
  value _ h := h.elim
  child _ _ := trivial
  body _ _ := trivial
  literal _ := rfl
  closure _ := rfl
  returned _ := rfl
  computed h _ := by cases h <;> rfl

/-- Whatever sources are run: nothing that is bound is or holds an error, a value that is computed
is an error or holds none, and the same happens when each call first makes sure that no argument is
or holds an error. -/
theorem errors_never_kept (style : Style) (limit : Nat) (sources : List String) :
    (∀ i name v, .bound i name v ∈ history style limit sources → v.ErrorFree) ∧
    (∀ n v, .completed n v ∈ history style limit sources → v.isError ∨ v.ErrorFree) ∧
    (∀ i, ∀ b ∈ (storeAfter style limit sources).bindings i, b.2.ErrorFree) ∧
    ∀ program : Node,
      (eval (applyChecked (fun v => v.ErrorFree) limit) program fresh.1).run
          ⟨storeAfter style limit sources, []⟩ =
        (evaluateWithin limit program fresh.1).run ⟨storeAfter style limit sources, []⟩ := by
  have hc (program : Node) := custody_errorFree program fresh.1 0
  obtain ⟨hstore, hevents⟩ := custody_history style limit
    (fun source (_ : source ∈ sources) program _ => hc program) fun _ _ _ => trivial
  refine ⟨fun i name v h => hevents _ h, fun n v h => hevents _ h, hstore, fun program => ?_⟩
  obtain ⟨_, _, hchecked⟩ := custody_evaluate (hc program) hstore fun _ _ _ => trivial
  exact hchecked _ fun v hv => decide_eq_true hv

namespace Value

def IntInRange : Value → Prop
  | .int n => InRange n
  | _ => True

instance : DecidablePred IntInRange := fun
  | .int n => inferInstanceAs (Decidable (InRange n))
  | .bool _ | .str _ | .null | .returned _ | .error _ | .array _ | .hash _ | .function ..
  | .builtin _ => .isTrue trivial

/-- A string or an array with fewer than 2^63 elements, or something else. -/
def Storable : Value → Prop
  | .str s => s.length < 2 ^ 63
  | .array vs => vs.length < 2 ^ 63
  | _ => True

instance : DecidablePred Storable := fun
  | .str s => inferInstanceAs (Decidable (s.length < 2 ^ 63))
  | .array vs => inferInstanceAs (Decidable (vs.length < 2 ^ 63))
  | .int _ | .bool _ | .null | .returned _ | .error _ | .hash _ | .function .. | .builtin _ =>
    .isTrue trivial

/-- What integers have to be, and functions so that their bodies give no other integers. -/
def Ranged : Value → Prop
  | .int n => InRange n
  | .function _ body _ => body.Whole
  | _ => True

theorem Ranged.intInRange {v : Value} (h : v.Ranged) : v.IntInRange := by
  cases v with
  | int n => exact h
  | _ => trivial

end Value

def Event.values : Event → List Value
  | .completed _ v | .bound _ _ v => [v]
  | .entered .. | .printed _ => []

theorem Node.Whole.children {n : Node} (h : n.Whole) : ∀ c ∈ n.children, c.Whole := by
  cases h with
  | program hs | block hs => exact hs
  | letStmt _ hv | returnStmt hv | exprStmt hv | unary hv => exact List.forall_mem_singleton.mpr hv
  | binary hl hr | index hl hr =>
    exact List.forall_mem_cons.mpr ⟨hl, List.forall_mem_singleton.mpr hr⟩
  | ifThen hc ha => exact List.forall_mem_cons.mpr ⟨hc, List.forall_mem_singleton.mpr ha⟩
  | @ifElse _ _ _ b hc ha hb =>
    cases hmissing : b.isMissing <;> simp [Node.children, hmissing, hc, ha, hb]
  | call hf hargs => exact List.forall_mem_cons.mpr ⟨hf, hargs⟩
  | array hes => exact hes
  | hash hkeys hvalues =>
    intro c hc
    obtain ⟨p, hp, hc⟩ := List.mem_flatMap.mp hc
    rcases List.mem_cons.mp hc with rfl | hc
    · exact hkeys p hp
    · exact List.mem_singleton.mp hc ▸ hvalues p hp
  | _ => exact List.forall_mem_nil _

theorem inRange_neg {n : Int} (h : InRange n) (hn : -n ≤ maxInt) : InRange (-n) := by
  obtain ⟨_, hmax⟩ := h
  unfold InRange minInt maxInt at *
  omega

theorem inRange_length {n : Nat} (h : n < 2 ^ 63) : InRange n := by
  unfold InRange minInt maxInt
  omega

theorem custody_ranged {program : Node} (hprogram : program.Whole) (scope : ScopeId) (k : Nat) :
    Custody (.evaluating program scope k) (Value.Everywhere Value.Storable)
      (fun _ => Value.Ranged) fun _ n _ => n.Whole where
  fit_step _ h := h
  tree_step _ h := h
  tree _ h := h.1 ▸ hprogram
  value _ h := h.elim
  child h hc := h.children _ hc
  body h _ := h
  literal h := by
    cases h with
    | int range => exact range
  closure h := by
    cases h with
    | function _ body => exact body
  returned _ := trivial
  computed h hargs := by
    cases h with
    | exact range => exact range
    | negated operand range => exact inRange_neg (hargs _ operand).1.self range
    | stringLength operand => exact inRange_length (hargs _ operand).2.self
    | arrayLength operand => exact inRange_length (hargs _ operand).2.self
    | _ => trivial

/-- Whatever sources are run: as long as no string and no array has 2^63 elements, every integer in
a value that is computed, bound or passed as an argument is one of 64 bits. -/
theorem integers_in_range (style : Style) (limit : Nat) (sources : List String)
    (hstorable : ∀ e ∈ history style limit sources, ∀ v ∈ e.values, v.Everywhere Value.Storable) :
    (∀ e ∈ history style limit sources, ∀ v ∈ e.values, v.Everywhere Value.IntInRange) ∧
    (∀ i, ∀ b ∈ (storeAfter style limit sources).bindings i, b.2.Everywhere Value.IntInRange) ∧
    ∀ earlier source later program, sources = earlier ++ source :: later →
      parse source = .ok (program, []) →
      (eval (applyChecked (fun v => v.Everywhere Value.IntInRange) limit) program fresh.1).run
          ⟨storeAfter style limit earlier, []⟩ =
        (evaluateWithin limit program fresh.1).run ⟨storeAfter style limit earlier, []⟩ := by
  have hc (source : String) (program : Node) (hparse : parse source = .ok (program, [])) :=
    custody_ranged (whole_of_parse hparse) fresh.1 0
  have hcompleted (n : Node) (v : Value) (h : .completed n v ∈ history style limit sources) :
      v.Everywhere Value.Storable := hstorable _ h v (List.mem_singleton.mpr rfl)
  obtain ⟨hstore, hevents⟩ :=
    custody_history style limit (fun source _ program hparse => hc source program hparse) hcompleted
  refine ⟨fun e he v hv => ?_, fun i b hb => ?_, ?_⟩
  · have hsatisfies := hevents e he
    cases e with
    | completed n w =>
      rw [List.mem_singleton.mp hv]
      rcases hsatisfies with herror | hw
      · obtain ⟨message, rfl⟩ := Value.eq_error_of_isError herror
        exact List.forall_mem_singleton.mpr trivial
      · exact hw.mono fun _ => Value.Ranged.intInRange
    | bound i name w =>
      rw [List.mem_singleton.mp hv]
      exact Value.Everywhere.mono hsatisfies fun _ => Value.Ranged.intInRange
    | entered | printed => cases hv
  · exact (hstore i b hb).mono fun _ => Value.Ranged.intInRange
  · rintro earlier source later program rfl hparse
    rw [history_append, historyFrom] at hcompleted
    obtain ⟨hearlier, _⟩ := custody_history style limit
      (fun source _ program hparse => hc source program hparse)
      fun n v hv => hcompleted n v (List.mem_append_left _ hv)
    obtain ⟨_, _, hchecked⟩ := custody_evaluate (hc source program hparse) hearlier fun n v hv => by
      refine hcompleted n v (List.mem_append_right _ (List.mem_append_left _ ?_))
      rw [eventsOf_of_parse limit hparse]
      exact List.mem_reverse.mpr hv
    exact hchecked _ fun v hv => decide_eq_true (hv.mono fun _ => Value.Ranged.intInRange)

theorem integers_in_range_extremes :
    (∀ e ∈ history .plain 10 ["let a = [len(\"ab\"), -9223372036854775807 - 1]"], ∀ v ∈ e.values,
      v.Everywhere Value.Storable) ∧
    ∀ i, ∀ b ∈ (storeAfter .plain 10
        ["let a = [len(\"ab\"), -9223372036854775807 - 1]"]).bindings i,
      b.2.Everywhere Value.IntInRange := by
  have hparse : parse "let a = [len(\"ab\"), -9223372036854775807 - 1]" = .ok (.program
      [.letStmt ⟨.letWord, "let"⟩ (.ident ⟨.ident, "a"⟩ "a") (.arrayLit ⟨.lbracket, "["⟩
        [.call ⟨.lparen, "("⟩ (.ident ⟨.ident, "len"⟩ "len") [.strLit ⟨.string, "ab"⟩ "ab"],
          .binary ⟨.minus, "-"⟩ "-"
            (.unary ⟨.minus, "-"⟩ "-" (.intLit ⟨.int, "9223372036854775807"⟩ 9223372036854775807))
            (.intLit ⟨.int, "1"⟩ 1)])], []) := by
    cbv
  have hstorable : ∀ e ∈ history .plain 10 ["let a = [len(\"ab\"), -9223372036854775807 - 1]"],
      ∀ v ∈ e.values, v.Everywhere Value.Storable := by
    rw [history, historyFrom, historyFrom, List.append_nil, eventsOf_of_parse 10 hparse]
    decide
  exact ⟨hstorable, (integers_in_range .plain 10 _ hstorable).2.1⟩

end TreeWalk
