import TreeWalk.Proofs.Eval.Repeat

namespace TreeWalk

namespace Store

/-- The scopes that something evaluated in a scope can get hold of: those around a scope, and those
in which functions were made that a scope binds, at any depth. -/
inductive Reaches (st : Store) (start : ScopeId) : ScopeId → Prop
  | self : Reaches st start start
  | outer {i j : ScopeId} (near : Reaches st start i) (h : j ∈ st.chain i) : Reaches st start j
  | captured {i k : ScopeId} {b : String × Value} {ps : List Node} {body : Node}
      (near : Reaches st start i) (hb : b ∈ st.bindings i)
      (hf : .function ps body k ∈ b.2.parts) : Reaches st start k

variable {st : Store} {start i : ScopeId}

theorem WellFormed.reaches_lt (hst : st.WellFormed) (hstart : start < st.scopes.size)
    (h : st.Reaches start i) : i < st.scopes.size := by
  induction h with
  | self => exact hstart
  | outer _ hj ih => exact Nat.lt_of_le_of_lt ((hst.descending _ ih).2 _ hj) ih
  | captured _ hb hf => exact hst.captured _ _ hb _ hf

theorem WellFormed.bind (hst : st.WellFormed) (i : ScopeId) (name : String) {v : Value}
    (hv : v.Everywhere (Value.ScopeBelow st.scopes.size)) : (st.bind i name v).WellFormed := by
  refine ⟨fun j hj => ?_, ?_⟩
  · rw [size_bind] at hj
    simpa only [chain_bind] using hst.chains j hj
  · rw [size_bind]
    exact Holds.bind hst.captured i name hv

/-- A store matches itself with one more name bound, if no function in reach mentions the name. -/
theorem WellFormed.matches_bind (hst : st.WellFormed) (hstart : start < st.scopes.size)
    {name : String} (hunused : ∀ i, st.Reaches start i → ∀ b ∈ st.bindings i,
      b.2.Everywhere fun w => name ∉ w.names) (v : Value) :
    Matches (· = name) (fun i j => i = j ∧ st.Reaches start i) st (st.bind start name v) := by
  refine matches_of_live (fun i hi => hst.reaches_lt hstart hi) (fun i hi j hj => .outer hi hj)
    (fun i hi b hb ps body k hk => .captured hi hb hk) (fun i hi b hb => ?_)
    (fun i _ => fixed_bind st start i name v) fun i _ other hother => ?_
  · refine (hunused i hi b hb).mono fun w hw other hother heq => hw ?_
    exact heq ▸ hother
  · exact get?_bindings_bind_ne st start i v hother

end Store

/-- A program and the same program after binding a name that occurs neither in it nor in a function
in reach show the same under any limit, and leave all other names of the scope bound to values that
look alike. -/
theorem irrelevant_binding (limit : Nat) {st : Store} (hst : st.WellFormed) {scope : ScopeId}
    (hscope : scope < st.scopes.size) {program : Node} {name : String}
    (hprogram : name ∉ program.names)
    (hunused : ∀ i, st.Reaches scope i → ∀ b ∈ st.bindings i,
      b.2.Everywhere fun w => name ∉ w.names) (v : Value) :
    let r := (evaluateWithin limit program scope).run ⟨st, []⟩
    let r' := (evaluateWithin limit program scope).run ⟨st.bind scope name v, []⟩
    SameRun r r' ∧ ∀ other, other ≠ name → Option.Rel Value.LooksLike
      ((r.2.store.bindings scope).get? other) ((r'.2.store.bindings scope).get? other) := by
  have havoids : program.Avoids (· = name) := by
    rintro other hother rfl
    exact hprogram hother
  have hrun := (alike_evaluateWithin limit havoids ⟨rfl, .self⟩).sameRun
    (hst.matches_bind hscope hunused v)
  exact ⟨hrun.1, fun other hother => hrun.2 scope scope ⟨rfl, .self⟩ other hother⟩

def laterLength : Node :=
  .block ⟨.lbrace, "\x7b"⟩ [.exprStmt ⟨.fnWord, "fn"⟩ (.fnLit ⟨.fnWord, "fn"⟩ []
    (.block ⟨.lbrace, "\x7b"⟩ [.exprStmt ⟨.ident, "len"⟩ (.call ⟨.lparen, "("⟩
      (.ident ⟨.ident, "len"⟩ "len") [.ident ⟨.ident, "x"⟩ "x"])]))]

/-- A global scope in which `f` is `fn(x) { fn() { len(x) } }`. -/
def laterLengthStore : Store :=
  (Store.empty.openRoot Builtin.ofName?).2.bind 0 "f"
    (.function [.ident ⟨.ident, "x"⟩ "x"] laterLength 0)

def laterLengthProgram : Node :=
  .program
    [.letStmt ⟨.letWord, "let"⟩ (.ident ⟨.ident, "g"⟩ "g") (.call ⟨.lparen, "("⟩
      (.ident ⟨.ident, "f"⟩ "f") [.arrayLit ⟨.lbracket, "["⟩ []]),
     .exprStmt ⟨.ident, "g"⟩ (.call ⟨.lparen, "("⟩ (.ident ⟨.ident, "g"⟩ "g") [])]

/-- The built-in `first` may be bound anew where nothing in reach mentions it; `len` is in use by
the function bound to `f`. -/
theorem irrelevant_binding_first :
    let v : Value := .array [.int 1]
    let r := (evaluateWithin 2 laterLengthProgram 0).run ⟨laterLengthStore, []⟩
    let r' := (evaluateWithin 2 laterLengthProgram 0).run ⟨laterLengthStore.bind 0 "first" v, []⟩
    laterLengthStore.WellFormed ∧ 0 < laterLengthStore.scopes.size ∧
      "first" ∉ laterLengthProgram.names ∧
      (∀ i, laterLengthStore.Reaches 0 i → ∀ b ∈ laterLengthStore.bindings i,
        b.2.Everywhere fun w => "first" ∉ w.names) ∧
      r.1 = .ok (.int 0) ∧ SameRun r r' ∧
      Option.Rel Value.LooksLike ((r.2.store.bindings 0).get? "g")
        ((r'.2.store.bindings 0).get? "g") := by
  have hscopes : (Value.function [.ident ⟨.ident, "x"⟩ "x"] laterLength 0).Everywhere
      (Value.ScopeBelow (Store.empty.openRoot Builtin.ofName?).2.scopes.size) := by
    decide
  have hst : laterLengthStore.WellFormed :=
    (Store.wellFormed_openRoot Builtin.ofName?).bind 0 "f" hscopes
  have hunused : laterLengthStore.Holds fun w => "first" ∉ w.names := by
    refine (Store.holds_openRoot _ Builtin.ofName?).bind 0 "f" ?_
    decide
  have hscope : 0 < laterLengthStore.scopes.size := Nat.zero_lt_one
  have hprogram : "first" ∉ laterLengthProgram.names := by decide
  have hrun := irrelevant_binding 2 hst hscope hprogram (fun i _ => hunused i) (.array [.int 1])
  exact ⟨hst, hscope, hprogram, fun i _ => hunused i, rfl, hrun.1, hrun.2 "g" (by decide)⟩

end TreeWalk
