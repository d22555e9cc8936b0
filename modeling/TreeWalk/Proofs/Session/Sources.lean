import Mathlib
import TreeWalk.CommandLine.Terminal
import TreeWalk.Proofs.Eval.Safety
import TreeWalk.Proofs.Value.Guarded
import TreeWalk.Session.Basic

namespace TreeWalk

/-- The global scope with its store before any source is run. -/
def fresh : ScopeId × Store := Store.empty.openRoot Builtin.ofName?

def storeAfter (style : Style) (limit : Nat) (sources : List String) : Store :=
  sources.foldl
    (fun store source => ((runSource style limit source fresh.1).run store).state) fresh.2

theorem runSource_of_parse (style : Style) (limit : Nat) {source : String} {program : Node}
    (h : parse source = .ok (program, [])) (scope : ScopeId) (store : Store) :
    (runSource style limit source scope).run store =
      let r := (evaluateWithin limit program scope).run ⟨store, []⟩
      ⟨linesText r.2.lines, r.2.store, (r.1.mapError (Fault.ofHalt style)).map .ok⟩ := by
  unfold runSource
  rw [h]
  simp only [Effect.run, bind, Effect.andThen, Effect.ofAction]
  rcases (evaluateWithin limit program scope).run ⟨store, []⟩ with ⟨_ | v, s⟩
  · rfl
  · simp [Except.mapError, Except.map, pure]

/-- A source that is not read without complaint changes nothing. -/
theorem state_runSource_of_rejected (style : Style) (limit : Nat) {source : String}
    (h : ∀ program, parse source ≠ .ok (program, [])) (scope : ScopeId) (store : Store) :
    ((runSource style limit source scope).run store).state = store := by
  unfold runSource
  split
  · rfl
  · next program hparse => exact absurd hparse (h program)
  · rfl

theorem Store.Sound.state {store : Store} (h : store.Sound) : State.Sound ⟨store, []⟩ :=
  ⟨h, List.forall_mem_nil _⟩

theorem sound_runSource (style : Style) (limit : Nat) (source : String) (scope : ScopeId)
    {store : Store} (h : store.Sound) :
    ((runSource style limit source scope).run store).state.Sound := by
  by_cases hparse : ∃ program, parse source = .ok (program, [])
  · obtain ⟨program, hparse⟩ := hparse
    have hrun := ensures_evaluateWithin limit (whole_of_parse hparse) scope _ h.state
    rw [runSource_of_parse style limit hparse]
    exact hrun.1.store
  · rwa [state_runSource_of_rejected style limit fun program heq => hparse ⟨program, heq⟩]

theorem sound_storeAfter (style : Style) (limit : Nat) (sources : List String) :
    (storeAfter style limit sources).Sound := by
  refine List.foldlRecOn sources _ (Store.sound_openRoot Builtin.ofName?) ?_
  intro store hstore source _
  exact sound_runSource style limit source fresh.1 hstore

theorem outcome_runSource (style : Style) (limit : Nat) {source : String} {program : Node}
    (h : parse source = .ok (program, [])) (scope : ScopeId) {store : Store} (hs : store.Sound) :
    (∃ v, ((runSource style limit source scope).run store).outcome = .ok (.ok v)) ∨
      ((runSource style limit source scope).run store).outcome = .error .refused := by
  have hrun := ensures_evaluateWithin limit (whole_of_parse h) scope _ hs.state
  rw [runSource_of_parse style limit h]
  generalize (evaluateWithin limit program scope).run ⟨store, []⟩ = r at hrun ⊢
  rcases r with ⟨halt | v, s⟩
  · have hhalt : halt = .refused := hrun.2
    subst hhalt
    exact .inr rfl
  · exact .inl ⟨v, rfl⟩

/-- A source without complaints runs to a value or is refused, and no operator and no built-in
takes a step that is not defined, whatever it is given. -/
theorem runSource_safe (style : Style) (limit : Nat) (earlier : List String) {source : String}
    {program : Node} (h : parse source = .ok (program, [])) :
    ((∃ v, ((runSource style limit source fresh.1).run (storeAfter style limit earlier)).outcome =
        .ok (.ok v)) ∨
      ((runSource style limit source fresh.1).run (storeAfter style limit earlier)).outcome =
        .error .refused) ∧
    (∀ operator l r, Value.guardedBinary operator l r = some (Value.binary operator l r)) ∧
    (∀ l p, Value.guardedIndex l p = some (Value.index l p)) ∧
    ∀ (b : Builtin) args, b.guardedAnswer args = some (b.answer args) :=
  ⟨outcome_runSource style limit h fresh.1 (sound_storeAfter style limit earlier),
    Value.guardedBinary_eq, Value.guardedIndex_eq, Builtin.guardedAnswer_eq⟩

/-- A closure of an earlier source is called after a source that was rejected. -/
theorem runSource_safe_closure :
    ∃ program, parse "f(puts)[9] / 0" = .ok (program, []) ∧
      ((∃ v, ((runSource .plain 10 "f(puts)[9] / 0" fresh.1).run
          (storeAfter .plain 10 ["let f = fn(x) \x7b [x, [x]] \x7d", "f("])).outcome =
            .ok (.ok v)) ∨
        ((runSource .plain 10 "f(puts)[9] / 0" fresh.1).run
          (storeAfter .plain 10 ["let f = fn(x) \x7b [x, [x]] \x7d", "f("])).outcome =
          .error .refused) := by
  have hparse : parse "f(puts)[9] / 0" = .ok (.program [.exprStmt ⟨.ident, "f"⟩
      (.binary ⟨.slash, "/"⟩ "/"
        (.index ⟨.lbracket, "["⟩
          (.call ⟨.lparen, "("⟩ (.ident ⟨.ident, "f"⟩ "f") [.ident ⟨.ident, "puts"⟩ "puts"])
          (.intLit ⟨.int, "9"⟩ 9))
        (.intLit ⟨.int, "0"⟩ 0))], []) := by
    cbv
  exact ⟨_, hparse, (runSource_safe .plain 10 _ hparse).1⟩

end TreeWalk
