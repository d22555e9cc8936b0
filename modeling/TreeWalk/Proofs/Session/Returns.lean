import TreeWalk.Proofs.Eval.Returns
import TreeWalk.Proofs.Session.History

namespace TreeWalk

open Value (Tame)

namespace Value

def ReturnFree (v : Value) : Prop := v.Everywhere fun w => w.tag ≠ .returned

instance (v : Value) : Decidable v.ReturnFree := inferInstanceAs (Decidable (v.Everywhere _))

theorem Everywhere.returnFree {v : Value} (h : v.Everywhere Tame) : v.ReturnFree := by
  refine h.mono fun w hw => ?_
  cases w with
  | returned => exact hw.elim
  | _ => nofun

end Value

/-- A run of a disciplined program among tame data. -/
theorem contained_evaluate (limit : Nat) {program : Node} (hprogram : program.Disciplined)
    {store : Store} (hstore : store.Holds Tame) :
    let r := (evaluateWithin limit program fresh.1).run ⟨store, []⟩
    (eval (applyChecked (fun v => v.ReturnFree) limit) program fresh.1).run ⟨store, []⟩ = r ∧
      (∀ v, r.1 = .ok v → v.ReturnFree) ∧ ∃ seen σ, OrderlyState seen σ none r.2 := by
  have hcalls := callContained_applyChecked (fun v hv => decide_eq_true hv.returnFree) limit
  cases program with
  | program ss =>
    have heval : EvalContained _ _ false (.program ss) fresh.1 := evalContained hcalls hprogram
    obtain ⟨hchecked, hrun⟩ := heval [] [] ⟨store, []⟩ ⟨hstore, .start, List.forall_mem_nil _⟩
    refine ⟨hchecked, ?_⟩
    unfold evaluateWithin
    generalize (eval (applyWithin limit) (.program ss) fresh.1).run ⟨store, []⟩ = r at hrun ⊢
    rcases r with ⟨_ | v, s⟩
    · exact ⟨nofun, hrun⟩
    · cases hrun with
      | value hv hat =>
        refine ⟨?_, _, _, hat⟩
        rintro _ ⟨⟩
        exact hv.returnFree
      | returned hlast => exact absurd hlast.1 Bool.false_ne_true
  | _ => exact hprogram.elim

theorem tame_storeAfter (style : Style) (limit : Nat) {sources : List String}
    (h : ∀ source ∈ sources, ∀ program, parse source = .ok (program, []) → program.Disciplined) :
    (storeAfter style limit sources).Holds Tame := by
  refine (historyFrom_induction style limit (Store.Holds Tame) (fun _ => True) (fun _ => True)
    trivial (fun _ _ _ _ => trivial) ?_ (Store.holds_fresh Tame) fun _ _ => trivial).1
  intro source hsource program hparse store hstore _
  obtain ⟨_, _, _, _, hat⟩ := contained_evaluate limit (h source hsource program hparse) hstore
  exact ⟨hat.store, trivial⟩

theorem evaluate_of_outcome (style : Style) (limit : Nat) {source : String} {program : Node}
    (hparse : parse source = .ok (program, [])) {scope : ScopeId} {store : Store} {v : Value}
    (h : ((runSource style limit source scope).run store).outcome = .ok (.ok v)) :
    ((evaluateWithin limit program scope).run ⟨store, []⟩).1 = .ok v := by
  rw [runSource_of_parse style limit hparse] at h
  generalize (evaluateWithin limit program scope).run ⟨store, []⟩ = r at h ⊢
  rcases r with ⟨_ | w, s⟩
  · cases h
  · cases h
    rfl

/-- Whatever disciplined sources were run before, and whatever becomes of them: neither the result
of a disciplined source nor anything bound, computed or passed as an argument is or holds a wrapped
value, but for the wrapping of what a return gives. Where a return statement gives a value, nothing
follows before the call or the program it stands in has come to that value. -/
theorem returns_contained (style : Style) (limit : Nat) {earlier : List String} {source : String}
    {program : Node}
    (hearlier : ∀ s ∈ earlier, ∀ p, parse s = .ok (p, []) → p.Disciplined)
    (hparse : parse source = .ok (program, [])) (hprogram : program.Disciplined) :
    let store := storeAfter style limit earlier
    let reply := (runSource style limit source fresh.1).run store
    (∀ v, reply.outcome = .ok (.ok v) → v.ReturnFree) ∧
    (∀ i, ∀ b ∈ reply.state.bindings i, b.2.ReturnFree) ∧
    (∀ i name v, .bound i name v ∈ eventsOf limit source store → v.ReturnFree) ∧
    (∀ n v, .completed n v ∈ eventsOf limit source store → v.unwrapped.ReturnFree) ∧
    (eval (applyChecked (fun v => v.ReturnFree) limit) program fresh.1).run ⟨store, []⟩ =
      (evaluateWithin limit program fresh.1).run ⟨store, []⟩ ∧
    ∀ before t e w after, eventsOf limit source store =
        before ++ .completed (.returnStmt t e) w :: after → w.isError = false →
      ∃ v, w = .returned v ∧ HandedOver before (.returnStmt t e) v after := by
  intro store reply
  have hstore := tame_storeAfter style limit hearlier
  obtain ⟨hchecked, hresult, seen, σ, hat⟩ := contained_evaluate limit hprogram hstore
  obtain ⟨htame, _⟩ := hat.journal.tame
  rw [eventsOf_of_parse limit hparse]
  refine ⟨fun v hv => ?_, fun i b hb => ?_, fun i name v h => ?_, fun n v h => ?_, hchecked, ?_⟩
  · exact hresult v (evaluate_of_outcome style limit hparse hv)
  · have hreply : reply = _ := runSource_of_parse style limit hparse fresh.1 store
    rw [hreply] at hb
    exact (hat.store i b hb).returnFree
  · exact Value.Everywhere.returnFree (htame _ (List.mem_reverse.mp h))
  · exact Value.Everywhere.returnFree (htame _ (List.mem_reverse.mp h))
  · intro before t e w after h hw
    exact hat.journal.after_return h hw

/-- The source `let f = fn(x) { if (x) { return x; 1 } 2 }`. -/
def guardedReturn : String := "let f = fn(x) \x7b if (x) \x7b return x; 1 \x7d 2 \x7d"

def returnX : Node := .returnStmt ⟨.returnWord, "return"⟩ (.ident ⟨.ident, "x"⟩ "x")

/-- A return inside a condition ends the call, and the statements behind it are passed over. -/
theorem returns_contained_guardedReturn :
    (∀ s ∈ [guardedReturn], ∀ p, parse s = .ok (p, []) → p.Disciplined) ∧
    ∃ program before after, parse "f(1)" = .ok (program, []) ∧ program.Disciplined ∧
      eventsOf 10 "f(1)" (storeAfter .plain 10 [guardedReturn]) =
        before ++ .completed returnX (.returned (.int 1)) :: after ∧
      HandedOver before returnX (.int 1) after := by
  have hdefinition : parse guardedReturn = .ok (.program
      [.letStmt ⟨.letWord, "let"⟩ (.ident ⟨.ident, "f"⟩ "f")
        (.fnLit ⟨.fnWord, "fn"⟩ [.ident ⟨.ident, "x"⟩ "x"]
          (.block ⟨.lbrace, "\x7b"⟩
            [.exprStmt ⟨.ifWord, "if"⟩
              (.ifExpr ⟨.ifWord, "if"⟩ (.ident ⟨.ident, "x"⟩ "x")
                (.block ⟨.lbrace, "\x7b"⟩
                  [returnX, .exprStmt ⟨.int, "1"⟩ (.intLit ⟨.int, "1"⟩ 1)])
                .missing),
             .exprStmt ⟨.int, "2"⟩ (.intLit ⟨.int, "2"⟩ 2)]))], []) := by
    cbv
  have hparse : parse "f(1)" = .ok (.program [.exprStmt ⟨.ident, "f"⟩
      (.call ⟨.lparen, "("⟩ (.ident ⟨.ident, "f"⟩ "f") [.intLit ⟨.int, "1"⟩ 1])], []) := by
    cbv
  have hearlier : ∀ s ∈ [guardedReturn], ∀ p, parse s = .ok (p, []) → p.Disciplined := by
    refine List.forall_mem_singleton.mpr fun p hp => ?_
    rw [hdefinition] at hp
    cases hp
    rfl
  have hgiven : (eventsOf 10 "f(1)" (storeAfter .plain 10 [guardedReturn]))[17]? =
      some (.completed returnX (.returned (.int 1))) := by
    rw [eventsOf_of_parse 10 hparse, storeAfter, List.foldl_cons, List.foldl_nil,
      runSource_of_parse .plain 10 hdefinition]
    rfl
  obtain ⟨before, after, hevents⟩ := List.append_of_mem (List.mem_of_getElem? hgiven)
  have hcontained := returns_contained .plain 10 hearlier hparse rfl
  obtain ⟨v, hv, hhanded⟩ := hcontained.2.2.2.2.2 before _ _ _ after hevents rfl
  cases hv
  exact ⟨hearlier, _, before, after, hparse, rfl, hevents, hhanded⟩

end TreeWalk
