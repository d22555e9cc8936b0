import TreeWalk.Proofs.Eval.Matching

namespace TreeWalk

/-- Values of one type that are shown by one text. -/
structure Value.LooksLike (v w : Value) : Prop where
  tag : v.tag = w.tag
  inspect : v.inspect = w.inspect

variable {hidden : String → Prop} {ρ : Pairing}

theorem Value.Matches.looksLike {v w : Value} (h : Value.Matches hidden ρ v w) : v.LooksLike w :=
  ⟨h.tag_eq, h.inspect_eq⟩

/-- The runs print the same, and come to values that look alike or halt for the same reason. -/
structure SameRun (r r' : Except Halt Value × State) : Prop where
  printed : r.2.lines = r'.2.lines
  ends : SameEnd Value.LooksLike r.1 r'.1

/-- What matching states show, whatever the scopes that stand for each other. -/
theorem Action.Alike.sameRun {act act' : Action Value}
    (h : Alike hidden ρ act act' (Value.Matches hidden)) {st st' : Store}
    (hst : st.Matches hidden ρ st') :
    SameRun (act.run ⟨st, []⟩) (act'.run ⟨st', []⟩) ∧
      ∀ i j, ρ i j → ∀ name, ¬ hidden name → Option.Rel Value.LooksLike
        (((act.run ⟨st, []⟩).2.store.bindings i).get? name)
        (((act'.run ⟨st', []⟩).2.store.bindings j).get? name) := by
  obtain ⟨ρ', hle, hstates, hend⟩ := h ⟨st, []⟩ ⟨st', []⟩ ⟨hst, rfl⟩
  refine ⟨⟨hstates.lines, ?_⟩, fun i j hij name hname => ?_⟩
  · generalize (act.run ⟨st, []⟩).1 = o at hend ⊢
    generalize (act'.run ⟨st', []⟩).1 = o' at hend ⊢
    cases hend with
    | value hvw => exact .value hvw.looksLike
    | halt reason => exact .halt reason
  · have hrel := hstates.store.bindings i j (hle i j hij) name hname
    generalize ((act.run ⟨st, []⟩).2.store.bindings i).get? name = v at hrel ⊢
    generalize ((act'.run ⟨st', []⟩).2.store.bindings j).get? name = w at hrel ⊢
    cases hrel with
    | none => exact .none
    | some hvw => exact .some hvw.looksLike

namespace Store

variable {st st' : Store}

theorem lt_size_of_fixed {i : ScopeId} (h : st'.fixed i = st.fixed i) (hi : i < st.scopes.size) :
    i < st'.scopes.size := by
  by_contra hout
  have hnone : st'.scopes[i]? = none := Array.getElem?_eq_none (Nat.not_lt.mp hout)
  simp [fixed, hnone, Array.getElem?_eq_getElem hi] at h

/-- Stores match by the scopes that are live, if these are the same in both but for hidden names,
and if nothing leads out of them: no scope around them and no function that they bind. -/
theorem matches_of_live {live : ScopeId → Prop} (hrange : ∀ i, live i → i < st.scopes.size)
    (houter : ∀ i, live i → ∀ j ∈ st.chain i, live j)
    (hcaptured : ∀ i, live i → ∀ b ∈ st.bindings i, ∀ ps body k,
      .function ps body k ∈ b.2.parts → live k)
    (hvisible : ∀ i, live i → ∀ b ∈ st.bindings i,
      b.2.Everywhere fun w => ∀ name ∈ w.names, ¬ hidden name)
    (hfixed : ∀ i, live i → st'.fixed i = st.fixed i)
    (hsame : ∀ i, live i → ∀ name, ¬ hidden name →
      (st'.bindings i).get? name = (st.bindings i).get? name) :
    Matches hidden (fun i j => i = j ∧ live i) st st' := by
  refine ⟨?_, ?_, ?_, ?_, ?_⟩
  · rintro i _ ⟨rfl, hi⟩
    exact ⟨hrange i hi, lt_size_of_fixed (hfixed i hi) (hrange i hi)⟩
  · rintro i _ i' _ ⟨rfl, -⟩ ⟨rfl, -⟩
    exact Iff.rfl
  · rintro i _ ⟨rfl, hi⟩
    rw [chain_of_fixed (hfixed i hi)]
    exact List.forall₂_same.mpr fun j hj => ⟨rfl, houter i hi j hj⟩
  · rintro i _ ⟨rfl, hi⟩ name
    exact (builtin?_of_fixed (hfixed i hi) name).symm
  · rintro i _ ⟨rfl, hi⟩ name hname
    rw [hsame i hi name hname]
    cases hget : (st.bindings i).get? name with
    | none => exact .none
    | some v =>
      have hmem := Ordered.mem_of_get? hget
      refine .some (.refl (fun ps body k hk => ⟨rfl, ?_⟩) (hvisible i hi _ hmem))
      exact hcaptured i hi _ hmem ps body k hk

/-- A well-formed store matches what a run has made of it, if the run left all its scopes as they
were. -/
theorem WellFormed.matches_of_same (h : st.WellFormed)
    (hsame : ∀ i < st.scopes.size, st'.scopes[i]? = st.scopes[i]?) :
    Matches (fun _ => False) (fun i j => i = j ∧ i < st.scopes.size) st st' := by
  refine matches_of_live (fun i hi => hi) (fun i hi j hj => ?_) (fun i _ b hb ps body k hk => ?_)
    (fun _ _ _ _ _ _ _ _ => id) (fun i hi => ?_) fun i hi name _ => ?_
  · exact Nat.lt_of_le_of_lt ((h.descending i hi).2 j hj) hi
  · exact h.captured i b hb _ hk
  · rw [fixed, fixed, hsame i hi]
  · rw [bindings, bindings, hsame i hi]

/-- Scopes that bind nothing and stand on their own match, whatever else the stores hold. -/
theorem matches_fresh {i j : ScopeId} {catalog : String → Option Builtin}
    (hi : st.scopes[i]? = some ⟨[], [], catalog⟩) (hj : st'.scopes[j]? = some ⟨[], [], catalog⟩) :
    Matches hidden (fun a b => a = i ∧ b = j) st st' := by
  have hlt {st : Store} {i : ScopeId} (hi : st.scopes[i]? = some ⟨[], [], catalog⟩) :
      i < st.scopes.size := (Array.getElem?_eq_some_iff.mp hi).1
  refine ⟨?_, ?_, ?_, ?_, ?_⟩
  · rintro a b ⟨rfl, rfl⟩
    exact ⟨hlt hi, hlt hj⟩
  · rintro a b a' b' ⟨rfl, rfl⟩ ⟨rfl, rfl⟩
    exact iff_of_true rfl rfl
  · rintro a b ⟨rfl, rfl⟩
    simp [chain, hi, hj]
  · rintro a b ⟨rfl, rfl⟩ name
    simp [builtin?, hi, hj]
  · rintro a b ⟨rfl, rfl⟩ name _
    simp only [bindings, hi, hj]
    exact .none

end Store

/-- What a run does that leaves the scopes of a well-formed store alone, it does again from the
store that it has left. -/
theorem sameRun_again {act : Action Value} {st : Store} (hst : st.WellFormed)
    (hact : Action.Alike (fun _ => False) (fun i j => i = j ∧ i < st.scopes.size) act act
      (Value.Matches fun _ => False))
    (hkept : ∀ before : Store, ∀ i < before.scopes.size,
      (act.run ⟨before, []⟩).2.store.scopes[i]? = before.scopes[i]?) :
    let r := act.run ⟨st, []⟩
    let r' := act.run ⟨r.2.store, []⟩
    SameRun r r' ∧ ∀ i < st.scopes.size,
      r.2.store.bindings i = st.bindings i ∧ r'.2.store.bindings i = st.bindings i := by
  intro r r'
  -- The second run begins with the scopes that the first has left too; these take no part in it.
  refine ⟨(hact.sameRun (hst.matches_of_same (hkept st))).1, fun i hi => ?_⟩
  have hfirst : r.2.store.scopes[i]? = st.scopes[i]? := hkept st i hi
  have hin : i < r.2.store.scopes.size := by
    rw [Array.getElem?_eq_getElem hi] at hfirst
    exact (Array.getElem?_eq_some_iff.mp hfirst).1
  have hsecond : r'.2.store.scopes[i]? = r.2.store.scopes[i]? := hkept r.2.store i hin
  constructor
  · rw [Store.bindings, Store.bindings, hfirst]
  · rw [Store.bindings, Store.bindings, hsecond, hfirst]

/-- A run that no `let` of the tree it began with can write in leaves the scopes that were there. -/
theorem Steps.scopes_eq {o : Origin} {st : Store} {s : State} (h : Steps o ⟨st, []⟩ s)
    (hk : st.scopes.size ≤ o.scopes) (htree : ∀ n i, o.tree n i → ∀ name, ¬ n.Lets name)
    {i : ScopeId} (hi : i < st.scopes.size) : s.store.scopes[i]? = st.scopes[i]? := by
  have hconfined : Confined (fun _ _ => False) st s := (Steps.confined h hk htree).2
  exact hconfined.frame.same i hi fun _ => id

/-- Under any limit, evaluating a tree without a `let` outside functions twice in a row shows the
same both times and leaves the bindings of all scopes that were there as they are; so does calling a
function twice with the same arguments. A program evaluated in two scopes that bind nothing and
stand on their own shows the same, and then both scopes bind the same names to values that look
alike, however the two stores came about. -/
theorem runs_repeat (limit : Nat) :
    (∀ (st : Store) (n : Node) (scope : ScopeId), st.WellFormed → scope < st.scopes.size →
      (∀ name, ¬ n.Lets name) →
      let r := (evaluateWithin limit n scope).run ⟨st, []⟩
      let r' := (evaluateWithin limit n scope).run ⟨r.2.store, []⟩
      SameRun r r' ∧ ∀ i < st.scopes.size,
        r.2.store.bindings i = st.bindings i ∧ r'.2.store.bindings i = st.bindings i) ∧
    (∀ (st : Store) (f : Value) (args : List Value), st.WellFormed →
      (∀ v ∈ f :: args, v.Everywhere (Value.ScopeBelow st.scopes.size)) →
      let r := (applyWithin limit f args).run ⟨st, []⟩
      let r' := (applyWithin limit f args).run ⟨r.2.store, []⟩
      SameRun r r' ∧ ∀ i < st.scopes.size,
        r.2.store.bindings i = st.bindings i ∧ r'.2.store.bindings i = st.bindings i) ∧
    ∀ (program : Node) (catalog : String → Option Builtin) (st st' : Store)
        (scope scope' : ScopeId),
      st.scopes[scope]? = some ⟨[], [], catalog⟩ → st'.scopes[scope']? = some ⟨[], [], catalog⟩ →
      let r := (evaluateWithin limit program scope).run ⟨st, []⟩
      let r' := (evaluateWithin limit program scope').run ⟨st', []⟩
      SameRun r r' ∧ ∀ name, Option.Rel Value.LooksLike
        ((r.2.store.bindings scope).get? name) ((r'.2.store.bindings scope').get? name) := by
  have havoids (n : Node) : n.Avoids fun _ => False := fun _ _ => id
  refine ⟨fun st n scope hst hscope hn => ?_, fun st f args hst hvalues => ?_,
    fun program catalog st st' scope scope' hfresh hfresh' => ?_⟩
  · refine sameRun_again hst (alike_evaluateWithin limit (havoids n) ⟨rfl, hscope⟩) ?_
    intro before i hi
    have hsteps := (steps_evaluateWithin (fun _ => true) limit n scope (s := ⟨before, []⟩)
      (Nat.le_refl _)).1
    refine hsteps.scopes_eq (Nat.le_refl _) ?_ hi
    rintro m j ⟨rfl, rfl⟩
    exact hn
  · have hmatches (v : Value) (hv : v ∈ f :: args) :
        Value.Matches (fun _ => False) (fun i j => i = j ∧ i < st.scopes.size) v v :=
      .refl (fun ps body i hi => ⟨rfl, hvalues v hv _ hi⟩) fun _ _ _ _ => id
    have hargs : List.Forall₂ (Value.Matches _ _) args args :=
      List.forall₂_same.mpr fun v hv => hmatches v (List.mem_cons_of_mem f hv)
    refine sameRun_again hst
      (callsAlike_applyWithin limit _ f f args args (hmatches f List.mem_cons_self) hargs) ?_
    intro before i hi
    have hsteps := steps_applyWithin limit f args (s := ⟨before, []⟩) (Nat.le_refl _)
    exact hsteps.scopes_eq (Nat.le_refl _) nofun hi
  · have hrun := (alike_evaluateWithin limit (havoids program) ⟨rfl, rfl⟩).sameRun
      (Store.matches_fresh hfresh hfresh')
    exact ⟨hrun.1, fun name => hrun.2 scope scope' ⟨rfl, rfl⟩ name id⟩

def keeperBody : Node :=
  .block ⟨.lbrace, "\x7b"⟩
    [.exprStmt ⟨.ident, "puts"⟩ (.call ⟨.lparen, "("⟩ (.ident ⟨.ident, "puts"⟩ "puts")
      [.ident ⟨.ident, "x"⟩ "x"]),
     .exprStmt ⟨.fnWord, "fn"⟩ (.fnLit ⟨.fnWord, "fn"⟩ []
      (.block ⟨.lbrace, "\x7b"⟩ [.exprStmt ⟨.ident, "x"⟩ (.ident ⟨.ident, "x"⟩ "x")]))]

/-- The function `fn(x) { puts(x); fn() { x } }`, and the call of it with `1`. -/
def keeper : Node := .fnLit ⟨.fnWord, "fn"⟩ [.ident ⟨.ident, "x"⟩ "x"] keeperBody

def keeperCall : Node := .call ⟨.lparen, "("⟩ keeper [.intLit ⟨.int, "1"⟩ 1]

theorem not_lets_keeperCall (name : String) : ¬ keeperCall.Lets name := by
  rintro ⟨t, target, value, hfound, -⟩
  cases hfound with
  | child h found =>
    rcases List.mem_pair.mp h with rfl | rfl
    all_goals
      cases found with
      | child h => cases h

/-- A function that is made anew each time looks the same, although its scope is another one; and a
scope beside others behaves like one on its own. -/
theorem runs_repeat_keeper :
    let st := (Store.empty.openRoot Builtin.ofName?).2
    let beside := (st.openRoot Builtin.ofName?).2
    let f : Value := .function [.ident ⟨.ident, "x"⟩ "x"] keeperBody 0
    let program : Node :=
      .program [.letStmt ⟨.letWord, "let"⟩ (.ident ⟨.ident, "k"⟩ "k") keeperCall]
    (let r := (evaluateWithin 1 keeperCall 0).run ⟨st, []⟩
      let r' := (evaluateWithin 1 keeperCall 0).run ⟨r.2.store, []⟩
      st.WellFormed ∧ 0 < st.scopes.size ∧ (∀ name, ¬ keeperCall.Lets name) ∧
        r.2.lines = ["1"] ∧ r.2.store.scopes.size = 2 ∧ r'.2.store.scopes.size = 3 ∧
        SameRun r r') ∧
    (let r := (applyWithin 1 f [.int 1]).run ⟨st, []⟩
      let r' := (applyWithin 1 f [.int 1]).run ⟨r.2.store, []⟩
      (∀ v ∈ [f, .int 1], v.Everywhere (Value.ScopeBelow st.scopes.size)) ∧ SameRun r r') ∧
    (let r := (evaluateWithin 1 program 0).run ⟨st, []⟩
      let r' := (evaluateWithin 1 program 1).run ⟨beside, []⟩
      st.scopes[0]? = some ⟨[], [], Builtin.ofName?⟩ ∧
        beside.scopes[1]? = some ⟨[], [], Builtin.ofName?⟩ ∧ SameRun r r') := by
  have hst := Store.wellFormed_openRoot Builtin.ofName?
  have hvalues : ∀ v ∈ [Value.function [.ident ⟨.ident, "x"⟩ "x"] keeperBody 0, .int 1],
      v.Everywhere (Value.ScopeBelow 1) := by
    decide
  obtain ⟨htree, hcall, hprogram⟩ := runs_repeat 1
  refine ⟨⟨hst, Nat.zero_lt_one, not_lets_keeperCall, rfl, rfl, rfl, ?_⟩, ⟨hvalues, ?_⟩,
    rfl, rfl, ?_⟩
  · exact (htree _ keeperCall 0 hst Nat.zero_lt_one not_lets_keeperCall).1
  · exact (hcall _ _ _ hst hvalues).1
  · exact (hprogram _ Builtin.ofName? _ _ 0 1 rfl rfl).1

end TreeWalk
