import TreeWalk.Proofs.Eval.Custody

/-! Evaluating a node writes to its own scope, under names that some `let` of the node binds outside
functions, and otherwise only to scopes that calls have opened. -/
namespace TreeWalk

namespace Node

/-- What is found in a node outside the bodies of functions. -/
inductive Holds : Node → Node → Prop
  | self (n : Node) : Holds n n
  | child {n c m : Node} (h : c ∈ n.children) (found : Holds c m) : Holds n m

/-- A `let` in the node, outside the bodies of functions, binds the name. -/
def Lets (n : Node) (name : String) : Prop :=
  ∃ t target value, n.Holds (.letStmt t target value) ∧ target.bindingName? = some name

theorem Lets.of_child {n c : Node} (h : c ∈ n.children) {name : String} (hc : c.Lets name) :
    n.Lets name := by
  obtain ⟨t, target, value, hfound, hname⟩ := hc
  exact ⟨t, target, value, .child h hfound, hname⟩

end Node

namespace Store

variable {β : Type}

def fixed (st : Store β) (i : ScopeId) : Option (List ScopeId × (String → Option β)) :=
  (st.scopes[i]?).map fun scope => (scope.outer, scope.catalog)

theorem scopes_bind_ne (st : Store β) {i j : ScopeId} (name : String) (v : Value) (h : j ≠ i) :
    (st.bind i name v).scopes[j]? = st.scopes[j]? := by
  simp [bind, Array.getElem?_modify, Ne.symm h]

theorem fixed_bind (st : Store β) (i j : ScopeId) (name : String) (v : Value) :
    (st.bind i name v).fixed j = st.fixed j := by
  by_cases h : i = j <;> simp [fixed, bind, Array.getElem?_modify, h, Function.comp_def]

theorem chain_of_fixed {st st' : Store β} {i : ScopeId} (h : st'.fixed i = st.fixed i) :
    st'.chain i = st.chain i := by
  have hchain (st : Store β) : st.chain i = i :: ((st.fixed i).map (·.1)).getD [] := by
    simp [chain, fixed, Function.comp_def]
  rw [hchain, hchain, h]

theorem builtin?_of_fixed {st st' : Store β} {i : ScopeId} (h : st'.fixed i = st.fixed i)
    (name : String) : st'.builtin? i name = st.builtin? i name := by
  have hcatalog (st : Store β) : st.builtin? i name = (st.fixed i).bind fun p => p.2 name := by
    cases hi : st.scopes[i]? <;> simp [builtin?, fixed, hi]
  rw [hcatalog, hcatalog, h]

theorem get?_bindings_bind_ne (st : Store β) (i j : ScopeId) {name other : String} (v : Value)
    (h : other ≠ name) :
    ((st.bind i name v).bindings j).get? other = (st.bindings j).get? other := by
  by_cases hji : j = i
  · subst hji
    by_cases hj : j < st.scopes.size
    · rw [bindings_bind_self st name v hj]
      exact Ordered.get?_put_ne _ v h
    · simp [bindings, bind, hj]
  · rw [bindings_bind_ne st name v hji]

theorem scopes_enclose (st : Store β) (i : ScopeId) {j : ScopeId} (h : j < st.scopes.size) :
    (st.enclose i).2.scopes[j]? = st.scopes[j]? := by
  simp [enclose, Array.getElem?_push, Nat.ne_of_lt h]

theorem chain_of_scopes {st st' : Store β} {i : ScopeId} (h : st'.scopes[i]? = st.scopes[i]?) :
    st'.chain i = st.chain i := by
  simp [chain, h]

/-- A new scope stands right inside the one it was made in. -/
theorem chain_enclose_self (st : Store β) {i : ScopeId} (h : i < st.scopes.size) :
    (st.enclose i).2.chain st.scopes.size = st.scopes.size :: st.chain i := by
  simp [chain, enclose, Array.getElem?_eq_getElem h]

/-- Of the scopes that were there, only `touched` names are bound anew. -/
structure Frame (touched : ScopeId → String → Prop) (before after : Store) : Prop where
  size_le : before.scopes.size ≤ after.scopes.size
  same : ∀ i < before.scopes.size, (∀ name, ¬ touched i name) →
    after.scopes[i]? = before.scopes[i]?
  fixed : ∀ i < before.scopes.size, after.fixed i = before.fixed i
  untouched : ∀ i < before.scopes.size, ∀ name, ¬ touched i name →
    (after.bindings i).get? name = (before.bindings i).get? name
  names : ∀ i < before.scopes.size,
    Ordered.keys (before.bindings i) ⊆ Ordered.keys (after.bindings i)

variable {touched : ScopeId → String → Prop} {before after : Store}

theorem Frame.refl (touched : ScopeId → String → Prop) (st : Store) : Frame touched st st :=
  ⟨Nat.le_refl _, fun _ _ _ => rfl, fun _ _ => rfl, fun _ _ _ _ => rfl,
    fun _ _ => List.Subset.refl _⟩

theorem Frame.bind (h : Frame touched before after) {i : ScopeId} {name : String} (v : Value)
    (hi : touched i name ∨ before.scopes.size ≤ i) :
    Frame touched before (after.bind i name v) := by
  have htouched {j : ScopeId} (hj : j < before.scopes.size) (hji : j = i) : touched j name := by
    subst hji
    exact hi.resolve_right (Nat.not_le.mpr hj)
  refine ⟨?_, fun j hj hun => ?_, fun j hj => ?_, fun j hj other hun => ?_, fun j hj => ?_⟩
  · rw [size_bind]
    exact h.size_le
  · have hji : j ≠ i := fun hji => hun name (htouched hj hji)
    rw [scopes_bind_ne after name v hji]
    exact h.same j hj hun
  · rw [fixed_bind]
    exact h.fixed j hj
  · rw [← h.untouched j hj other hun]
    by_cases hji : j = i
    · have hother : other ≠ name := fun heq => hun (heq ▸ htouched hj hji)
      subst hji
      rw [bindings_bind_self after name v (Nat.lt_of_lt_of_le hj h.size_le)]
      exact Ordered.get?_put_ne _ v hother
    · rw [bindings_bind_ne after name v hji]
  · refine List.Subset.trans (h.names j hj) ?_
    by_cases hji : j = i
    · subst hji
      rw [bindings_bind_self after name v (Nat.lt_of_lt_of_le hj h.size_le), Ordered.keys_put]
      split
      · exact List.Subset.refl _
      · exact List.subset_append_left _ _
    · rw [bindings_bind_ne after name v hji]
      exact List.Subset.refl _

theorem Frame.enclose (h : Frame touched before after) (i : ScopeId) :
    Frame touched before (after.enclose i).2 := by
  have hscopes {j : ScopeId} (hj : j < before.scopes.size) :
      (after.enclose i).2.scopes[j]? = after.scopes[j]? :=
    scopes_enclose after i (Nat.lt_of_lt_of_le hj h.size_le)
  have hbindings {j : ScopeId} (hj : j < before.scopes.size) :
      (after.enclose i).2.bindings j = after.bindings j :=
    bindings_enclose after (Nat.lt_of_lt_of_le hj h.size_le)
  refine ⟨?_, fun j hj hun => ?_, fun j hj => ?_, fun j hj name hun => ?_, fun j hj => ?_⟩
  · rw [size_enclose]
    exact Nat.le_succ_of_le h.size_le
  · rw [hscopes hj]
    exact h.same j hj hun
  · unfold Store.fixed
    rw [hscopes hj]
    exact h.fixed j hj
  · rw [hbindings hj]
    exact h.untouched j hj name hun
  · rw [hbindings hj]
    exact h.names j hj

end Store

/-- What a run has done to the store it began with: it wrote to `touched` names only, or to scopes
that it opened itself. -/
structure Confined (touched : ScopeId → String → Prop) (st : Store) (s : State) : Prop where
  frame : Store.Frame touched st s.store
  written : ∀ i name v, .bound i name v ∈ s.journal → touched i name ∨ st.scopes.size ≤ i

section

variable {o : Origin} {touched : ScopeId → String → Prop} {st : Store} {s s' : State}

def Permitted (touched : ScopeId → String → Prop) (k : Nat) (s : State) : Prop :=
  ∀ n i, .entered n i ∈ s.journal → (∀ name, n.Lets name → touched i name) ∨ k ≤ i

theorem MayEnter.permitted {n : Node} {i : ScopeId} (h : MayEnter o s n i) {k : Nat}
    (hk : k ≤ o.scopes) (htree : ∀ n i, o.tree n i → ∀ name, n.Lets name → touched i name)
    (hs : Permitted touched k s) : (∀ name, n.Lets name → touched i name) ∨ k ≤ i := by
  cases h with
  | tree start => exact .inl (htree n i start)
  | child parent hc =>
    refine (hs _ _ parent).imp_left fun hp name hname => ?_
    exact hp name (hname.of_child hc)
  | body _ scope => exact .inr (Nat.le_trans hk scope.1)

theorem Step.permitted (h : Step o s s') {k : Nat} (hk : k ≤ o.scopes)
    (htree : ∀ n i, o.tree n i → ∀ name, n.Lets name → touched i name)
    (hs : Permitted touched k s) : Permitted touched k s' := by
  intro n i hn
  cases h with
  | enter h =>
    rcases List.mem_cons.mp hn with heq | hn
    · cases heq
      exact h.permitted hk htree hs
    · exact hs n i hn
  | enclose => exact hs n i hn
  | _ =>
    rcases List.mem_cons.mp hn with heq | hn
    · cases heq
    · exact hs n i hn

theorem MayBind.permitted {i : ScopeId} {name : String} (h : MayBind o s i name) {k : Nat}
    (hk : k ≤ o.scopes) (hs : Permitted touched k s) : touched i name ∨ k ≤ i := by
  cases h with
  | letStmt statement hname =>
    exact (hs _ _ statement).imp_left fun h => h name ⟨_, _, _, .self _, hname⟩
  | parameter scope => exact .inr (Nat.le_trans hk scope.1)

theorem Step.confined (h : Step o s s') (hk : st.scopes.size ≤ o.scopes)
    (hpermitted : Permitted touched st.scopes.size s) (hs : Confined touched st s) :
    Confined touched st s' := by
  cases h with
  | bind hmay =>
    have hi := hmay.permitted hk hpermitted
    refine ⟨hs.frame.bind _ hi, fun j other w hw => ?_⟩
    rcases List.mem_cons.mp hw with heq | hw
    · cases heq
      exact hi
    · exact hs.written j other w hw
  | enclose => exact ⟨hs.frame.enclose _, hs.written⟩
  | _ =>
    refine ⟨hs.frame, fun j other w hw => ?_⟩
    rcases List.mem_cons.mp hw with heq | hw
    · cases heq
    · exact hs.written j other w hw

/-- What a run leaves alone, from what each of its steps leaves alone. -/
theorem Steps.confined (h : Steps o ⟨st, []⟩ s) (hk : st.scopes.size ≤ o.scopes)
    (htree : ∀ n i, o.tree n i → ∀ name, n.Lets name → touched i name) :
    Permitted touched st.scopes.size s ∧ Confined touched st s := by
  induction h with
  | refl => exact ⟨nofun, .refl touched st, nofun⟩
  | tail _ hstep ih => exact ⟨hstep.permitted hk htree ih.1, hstep.confined hk ih.1 ih.2⟩

end

def Value.ScopeBelow (k : Nat) : Value → Prop
  | .function _ _ i => i < k
  | _ => True

instance (k : Nat) : DecidablePred (Value.ScopeBelow k) := fun
  | .function _ _ i => inferInstanceAs (Decidable (i < k))
  | .int _ | .bool _ | .str _ | .null | .returned _ | .error _ | .array _ | .hash _
  | .builtin _ => .isTrue trivial

namespace Store

/-- Nothing points outside the store, and a scope stands inside an earlier one or on its own. -/
structure WellFormed (st : Store) : Prop where
  chains : ∀ i < st.scopes.size, st.chain i = [i] ∨ ∃ j < i, st.chain i = i :: st.chain j
  captured : ∀ i, ∀ b ∈ st.bindings i, b.2.Everywhere (Value.ScopeBelow st.scopes.size)

/-- From each scope the way outwards goes to ever earlier scopes. -/
theorem WellFormed.descending {st : Store} (h : st.WellFormed) (i : ScopeId)
    (hi : i < st.scopes.size) : (st.chain i).Pairwise (· > ·) ∧ ∀ j ∈ st.chain i, j ≤ i := by
  induction i using Nat.strongRecOn with
  | ind i ih =>
    rcases h.chains i hi with hroot | ⟨j, hj, hchain⟩
    · simp [hroot]
    · obtain ⟨hpairwise, hle⟩ := ih j hj (Nat.lt_trans hj hi)
      rw [hchain]
      refine ⟨List.pairwise_cons.mpr ⟨fun k hk => ?_, hpairwise⟩, ?_⟩
      · exact Nat.lt_of_le_of_lt (hle k hk) hj
      · intro k hk
        rcases List.mem_cons.mp hk with rfl | hk
        · exact Nat.le_refl _
        · exact Nat.le_of_lt (Nat.lt_of_le_of_lt (hle k hk) hj)

/-- A store that has come out of another one by running something: every scope that is new stands
inside one that was there when it was made. -/
structure Grown (before after : Store) : Prop where
  wellFormed : after.WellFormed
  enclosed : ∀ i, before.scopes.size ≤ i → i < after.scopes.size →
    ∃ j < i, after.chain i = i :: after.chain j
  acyclic : ∀ i < after.scopes.size, (after.chain i).Pairwise (· > ·)

def Linked (k : Nat) (st : Store) : Prop :=
  ∀ i < st.scopes.size, i < k ∧ st.chain i = [i] ∨ ∃ j < i, st.chain i = i :: st.chain j

theorem Linked.bind {k : Nat} {st : Store} (h : st.Linked k) (i : ScopeId) (name : String)
    (v : Value) : (st.bind i name v).Linked k := by
  intro j hj
  rw [size_bind] at hj
  simpa only [chain_bind] using h j hj

theorem Linked.enclose {k : Nat} {st : Store} (h : st.Linked k) {i : ScopeId}
    (hi : i < st.scopes.size) : (st.enclose i).2.Linked k := by
  have hold {j : ScopeId} (hj : j < st.scopes.size) : (st.enclose i).2.chain j = st.chain j :=
    chain_of_scopes (scopes_enclose st i hj)
  intro j hj
  rw [size_enclose] at hj
  rcases Nat.lt_succ_iff_lt_or_eq.mp hj with hj | rfl
  · rw [hold hj]
    refine (h j hj).imp_right fun ⟨m, hm, hchain⟩ => ⟨m, hm, ?_⟩
    rw [hold (Nat.lt_trans hm hj), hchain]
  · refine .inr ⟨i, hi, ?_⟩
    rw [chain_enclose_self st hi, hold hi]

end Store

section

variable {o : Origin} {st : Store} {s s' : State}

/-- Functions go on being made in scopes that are there, and nodes being evaluated in such. -/
theorem custody_scopes (htree : ∀ n i, o.tree n i → i < o.scopes)
    (hvalue : ∀ v, o.value v → v.Everywhere (Value.ScopeBelow o.scopes)) :
    Custody o (fun _ => True) (fun s => Value.ScopeBelow s.store.scopes.size)
      fun s _ i => i < s.store.scopes.size where
  fit_step hstep hw := by
    rename_i w
    cases w with
    | function ps body i => exact Nat.lt_of_lt_of_le hw hstep.size_le
    | _ => trivial
  tree_step hstep hi := Nat.lt_of_lt_of_le hi hstep.size_le
  tree hsize h := Nat.lt_of_lt_of_le (htree _ _ h) hsize
  value hsize h := (hvalue _ h).mono fun w hw => by
    cases w with
    | function ps body i => exact Nat.lt_of_lt_of_le hw hsize
    | _ => trivial
  child h _ := h
  body _ h := h.2
  literal _ := trivial
  closure h := h
  returned _ := trivial
  computed h _ := by cases h <;> trivial

theorem Steps.linked (h : Steps o s s') (hsize : o.scopes ≤ s.store.scopes.size)
    (hc : Custody o (fun _ => True) (fun s => Value.ScopeBelow s.store.scopes.size)
      fun s _ i => i < s.store.scopes.size)
    (hs : InCustody (fun s => Value.ScopeBelow s.store.scopes.size)
      (fun s _ i => i < s.store.scopes.size) s)
    {k : Nat} (hk : s.store.Linked k) : s'.store.Linked k := by
  induction h with
  | refl => exact hk
  | tail hsteps hstep ih =>
    cases hstep with
    | bind => exact ih.bind _ _ _
    | enclose callee =>
      have hkept := hc.steps hsteps hsize (fun _ _ => trivial) hs
      have hcallee := hkept.known hc (Nat.le_trans hsize (Steps.size_le hsteps)) callee
      exact ih.enclose hcallee.self
    | _ => exact ih

theorem Steps.grown (h : Steps o ⟨st, []⟩ s) (hsize : o.scopes = st.scopes.size)
    (htree : ∀ n i, o.tree n i → i < st.scopes.size)
    (hvalue : ∀ v, o.value v → v.Everywhere (Value.ScopeBelow st.scopes.size))
    (hst : st.WellFormed) : Store.Grown st s.store := by
  rw [← hsize] at htree hvalue
  have hc := custody_scopes htree hvalue
  have hstart : InCustody (fun s => Value.ScopeBelow s.store.scopes.size)
      (fun s _ i => i < s.store.scopes.size) ⟨st, []⟩ := ⟨hst.captured, nofun⟩
  have hlinked : s.store.Linked st.scopes.size := by
    refine Steps.linked h (Nat.le_of_eq hsize) hc hstart fun i hi => ?_
    exact (hst.chains i hi).imp_left fun hroot => ⟨hi, hroot⟩
  have hkept := hc.steps h (Nat.le_of_eq hsize) (fun _ _ => trivial) hstart
  have hformed : s.store.WellFormed :=
    ⟨fun i hi => (hlinked i hi).imp_left And.right, hkept.store⟩
  refine ⟨hformed, fun i hle hlt => ?_, fun i hi => (hformed.descending i hi).1⟩
  exact (hlinked i hlt).resolve_left fun hroot => Nat.not_lt.mpr hle hroot.1

end

/-- Evaluating a node leaves the scopes that were there as they are, but for names that a `let` of
the node binds in the scope it is evaluated in; a call leaves all of them exactly as they are. What
is written otherwise goes to scopes that were opened meanwhile, and each of these stands inside a
scope that was there before it. -/
theorem scopes_after_run (limit : Nat) (st : Store) :
    (∀ (n : Node) (scope : ScopeId),
      let s := ((evaluateWithin limit n scope).run ⟨st, []⟩).2
      Confined (fun i name => i = scope ∧ n.Lets name) st s ∧
        (st.WellFormed → scope < st.scopes.size → Store.Grown st s.store)) ∧
    ∀ (f : Value) (args : List Value),
      let s := ((applyWithin limit f args).run ⟨st, []⟩).2
      (∀ i < st.scopes.size, s.store.scopes[i]? = st.scopes[i]?) ∧
        (∀ i name v, .bound i name v ∈ s.journal → st.scopes.size ≤ i) ∧
        (st.WellFormed → (∀ v ∈ f :: args, v.Everywhere (Value.ScopeBelow st.scopes.size)) →
          Store.Grown st s.store) := by
  refine ⟨fun n scope => ?_, fun f args => ?_⟩
  · have hsteps := (steps_evaluateWithin (fun _ => true) limit n scope (s := ⟨st, []⟩)
      (Nat.le_refl _)).1
    refine ⟨(Steps.confined hsteps (Nat.le_refl _) ?_).2, fun hst hscope => ?_⟩
    · rintro m i ⟨rfl, rfl⟩ name hname
      exact ⟨rfl, hname⟩
    · refine Steps.grown hsteps rfl ?_ nofun hst
      rintro m i ⟨rfl, rfl⟩
      exact hscope
  · have hsteps := steps_applyWithin limit f args (s := ⟨st, []⟩) (Nat.le_refl _)
    have hconfined : Confined (fun _ _ => False) st _ :=
      (Steps.confined hsteps (Nat.le_refl _) nofun).2
    refine ⟨fun i hi => hconfined.frame.same i hi fun _ => id, fun i name v h => ?_, ?_⟩
    · exact (hconfined.written i name v h).resolve_left id
    · exact fun hst hvalues => Steps.grown hsteps rfl nofun hvalues hst

theorem Store.wellFormed_openRoot (catalog : String → Option Builtin) :
    (Store.empty.openRoot catalog).2.WellFormed := by
  refine ⟨fun i hi => .inl ?_, holds_openRoot _ catalog⟩
  have hzero : i = 0 := Nat.lt_one_iff.mp hi
  subst hzero
  rfl

def shadowingBody : Node :=
  .block ⟨.lbrace, "\x7b"⟩
    [.letStmt ⟨.letWord, "let"⟩ (.ident ⟨.ident, "x"⟩ "x")
      (.binary ⟨.plus, "+"⟩ "+" (.ident ⟨.ident, "x"⟩ "x") (.intLit ⟨.int, "1"⟩ 1)),
     .exprStmt ⟨.ident, "x"⟩ (.ident ⟨.ident, "x"⟩ "x")]

/-- The statement `let x = fn(x) { let x = x + 1; x }(1)`. -/
def shadowingCall : Node :=
  .letStmt ⟨.letWord, "let"⟩ (.ident ⟨.ident, "x"⟩ "x")
    (.call ⟨.lparen, "("⟩ (.fnLit ⟨.fnWord, "fn"⟩ [.ident ⟨.ident, "x"⟩ "x"] shadowingBody)
      [.intLit ⟨.int, "1"⟩ 1])

/-- A call writes to its own scope only, which stands inside that of the function. -/
theorem scopes_after_run_shadowing :
    let st := (Store.empty.openRoot Builtin.ofName?).2
    let s := ((evaluateWithin 1 shadowingCall 0).run ⟨st, []⟩).2
    let f : Value := .function [.ident ⟨.ident, "x"⟩ "x"] shadowingBody 0
    (st.WellFormed ∧ 0 < st.scopes.size ∧ Store.Grown st s.store ∧ s.store.chain 1 = [1, 0]) ∧
      (∀ v ∈ [f, .int 1], v.Everywhere (Value.ScopeBelow st.scopes.size)) ∧
      Store.Grown st ((applyWithin 1 f [.int 1]).run ⟨st, []⟩).2.store := by
  have hst := Store.wellFormed_openRoot Builtin.ofName?
  have hvalues : ∀ v ∈ [Value.function [.ident ⟨.ident, "x"⟩ "x"] shadowingBody 0, .int 1],
      v.Everywhere (Value.ScopeBelow 1) := by
    decide
  have hrun := scopes_after_run 1 (Store.empty.openRoot Builtin.ofName?).2
  exact ⟨⟨hst, Nat.zero_lt_one, (hrun.1 shadowingCall 0).2 hst Nat.zero_lt_one, rfl⟩, hvalues,
    (hrun.2 _ _).2.2 hst hvalues⟩

end TreeWalk
