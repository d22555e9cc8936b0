import TreeWalk.Proofs.Eval.Steps

/-! A property of values that every step hands on holds of all there is at every point of a run. -/
namespace TreeWalk

namespace Store

def Holds (P : Value → Prop) (st : Store) : Prop := ∀ i, ∀ b ∈ st.bindings i, b.2.Everywhere P

variable {P Q : Value → Prop} {st : Store}

theorem holds_openRoot (P : Value → Prop) (catalog : String → Option Builtin) :
    (Store.empty.openRoot catalog).2.Holds P := by
  intro i b hb
  cases i with
  | zero => cases hb
  | succ i => simp [Store.empty, Store.openRoot, Store.bindings] at hb

theorem Holds.mono (h : st.Holds P) (hPQ : ∀ w, P w → Q w) : st.Holds Q :=
  fun i b hb => (h i b hb).mono hPQ

theorem Holds.bind (h : st.Holds P) (i : ScopeId) (name : String) {v : Value}
    (hv : v.Everywhere P) : (st.bind i name v).Holds P := by
  intro j b hb
  rcases mem_bindings_bind hb with rfl | hb
  · exact hv
  · exact h j b hb

theorem Holds.enclose (h : st.Holds P) (i : ScopeId) : (st.enclose i).2.Holds P :=
  fun j b hb => h j b (mem_bindings_enclose hb)

theorem Holds.get? (h : st.Holds P) {i : ScopeId} {name : String} {v : Value}
    (hv : st.get? i name = some v) : v.Everywhere P := by
  obtain ⟨j, hj⟩ := exists_mem_of_get? hv
  exact h j _ hj

end Store

/-- A property of values, and one of nodes in scopes, that are handed on from step to step. Operands
can be taken to be `Bounded`. -/
structure Custody (o : Origin) (Bounded : Value → Prop) (Fit : State → Value → Prop)
    (Tree : State → Node → ScopeId → Prop) : Prop where
  fit_step {s s' : State} {w : Value} : Step o s s' → Fit s w → Fit s' w
  tree_step {s s' : State} {n : Node} {i : ScopeId} : Step o s s' → Tree s n i → Tree s' n i
  tree {s : State} {n : Node} {i : ScopeId} :
    o.scopes ≤ s.store.scopes.size → o.tree n i → Tree s n i
  value {s : State} {v : Value} :
    o.scopes ≤ s.store.scopes.size → o.value v → v.Everywhere (Fit s)
  child {s : State} {p n : Node} {i : ScopeId} : Tree s p i → n ∈ p.children → Tree s n i
  body {s : State} {ps : List Node} {n : Node} {i j : ScopeId} :
    Fit s (.function ps n j) → Opened o s i → Tree s n i
  literal {s : State} {t : Token} {n : Int} {i : ScopeId} :
    Tree s (.intLit t n) i → Fit s (.int n)
  closure {s : State} {t : Token} {ps : List Node} {n : Node} {i : ScopeId} :
    Tree s (.fnLit t ps n) i → Fit s (.function ps n i)
  returned {s : State} {v : Value} : v.Everywhere (Fit s) → Fit s (.returned v)
  computed {s : State} {args : List Value} {w : Value} : Value.Computed args w →
    (∀ a ∈ args, a.Everywhere (Fit s) ∧ Bounded a) → Fit s w

def Event.Satisfies (Fit : Value → Prop) (Tree : Node → ScopeId → Prop) : Event → Prop
  | .entered n i => Tree n i
  | .completed _ v => v.isError ∨ v.Everywhere Fit
  | .bound _ _ v => v.Everywhere Fit
  | .printed _ => True

theorem Event.Satisfies.mono {Fit Fit' : Value → Prop} {Tree Tree' : Node → ScopeId → Prop}
    {e : Event} (h : e.Satisfies Fit Tree) (hfit : ∀ w, Fit w → Fit' w)
    (htree : ∀ n i, Tree n i → Tree' n i) : e.Satisfies Fit' Tree' := by
  cases e with
  | entered n i => exact htree n i h
  | completed n v => exact h.imp_right fun hv => Value.Everywhere.mono hv hfit
  | bound i name v => exact Value.Everywhere.mono h hfit
  | printed line => trivial

structure InCustody (Fit : State → Value → Prop) (Tree : State → Node → ScopeId → Prop)
    (s : State) : Prop where
  store : s.store.Holds (Fit s)
  journal : ∀ e ∈ s.journal, e.Satisfies (Fit s) (Tree s)

section

variable {o : Origin} {Bounded : Value → Prop} {Fit : State → Value → Prop}
  {Tree : State → Node → ScopeId → Prop} {s s' : State} {v : Value}

theorem InCustody.known (hs : InCustody Fit Tree s) (hc : Custody o Bounded Fit Tree)
    (hsize : o.scopes ≤ s.store.scopes.size) (hv : Known o s v) : v.Everywhere (Fit s) := by
  rcases hv with hgiven | ⟨hnot, n, hn⟩
  · exact hc.value hsize hgiven
  · exact (hs.journal _ hn).resolve_left (by rw [hnot]; exact Bool.false_ne_true)

theorem InCustody.made (hs : InCustody Fit Tree s) (hc : Custody o Bounded Fit Tree)
    (hsize : o.scopes ≤ s.store.scopes.size) (hbounded : ∀ v, Known o s v → Bounded v)
    (hv : Made o s v) : v.isError ∨ v.Everywhere (Fit s) := by
  cases hv with
  | derived operands h =>
    have hargs (a : Value) (ha : a ∈ _) := hs.known hc hsize (operands a ha)
    refine h.everywhere (fun w hw => ?_) hargs
    exact hc.computed hw fun a ha => ⟨hargs a ha, hbounded a (operands a ha)⟩
  | bound h => exact .inr (hs.store _ _ h)
  | literal node =>
    have hfit := hc.literal (hs.journal _ node)
    exact .inr (List.forall_mem_singleton.mpr hfit)
  | closure node =>
    have hfit := hc.closure (hs.journal _ node)
    exact .inr (List.forall_mem_singleton.mpr hfit)
  | returned value =>
    have hvalue := hs.known hc hsize value
    exact .inr (Value.everywhere_returned (hc.returned hvalue) hvalue)

theorem InCustody.mayEnter (hs : InCustody Fit Tree s) (hc : Custody o Bounded Fit Tree)
    (hsize : o.scopes ≤ s.store.scopes.size) {n : Node} {i : ScopeId} (h : MayEnter o s n i) :
    Tree s n i := by
  cases h with
  | tree start => exact hc.tree hsize start
  | child parent h => exact hc.child (hs.journal _ parent) h
  | body callee scope => exact hc.body (hs.known hc hsize callee).self scope

/-- A step leaves everything as it has to be, and what it adds is so too. -/
theorem Custody.step (hc : Custody o Bounded Fit Tree) (hstep : Step o s s')
    (hsize : o.scopes ≤ s.store.scopes.size) (hbounded : ∀ v, Known o s v → Bounded v)
    (hs : InCustody Fit Tree s) : InCustody Fit Tree s' := by
  have htree (n : Node) (i : ScopeId) (h : Tree s n i) : Tree s' n i := hc.tree_step hstep h
  have hfit {v : Value} (hv : v.Everywhere (Fit s)) : v.Everywhere (Fit s') :=
    hv.mono fun _ => hc.fit_step hstep
  have hstore : s.store.Holds (Fit s') := hs.store.mono fun _ => hc.fit_step hstep
  have hjournal (e : Event) (he : e ∈ s.journal) : e.Satisfies (Fit s') (Tree s') :=
    (hs.journal e he).mono (fun _ => hc.fit_step hstep) htree
  cases hstep with
  | enter h =>
    have hnew := htree _ _ (hs.mayEnter hc hsize h)
    exact ⟨hstore, List.forall_mem_cons.mpr ⟨hnew, hjournal⟩⟩
  | complete h =>
    have hnew := (hs.made hc hsize hbounded h).imp_right hfit
    exact ⟨hstore, List.forall_mem_cons.mpr ⟨hnew, hjournal⟩⟩
  | bind _ value =>
    have hnew := hfit (hs.known hc hsize value)
    exact ⟨hstore.bind _ _ hnew, List.forall_mem_cons.mpr ⟨hnew, hjournal⟩⟩
  | enclose => exact ⟨hstore.enclose _, hjournal⟩
  | print => exact ⟨hstore, List.forall_mem_cons.mpr ⟨trivial, hjournal⟩⟩

/-- What was in custody when a run began is so to its end. -/
theorem Custody.steps (hc : Custody o Bounded Fit Tree) (hsteps : Steps o s s')
    (hsize : o.scopes ≤ s.store.scopes.size) (hbounded : ∀ v, Known o s' v → Bounded v)
    (hs : InCustody Fit Tree s) : InCustody Fit Tree s' := by
  induction hsteps with
  | refl => exact hs
  | tail hsteps hstep ih =>
    have hbefore := fun v hv => hbounded v (Known.mono hv (.single hstep))
    exact hc.step hstep (Nat.le_trans hsize (Steps.size_le hsteps)) hbefore (ih hbefore)

end

end TreeWalk
